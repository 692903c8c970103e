import Sac2c.TypeOrder

/-!
TYlubOfTypes of typecheck/new_types.c. If neither of two types is below the
other, the first one is generalised by one step and the least upper bound is
computed again; a type that is above both of two such types is above the
generalised one, so the steps lead to the least upper bound.
-/

namespace Sac2c.LubOfTypes

open NewTypes TypeOrder

section Model
variable {Val : Type}

/-- TUcombineBottom: the message of the second type is appended to that of the first. -/
def combineBottom : NType Val → NType Val → NType Val
  | .bottom msg1, .bottom msg2 => .bottom (msg1 ++ "\n" ++ msg2)
  | t1, _ => t1

/-- The type `new_t1` by which an array type is replaced if it has to grow. There
is nothing above an AUD type. -/
def generalise : ArrayType Val → Option (ArrayType Val)
  | .akv base const => some (.aks base const.shape)
  | .aks base shape =>
      if dim : shape.length = 0 then some (.aud base) else some (.akd base shape.length [] dim)
  | .akd base dots _ _ => if dots = 0 then some (.aud base) else some (.audgz base)
  | .audgz base => some (.aud base)
  | .aud _ => none

/-- How often a type can be generalised; bottom waits for the other type. -/
def rank : NType Val → Nat
  | .array (.aud _) => 0
  | .array (.audgz _) => 1
  | .array (.akd _ _ _ _) => 2
  | .array (.aks _ _) => 3
  | .array (.akv _ _) => 4
  | .bottom _ => 5

/-- The steps of the generalisation. -/
inductive Grows : ArrayType Val → ArrayType Val → Prop where
  | shape (base : ScalarType) (const : Constant Val) :
      Grows (.akv base const) (.aks base const.shape)
  | scalar (base : ScalarType) : Grows (.aks base []) (.aud base)
  | dims (base : ScalarType) (shape : List Nat) (dim : shape.length ≠ 0) :
      Grows (.aks base shape) (.akd base shape.length [] dim)
  | nonzero (base : ScalarType) (dots : Nat) (shape : List Nat) (some : dots ≠ 0) :
      Grows (.akd base dots shape some) (.audgz base)
  | any (base : ScalarType) : Grows (.audgz base) (.aud base)

theorem grows_of_generalise {type new : ArrayType Val} (grown : generalise type = some new) :
    Grows type new := by
  cases type with
  | akv base const =>
      cases grown
      exact .shape base const
  | aks base shape =>
      by_cases dim : shape.length = 0
      · obtain rfl := List.length_eq_zero_iff.mp dim
        cases grown
        exact .scalar base
      · rw [generalise, dif_neg dim] at grown
        cases grown
        exact .dims base shape dim
  | akd base dots shape some =>
      -- TYmakeAKD makes no AKD type without dots, so the first branch is never taken
      rw [generalise, if_neg some] at grown
      cases grown
      exact .nonzero base dots shape some
  | audgz base =>
      cases grown
      exact .any base
  | aud base => cases grown

theorem rank_generalise {type new : ArrayType Val} (grown : generalise type = some new) :
    rank (.array new) < rank (.array type) := by
  cases grows_of_generalise grown <;> simp [rank]

theorem rank_array (type : ArrayType Val) : rank (.array type) < 5 := by
  cases type <;> simp [rank]

theorem generalise_scalar {type new : ArrayType Val} (grown : generalise type = some new) :
    new.getScalar = type.getScalar := by
  cases grows_of_generalise grown <;> rfl

variable [BEq Val]

/-- TYlubOfTypes. It is NULL for disjoint types, and where the branch marked
unreachable would be taken. -/
def lubOfTypes (users : UserTypes) (t1 t2 : NType Val) : Option (NType Val) :=
  match cmpNtypes users t1 t2 with
  | .eq => some (combineBottom t1 t2)
  | .lt => some t2
  | .gt => some t1
  | .hcs =>
      match t1 with
      | .bottom _ =>
          match t2 with
          | .bottom _ => none
          | .array a2 => lubOfTypes users (.array a2) t1
      | .array a1 =>
          match grown : generalise a1 with
          | some new =>
              have := rank_generalise grown
              lubOfTypes users (.array new) t2
          | none => none
  | .dis => none
termination_by rank t1
decreasing_by
  · exact rank_array a2
  · assumption

end Model

section Joins
variable {Val : Type} [BEq Val]

/-- A least upper bound of a set of types with respect to TYleTypes. -/
structure Joins (users : UserTypes) (bounds : NType Val → Prop) (u : NType Val) : Prop where
  above : ∀ t, bounds t → leNtypes users t u = true
  least : ∀ w, (∀ t, bounds t → leNtypes users t w = true) → leNtypes users u w = true

/-- A least upper bound is below itself. -/
theorem joins_definite {users : UserTypes} {bounds : NType Val → Prop} {u : NType Val}
    (joins : Joins users bounds u) : Definite u :=
  (le_ntypes_self_iff users u).mp (joins.least u joins.above)

theorem joins_single (users : UserTypes) {t : NType Val} (known : Definite t) :
    Joins users (fun bound => bound = t) t where
  above := by
    rintro bound rfl
    exact (le_ntypes_self_iff users bound).mpr known
  least _ bounded := bounded t rfl

theorem joins_congr {users : UserTypes} {bounds others : NType Val → Prop} {u : NType Val}
    (same : ∀ t, bounds t ↔ others t) (joins : Joins users bounds u) : Joins users others u := by
  obtain rfl : bounds = others := funext fun t => propext (same t)
  exact joins

variable [PartialEquivBEq Val]

theorem eq_ntypes_of_le {users : UserTypes} {t1 t2 : NType Val}
    (below : leNtypes users t1 t2 = true) (above : leNtypes users t2 t1 = true) :
    eqNtypes users t1 t2 = true := by
  unfold leNtypes at below above
  rw [cmp_ntypes_flip users t1 t2] at above
  exact beq_of_eq (eq_of_le_flip below above)

theorem le_of_eq_ntypes {users : UserTypes} {t1 t2 : NType Val}
    (same : eqNtypes users t1 t2 = true) :
    leNtypes users t1 t2 = true ∧ leNtypes users t2 t1 = true := by
  have result : cmpNtypes users t1 t2 = .eq := eq_of_beq same
  have flipped := cmp_ntypes_flip users t1 t2
  rw [result] at flipped
  exact ⟨by rw [leNtypes, result]; rfl, by rw [leNtypes, flipped]; rfl⟩

/-- Two least upper bounds of the same types are equal to TYeqTypes. -/
theorem joins_unique {users : UserTypes} {bounds : NType Val → Prop} {u v : NType Val}
    (first : Joins users bounds u) (second : Joins users bounds v) : eqNtypes users u v = true :=
  eq_ntypes_of_le (first.least v second.above) (second.least u first.above)

/-- A least upper bound of two least upper bounds is one of all the types. -/
theorem joins_union {users : UserTypes} {bounds others : NType Val → Prop} {u v w : NType Val}
    (first : Joins users bounds u) (second : Joins users others v)
    (both : Joins users (fun t => t = u ∨ t = v) w) :
    Joins users (fun t => bounds t ∨ others t) w where
  above := by
    rintro t (member | member)
    · exact le_ntypes_trans users (first.above t member) (both.above u (Or.inl rfl))
    · exact le_ntypes_trans users (second.above t member) (both.above v (Or.inr rfl))
  least bound bounded := by
    apply both.least
    rintro t (rfl | rfl)
    · exact first.least bound fun t member => bounded t (Or.inl member)
    · exact second.least bound fun t member => bounded t (Or.inr member)

end Joins

section LeastUpperBound
variable {Val : Type} [BEq Val]

/-- A step of the generalisation leads to a type above. -/
theorem admits_generalise {type new : ArrayType Val} (grown : generalise type = some new) :
    Admits new type := by
  cases grows_of_generalise grown with
  | shape base const => rfl
  | scalar base => trivial
  | dims base shape dim => simp [Admits, ArrayType.getDim]
  | nonzero base dots shape some =>
      exact Or.inl ⟨_, rfl, Nat.add_pos_right _ (Nat.pos_of_ne_zero some)⟩
  | any base => trivial

theorem le_generalise (users : UserTypes) {type new : ArrayType Val}
    (grown : generalise type = some new) :
    leNtypes users (.array type) (.array new) = true := by
  rw [le_ntypes_array, le_types_iff, generalise_scalar grown]
  exact ⟨eq_scalar_self users type.getScalar, admits_generalise grown⟩

theorem admits_shape_of_constant {base : ScalarType} {const : Constant Val} {w : ArrayType Val}
    (above : Admits w (.akv base const)) (grown : ∀ base2 const2, w ≠ .akv base2 const2) :
    Admits w (.aks base const.shape) := by
  cases w with
  | akv base2 const2 => exact absurd rfl (grown base2 const2)
  | aks _ _ => exact above
  | akd _ _ _ _ => exact above
  | audgz _ =>
      rcases above with positive | ⟨_, same⟩
      · exact Or.inl positive
      · cases same
  | aud _ => trivial

/-- No step of the generalisation leads past a type that is above two types of
which neither is below the other. -/
theorem admits_of_incomparable [PartialEquivBEq Val] {a1 a2 new w : ArrayType Val}
    (grown : generalise a1 = some new) (notBelow : ¬ Admits a2 a1) (notAbove : ¬ Admits a1 a2)
    (above1 : Admits w a1) (above2 : Admits w a2) : Admits w new := by
  cases w with
  | akv base const =>
      obtain ⟨base1, const1, rfl, same1⟩ := above1
      obtain ⟨base2, const2, rfl, same2⟩ := above2
      have equal := compare_constants_trans same1 (compare_constants_symm same2)
      exact absurd ⟨base1, const1, rfl, equal⟩ notBelow
  | aks base shape =>
      cases grows_of_generalise grown with
      | shape base1 const1 => exact above1
      | scalar base1 =>
          obtain rfl : [] = shape := by simpa [Admits, ArrayType.getShape] using above1
          exact absurd above2 notAbove
      | dims base1 shape1 dim =>
          obtain rfl : shape1 = shape := by simpa [Admits, ArrayType.getShape] using above1
          exact absurd above2 notAbove
      | nonzero base1 dots1 shape1 some1 => simp [Admits, ArrayType.getShape] at above1
      | any base1 => simp [Admits, ArrayType.getShape] at above1
  | akd base dots shape some =>
      cases grows_of_generalise grown with
      | shape base1 const1 => exact above1
      | scalar base1 =>
          have dim : 0 = shape.length + dots := by simpa [Admits, ArrayType.getDim] using above1
          omega
      | dims base1 shape1 dim => simpa [Admits, ArrayType.getDim] using above1
      | nonzero base1 dots1 shape1 some1 =>
          have dim : shape1.length + dots1 = shape.length + dots := by
            simpa [Admits, ArrayType.getDim] using above1
          refine absurd ?_ notAbove
          simp only [Admits] at above2 ⊢
          rw [above2, dim]
      | any base1 => simp [Admits, ArrayType.getDim] at above1
  | audgz base =>
      cases grows_of_generalise grown with
      | shape base1 const1 => exact admits_shape_of_constant above1 (by simp)
      | scalar base1 => simp [Admits, ArrayType.getDim] at above1
      | dims base1 shape1 dim =>
          exact Or.inl ⟨shape1.length, by simp [ArrayType.getDim], Nat.pos_of_ne_zero dim⟩
      | nonzero base1 dots1 shape1 some1 => exact Or.inr ⟨base1, rfl⟩
      | any base1 => exact absurd above2 notAbove
  | aud base => trivial

/-- The arguments of TYlubOfTypes where it generalises the first one. -/
theorem hcs_array_iff (users : UserTypes) (a1 a2 : ArrayType Val) :
    cmpNtypes users (.array a1) (.array a2) = .hcs ↔
      eqScalar users a1.getScalar a2.getScalar = true ∧ cmpSameBase a1 a2 = .hcs := by
  rw [cmp_ntypes_array]
  unfold cmpTypes
  split_ifs with base <;> simp [base]

theorem not_admits_of_hcs [PartialEquivBEq Val] {a1 a2 : ArrayType Val}
    (common : cmpSameBase a1 a2 = .hcs) : ¬ Admits a2 a1 ∧ ¬ Admits a1 a2 := by
  rw [admits_iff, admits_iff, cmp_same_base_flip a1 a2, common]
  decide

theorem generalise_below [PartialEquivBEq Val] (users : UserTypes) {a1 new : ArrayType Val}
    {t2 w : NType Val} (grown : generalise a1 = some new)
    (common : cmpNtypes users (.array a1) t2 = .hcs)
    (above1 : leNtypes users (.array a1) w = true) (above2 : leNtypes users t2 w = true) :
    leNtypes users (.array new) w = true := by
  cases w with
  | bottom msg =>
      obtain ⟨other, same⟩ := (le_bottom_iff users _ msg).mp above1
      cases same
  | array aw =>
      rw [le_ntypes_array, le_types_iff] at above1 ⊢
      rw [generalise_scalar grown]
      refine ⟨above1.1, ?_⟩
      cases t2 with
      | bottom msg =>
          rw [bottom_le_iff] at above2
          cases a1 with
          | akv base const =>
              cases grown
              exact admits_shape_of_constant above1.2 above2
          | aks _ _ => cases common
          | akd _ _ _ _ => cases common
          | audgz _ => cases common
          | aud _ => cases common
      | array a2 =>
          rw [hcs_array_iff] at common
          rw [le_ntypes_array, le_types_iff] at above2
          obtain ⟨notBelow, notAbove⟩ := not_admits_of_hcs common.2
          exact admits_of_incomparable grown notBelow notAbove above1.2 above2.2

/-- Only the element types of two array types can make them disjoint. -/
theorem cmp_ntypes_dis_iff (users : UserTypes) (t1 t2 : NType Val) :
    cmpNtypes users t1 t2 = .dis ↔ ∃ a1 a2, t1 = .array a1 ∧ t2 = .array a2 ∧
      eqScalar users a1.getScalar a2.getScalar = false := by
  cases t1 with
  | bottom msg1 =>
      cases t2 with
      | bottom msg2 => simp [cmpNtypes]
      | array a2 => cases a2 <;> simp [cmpNtypes]
  | array a1 =>
      cases t2 with
      | bottom msg2 => cases a1 <;> simp [cmpNtypes]
      | array a2 =>
          have sameBase : cmpSameBase a1 a2 ≠ .dis := by
            cases a1 <;> cases a2 <;> simp [cmpSameBase, ite_eq_iff]
          rw [cmp_ntypes_array]
          unfold cmpTypes
          cases base : eqScalar users a1.getScalar a2.getScalar with
          | false => simp [base]
          | true => simp [base, sameBase]

/-- An AUD type is above every type it has super types in common with. -/
theorem generalise_some (users : UserTypes) {a1 : ArrayType Val} {t2 : NType Val}
    (common : cmpNtypes users (.array a1) t2 = .hcs) : generalise a1 ≠ none := by
  cases a1 with
  | akv _ _ => simp [generalise]
  | aks _ _ => simp only [generalise]; split <;> simp
  | akd _ _ _ _ => simp only [generalise]; split <;> simp
  | audgz _ => simp [generalise]
  | aud base =>
      cases t2 with
      | bottom _ => cases common
      | array a2 =>
          rw [hcs_array_iff] at common
          cases a2 <;> cases common.2

theorem lub_of_disjoint (users : UserTypes) {t1 t2 : NType Val}
    (disjoint : cmpNtypes users t1 t2 = .dis) : lubOfTypes users t1 t2 = none := by
  rw [lubOfTypes.eq_def, disjoint]

/-- A type that is above a type that is not equal to it is equal to itself. -/
theorem le_self_of_lt (users : UserTypes) {t1 t2 : NType Val}
    (below : cmpNtypes users t1 t2 = .lt) : leNtypes users t2 t2 = true := by
  rw [le_ntypes_self_iff]
  cases t2 with
  | bottom msg => trivial
  | array a2 =>
      cases a2 with
      | akv base const =>
          cases t1 with
          | bottom msg => cases below
          | array a1 =>
              -- a constant is above no array type without being equal to it
              rw [cmp_ntypes_array] at below
              unfold cmpTypes at below
              split_ifs at below
              cases a1 <;> simp [cmpSameBase, ite_eq_iff] at below
      | aks _ _ => trivial
      | akd _ _ _ _ => trivial
      | audgz _ => trivial
      | aud _ => trivial

/-- Two types have a least upper bound, and TYlubOfTypes computes it, unless they are
disjoint. -/
theorem lub_spec [PartialEquivBEq Val] (users : UserTypes) (t1 t2 : NType Val)
    (base : cmpNtypes users t1 t2 ≠ .dis) :
    ∃ u, lubOfTypes users t1 t2 = some u ∧ Joins users (fun t => t = t1 ∨ t = t2) u := by
  fun_induction lubOfTypes users t1 t2 with
  | case1 t1 t2 result =>
      -- equal types: the first one, except that two messages are joined
      have same : eqNtypes users t1 t2 = true := by simp [eqNtypes, result]
      obtain ⟨below, above⟩ := le_of_eq_ntypes same
      have self := le_ntypes_trans users below above
      have combined : leNtypes users t1 (combineBottom t1 t2) = true ∧
          leNtypes users (combineBottom t1 t2) t1 = true := by
        cases t1 with
        | bottom msg1 =>
            obtain ⟨msg2, rfl⟩ := (le_bottom_iff users t2 msg1).mp above
            exact ⟨rfl, rfl⟩
        | array a1 => exact ⟨self, self⟩
      refine ⟨_, rfl, ?_, ?_⟩
      · rintro t (rfl | rfl)
        · exact combined.1
        · exact le_ntypes_trans users above combined.1
      · intro w bounded
        exact le_ntypes_trans users combined.2 (bounded _ (Or.inl rfl))
  | case2 t1 t2 result =>
      have below : leNtypes users t1 t2 = true := by simp [leNtypes, result, isLe]
      refine ⟨_, rfl, ?_, fun w bounded => bounded _ (Or.inr rfl)⟩
      rintro t (rfl | rfl)
      · exact below
      · exact le_self_of_lt users result
  | case3 t1 t2 result =>
      have flipped : cmpNtypes users t2 t1 = .lt := by
        rw [cmp_ntypes_flip users t1 t2, result]
        rfl
      refine ⟨_, rfl, ?_, fun w bounded => bounded _ (Or.inl rfl)⟩
      rintro t (rfl | rfl)
      · exact le_self_of_lt users flipped
      · simp [leNtypes, flipped, isLe]
  | case4 msg1 msg2 result => cases result
  | case5 msg1 a2 result ih =>
      -- bottom and a constant: the call is repeated with the arguments exchanged
      obtain ⟨u, computed, joins⟩ := ih (by
        rw [cmp_ntypes_flip users (.bottom msg1), result]
        decide)
      exact ⟨u, computed, joins_congr (fun t => or_comm) joins⟩
  | case6 t2 a1 new grown _ result ih =>
      -- a bound of both types is above the generalised one, so nothing is overshot
      have sameBase : cmpNtypes users (.array new) t2 ≠ .dis := by
        rw [Ne, cmp_ntypes_dis_iff] at base ⊢
        rintro ⟨a, a2, same, rfl, differs⟩
        obtain rfl : new = a := NType.array.inj same
        rw [generalise_scalar grown] at differs
        exact base ⟨a1, a2, rfl, rfl, differs⟩
      obtain ⟨u, computed, joins⟩ := ih sameBase
      refine ⟨u, computed, ?_, fun w bounded => joins.least w ?_⟩
      · rintro t (rfl | rfl)
        · exact le_ntypes_trans users (le_generalise users grown) (joins.above _ (Or.inl rfl))
        · exact joins.above _ (Or.inr rfl)
      · have above2 := bounded t2 (Or.inr rfl)
        rintro t (rfl | rfl)
        · exact generalise_below users grown result (bounded _ (Or.inl rfl)) above2
        · exact above2
  | case7 t2 a1 grown result => exact absurd grown (generalise_some users result)
  | case8 t1 t2 result => exact absurd result base

end LeastUpperBound

section OneBase
variable {Val : Type}

/-- Bottom, and the array types with a given simple element type. -/
def OverSimple (type : SimpleType) : NType Val → Prop
  | .bottom _ => True
  | .array a => a.getScalar = .simple type

variable [BEq Val]

theorem cmp_over_simple (users : UserTypes) {type : SimpleType} {t1 t2 : NType Val}
    (over1 : OverSimple type t1) (over2 : OverSimple type t2) : cmpNtypes users t1 t2 ≠ .dis := by
  rw [Ne, cmp_ntypes_dis_iff]
  rintro ⟨a1, a2, rfl, rfl, differs⟩
  rw [show a1.getScalar = .simple type from over1, show a2.getScalar = .simple type from over2]
    at differs
  simp [eqScalar] at differs

/-- What is above an array type has its element type. -/
theorem over_simple_of_le (users : UserTypes) {type : SimpleType} {a : ArrayType Val}
    {u : NType Val}
    (simple : OverSimple type (.array a)) (below : leNtypes users (.array a) u = true) :
    OverSimple type u := by
  cases u with
  | bottom msg => trivial
  | array au =>
      rw [le_ntypes_array, le_types_iff, show a.getScalar = .simple type from simple] at below
      change au.getScalar = .simple type
      cases scalar : au.getScalar with
      | simple other =>
          have same : type = other := by simpa [scalar, eqScalar] using below.1
          rw [same]
      | symbol ns name => simp [scalar, eqScalar] at below
      | user udt => simp [scalar, eqScalar] at below

theorem definite_of_refl [ReflBEq Val] (t : NType Val) : Definite t := by
  cases t with
  | bottom msg => trivial
  | array a =>
      cases a with
      | akv base const => exact fun elem _ => BEq.rfl
      | aks _ _ => trivial
      | akd _ _ _ _ => trivial
      | audgz _ => trivial
      | aud _ => trivial

theorem lub_over_simple [PartialEquivBEq Val] (users : UserTypes) {type : SimpleType}
    {t1 t2 : NType Val} (over1 : OverSimple type t1) (over2 : OverSimple type t2) :
    ∃ u, lubOfTypes users t1 t2 = some u ∧ OverSimple type u ∧
      Joins users (fun t => t = t1 ∨ t = t2) u := by
  obtain ⟨u, computed, joins⟩ := lub_spec users t1 t2 (cmp_over_simple users over1 over2)
  refine ⟨u, computed, ?_, joins⟩
  have above1 := joins.above t1 (Or.inl rfl)
  have above2 := joins.above t2 (Or.inr rfl)
  cases t1 with
  | array a1 => exact over_simple_of_le users over1 above1
  | bottom msg1 =>
      cases t2 with
      | array a2 => exact over_simple_of_le users over2 above2
      | bottom msg2 =>
          have below : leNtypes users u (.bottom msg1) = true := by
            apply joins.least
            rintro t (rfl | rfl) <;> rfl
          obtain ⟨msg, rfl⟩ := (le_bottom_iff users u msg1).mp below
          trivial

/-- TYlubOfTypes on array types and bottom over one simple element type, with
constants of integers: it returns the least upper bound, and up to TYeqTypes it is
commutative, idempotent and associative. -/
theorem lub_of_types_least (users : UserTypes) (type : SimpleType) (t1 t2 t3 : NType Int)
    (over1 : OverSimple type t1) (over2 : OverSimple type t2) (over3 : OverSimple type t3) :
    (∃ u, lubOfTypes users t1 t2 = some u ∧ leNtypes users t1 u = true ∧
      leNtypes users t2 u = true ∧
      ∀ w, leNtypes users t1 (.array w) = true → leNtypes users t2 (.array w) = true →
        leNtypes users u (.array w) = true) ∧
    (∃ u v, lubOfTypes users t1 t2 = some u ∧ lubOfTypes users t2 t1 = some v ∧
      eqNtypes users u v = true) ∧
    (∃ u, lubOfTypes users t1 t1 = some u ∧ eqNtypes users u t1 = true) ∧
    ∃ u v, (lubOfTypes users t1 t2).bind (fun u12 => lubOfTypes users u12 t3) = some u ∧
      (lubOfTypes users t2 t3).bind (fun u23 => lubOfTypes users t1 u23) = some v ∧
      eqNtypes users u v = true := by
  have known : ∀ t : NType Int, Definite t := definite_of_refl
  obtain ⟨u12, computed12, over12, joins12⟩ := lub_over_simple users over1 over2
  obtain ⟨u21, computed21, _, joins21⟩ := lub_over_simple users over2 over1
  obtain ⟨u11, computed11, _, joins11⟩ := lub_over_simple users over1 over1
  obtain ⟨u23, computed23, over23, joins23⟩ := lub_over_simple users over2 over3
  obtain ⟨left, computedLeft, _, joinsLeft⟩ := lub_over_simple users over12 over3
  obtain ⟨right, computedRight, _, joinsRight⟩ := lub_over_simple users over1 over23
  refine ⟨⟨u12, computed12, joins12.above t1 (Or.inl rfl), joins12.above t2 (Or.inr rfl), ?_⟩,
    ⟨u12, u21, computed12, computed21, ?_⟩, ⟨u11, computed11, ?_⟩, left, right, ?_, ?_, ?_⟩
  · intro w above1 above2
    apply joins12.least
    rintro t (rfl | rfl)
    · exact above1
    · exact above2
  · exact joins_unique joins12 (joins_congr (fun t => or_comm) joins21)
  · exact joins_unique joins11
      (joins_congr (fun t => (or_self_iff).symm) (joins_single users (known t1)))
  · rw [computed12]
    exact computedLeft
  · rw [computed23]
    exact computedRight
  · have allLeft := joins_union joins12 (joins_single users (known t3)) joinsLeft
    have allRight := joins_union (joins_single users (known t1)) joins23 joinsRight
    exact joins_unique allLeft (joins_congr (fun t => or_assoc.symm) allRight)

end OneBase

/-- The type of an integer vector. -/
def intVector (elems : List Int) : NType Int :=
  .array (.akv intScalar { shape := [elems.length], elems := elems, filled := by simp })

/-- Two vectors of one shape, and a message. -/
theorem lub_of_two_vectors :
    ∃ u, lubOfTypes noAliases (intVector [1, 2]) (intVector [3, 4]) = some u ∧
      leNtypes noAliases (intVector [1, 2]) u = true ∧
      leNtypes noAliases (intVector [3, 4]) u = true ∧
      ∀ w, leNtypes noAliases (intVector [1, 2]) (.array w) = true →
        leNtypes noAliases (intVector [3, 4]) (.array w) = true →
        leNtypes noAliases u (.array w) = true :=
  (lub_of_types_least noAliases .int (intVector [1, 2]) (intVector [3, 4]) (.bottom "")
    rfl rfl trivial).1

end Sac2c.LubOfTypes
