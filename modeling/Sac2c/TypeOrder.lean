import Sac2c.NewTypes

/-!
TYcmpTypes of typecheck/new_types.c on bottom types, array types and products of
them. Read the other way round a comparison is flipped, so that equality,
"has common super types" and disjointness are symmetric; below a type is what
admits fewer values. Only a constant that is not equal to itself (a NaN among its
elements) keeps its type from being below itself.
-/

namespace Sac2c.TypeOrder

open NewTypes

/-- A bottom type with its error message, or an array type. -/
inductive NType (Val : Type) where
  | bottom (msg : String)
  | array (type : ArrayType Val)

section Model
variable {Val : Type} [BEq Val]

/-- TYcmpTypes on types that are no products. A constant is not above bottom. -/
def cmpNtypes (users : UserTypes) : NType Val → NType Val → CtRes
  | .bottom _, .bottom _ => .eq
  | .bottom _, .array (.akv _ _) => .hcs
  | .bottom _, .array _ => .lt
  | .array (.akv _ _), .bottom _ => .hcs
  | .array _, .bottom _ => .gt
  | .array t1, .array t2 => cmpTypes users t1 t2

/-- One round of the loop over the members of two products: the result so far
and the comparison of the next two members. -/
def foldMember : CtRes → CtRes → CtRes
  | .eq, local_ => local_
  | .lt, .gt => .hcs
  | .lt, .hcs => .hcs
  | .lt, .dis => .dis
  | .lt, _ => .lt
  | .gt, .lt => .hcs
  | .gt, .hcs => .hcs
  | .gt, .dis => .dis
  | .gt, _ => .gt
  | .hcs, .dis => .dis
  | .hcs, _ => .hcs
  | .dis, _ => .dis

/-- TYcmpTypes on two products. -/
def cmpProducts (users : UserTypes) (prod1 prod2 : List (NType Val)) : CtRes :=
  if prod1.length = prod2.length then
    (List.zipWith (cmpNtypes users) prod1 prod2).foldl foldMember .eq
  else .dis

/-- What TYleTypes asks of the result of a comparison. -/
def isLe (res : CtRes) : Bool :=
  res == .eq || res == .lt

/-- TYeqTypes. -/
def eqNtypes (users : UserTypes) (t1 t2 : NType Val) : Bool :=
  cmpNtypes users t1 t2 == .eq

/-- TYleTypes. -/
def leNtypes (users : UserTypes) (t1 t2 : NType Val) : Bool :=
  isLe (cmpNtypes users t1 t2)

/-- Every element of the constant of an AKV type is equal to itself. -/
def Definite : NType Val → Prop
  | .array (.akv _ const) => ∀ elem ∈ const.elems, (elem == elem) = true
  | _ => True

/-- The constants that a type leaves as values of an array. The inner shape of an
AKD type is that of the last axes. -/
def AdmitsConstant (value : Constant Val) : ArrayType Val → Prop
  | .akv _ const => compareConstants value const = true
  | .aks _ shape => value.shape = shape
  | .akd _ dots shape _ => value.shape.length = shape.length + dots ∧ shape <:+ value.shape
  | .audgz _ => 0 < value.shape.length
  | .aud _ => True

/-- The array values of a type: an element type and a constant. -/
def AdmitsValue (users : UserTypes) (base : ScalarType) (value : Constant Val) :
    NType Val → Prop
  | .bottom _ => False
  | .array type => eqScalar users base type.getScalar = true ∧ AdmitsConstant value type

/-- The inner shape of an AKD type is empty. -/
def NoInnerShape : NType Val → Prop
  | .array (.akd _ _ shape _) => shape = []
  | _ => True

end Model

/-- What is asked of a comparison of types: that it can be read both ways and
that TYleTypes is transitive, and reflexive on the types that `Reflexive` names. -/
structure Ordered {T : Type} (cmp : T → T → CtRes) (Reflexive : T → Prop) : Prop where
  lt_gt : ∀ t1 t2, cmp t1 t2 = .lt ↔ cmp t2 t1 = .gt
  eq_symm : ∀ t1 t2, cmp t1 t2 = .eq → cmp t2 t1 = .eq
  hcs_symm : ∀ t1 t2, cmp t1 t2 = .hcs → cmp t2 t1 = .hcs
  dis_symm : ∀ t1 t2, cmp t1 t2 = .dis → cmp t2 t1 = .dis
  refl : ∀ t, Reflexive t → isLe (cmp t t) = true
  trans : ∀ t1 t2 t3, isLe (cmp t1 t2) = true → isLe (cmp t2 t3) = true →
    isLe (cmp t1 t3) = true

section Order
variable {Val : Type} [BEq Val]

theorem is_le_iff (res : CtRes) : isLe res = true ↔ res = .eq ∨ res = .lt := by
  cases res <;> decide

theorem cmp_ntypes_array (users : UserTypes) (t1 t2 : ArrayType Val) :
    cmpNtypes users (.array t1) (.array t2) = cmpTypes users t1 t2 := by
  cases t1 <;> rfl

theorem le_ntypes_array (users : UserTypes) (t1 t2 : ArrayType Val) :
    leNtypes users (.array t1) (.array t2) = leTypes users t1 t2 := by
  unfold leNtypes
  rw [cmp_ntypes_array]
  rfl

theorem eq_scalar_self (users : UserTypes) (scalar : ScalarType) :
    eqScalar users scalar scalar = true := by
  cases scalar with
  | simple type => exact BEq.rfl
  | symbol ns name => simp [eqScalar]
  | user udt => exact BEq.rfl

theorem flip_eq_iff (res : CtRes) :
    (res.flip = .eq ↔ res = .eq) ∧ (res.flip = .lt ↔ res = .gt) ∧ (res.flip = .gt ↔ res = .lt) ∧
      (res.flip = .hcs ↔ res = .hcs) ∧ (res.flip = .dis ↔ res = .dis) := by
  cases res <;> decide

theorem eq_of_le_flip {res : CtRes} (below : isLe res = true) (above : isLe res.flip = true) :
    res = .eq := by
  cases res with
  | eq => rfl
  | lt => cases above
  | gt => cases below
  | hcs => cases below
  | dis => cases below

/-- A comparison that is flipped when its arguments are exchanged can be read
both ways. -/
theorem ordered_of_flip {T : Type} {cmp : T → T → CtRes} {Reflexive : T → Prop}
    (flips : ∀ t1 t2, cmp t2 t1 = (cmp t1 t2).flip)
    (refl : ∀ t, Reflexive t → isLe (cmp t t) = true)
    (trans : ∀ t1 t2 t3, isLe (cmp t1 t2) = true → isLe (cmp t2 t3) = true →
      isLe (cmp t1 t3) = true) : Ordered cmp Reflexive where
  lt_gt t1 t2 := by rw [flips t1 t2, (flip_eq_iff _).2.2.1]
  eq_symm t1 t2 same := by rw [flips t1 t2, same]; rfl
  hcs_symm t1 t2 common := by rw [flips t1 t2, common]; rfl
  dis_symm t1 t2 apart := by rw [flips t1 t2, apart]; rfl
  refl := refl
  trans := trans

theorem cmp_ntypes_flip [PartialEquivBEq Val] (users : UserTypes) (t1 t2 : NType Val) :
    cmpNtypes users t2 t1 = (cmpNtypes users t1 t2).flip := by
  cases t1 with
  | bottom msg1 =>
      cases t2 with
      | bottom msg2 => rfl
      | array a2 => cases a2 <;> rfl
  | array a1 =>
      cases t2 with
      | bottom msg2 => cases a1 <;> rfl
      | array a2 =>
          rw [cmp_ntypes_array, cmp_ntypes_array]
          exact cmp_types_flip users a1 a2

theorem compare_self_iff (const : Constant Val) :
    compareConstants const const = true ↔ ∀ elem ∈ const.elems, (elem == elem) = true := by
  rw [compare_constants_iff]
  simp [List.forall₂_same]

/-- A type is below itself exactly when its constant, if it has one, is equal to
itself. -/
theorem le_ntypes_self_iff (users : UserTypes) (t : NType Val) :
    leNtypes users t t = true ↔ Definite t := by
  cases t with
  | bottom msg => simp [leNtypes, cmpNtypes, isLe, Definite]
  | array a =>
      have base := eq_scalar_self users a.getScalar
      rw [le_ntypes_array, le_types_iff]
      cases a with
      | akv scalar const => simp [Admits, base, Definite, compare_self_iff]
      | aks scalar shape => simp [Admits, base, Definite, ArrayType.getShape]
      | akd scalar dots shape some => simp [Admits, base, Definite, ArrayType.getDim]
      | audgz scalar => simp [Admits, base, Definite]
      | aud scalar => simp [Admits, base, Definite]

/-- Below bottom there is only bottom; above it every array type but a constant. -/
theorem le_bottom_iff (users : UserTypes) (t : NType Val) (msg : String) :
    leNtypes users t (.bottom msg) = true ↔ ∃ other, t = .bottom other := by
  cases t with
  | bottom other => simp [leNtypes, cmpNtypes, isLe]
  | array a => cases a <;> simp [leNtypes, cmpNtypes, isLe]

theorem bottom_le_iff (users : UserTypes) (a : ArrayType Val) (msg : String) :
    leNtypes users (.bottom msg) (.array a) = true ↔ ∀ base const, a ≠ .akv base const := by
  cases a <;> simp [leNtypes, cmpNtypes, isLe]

theorem le_ntypes_trans [PartialEquivBEq Val] (users : UserTypes) {t1 t2 t3 : NType Val}
    (first : leNtypes users t1 t2 = true) (second : leNtypes users t2 t3 = true) :
    leNtypes users t1 t3 = true := by
  cases t3 with
  | bottom msg3 =>
      obtain ⟨msg2, rfl⟩ := (le_bottom_iff users t2 msg3).mp second
      obtain ⟨msg1, rfl⟩ := (le_bottom_iff users t1 msg2).mp first
      rfl
  | array a3 =>
      cases t2 with
      | bottom msg2 =>
          obtain ⟨msg1, rfl⟩ := (le_bottom_iff users t1 msg2).mp first
          rwa [bottom_le_iff] at second ⊢
      | array a2 =>
          cases t1 with
          | bottom msg1 =>
              -- only constants are not above bottom, and below one there are only constants
              rw [bottom_le_iff] at first ⊢
              rintro base const rfl
              rw [le_ntypes_array, le_types_iff] at second
              obtain ⟨base2, const2, same, _⟩ := second.2
              exact first base2 const2 same
          | array a1 =>
              rw [le_ntypes_array] at first second ⊢
              exact le_types_trans users first second

theorem cmp_ntypes_ordered [PartialEquivBEq Val] (users : UserTypes) :
    Ordered (cmpNtypes users : NType Val → NType Val → CtRes) Definite :=
  ordered_of_flip (cmp_ntypes_flip users) (fun t known => (le_ntypes_self_iff users t).mpr known)
    (fun _ _ _ first second => le_ntypes_trans users first second)

theorem fold_member_flip (res next : CtRes) :
    (foldMember res next).flip = foldMember res.flip next.flip := by
  cases res <;> cases next <;> rfl

theorem is_le_fold_member (res next : CtRes) :
    isLe (foldMember res next) = true ↔ isLe res = true ∧ isLe next = true := by
  cases res <;> cases next <;> decide

/-- The members of a product may be compared in any order: the result is below
exactly when each of them is. -/
theorem is_le_foldl (results : List CtRes) (res : CtRes) :
    isLe (results.foldl foldMember res) = true ↔
      isLe res = true ∧ ∀ next ∈ results, isLe next = true := by
  induction results generalizing res with
  | nil => simp
  | cons next rest ih => simp [ih, is_le_fold_member, and_assoc]

theorem foldl_flip (results : List CtRes) (res : CtRes) :
    (results.foldl foldMember res).flip = (results.map CtRes.flip).foldl foldMember res.flip := by
  induction results generalizing res with
  | nil => rfl
  | cons next rest ih => simp [ih, fold_member_flip]

theorem cmp_products_flip [PartialEquivBEq Val] (users : UserTypes)
    (prod1 prod2 : List (NType Val)) :
    cmpProducts users prod2 prod1 = (cmpProducts users prod1 prod2).flip := by
  unfold cmpProducts
  by_cases arity : prod1.length = prod2.length
  · have members : List.zipWith (cmpNtypes users) prod2 prod1 =
        (List.zipWith (cmpNtypes users) prod1 prod2).map CtRes.flip := by
      rw [List.zipWith_comm, List.map_zipWith]
      congr 1
      funext t1 t2
      exact cmp_ntypes_flip users t1 t2
    rw [if_pos arity, if_pos arity.symm, members, foldl_flip]
    rfl
  · rw [if_neg arity, if_neg (Ne.symm arity)]
    rfl

theorem le_products_iff (users : UserTypes) (prod1 prod2 : List (NType Val)) :
    isLe (cmpProducts users prod1 prod2) = true ↔
      List.Forall₂ (fun t1 t2 => leNtypes users t1 t2 = true) prod1 prod2 := by
  unfold cmpProducts
  by_cases arity : prod1.length = prod2.length
  · rw [if_pos arity, is_le_foldl]
    simp only [isLe, beq_self_eq_true, Bool.true_or, true_and]
    induction prod1 generalizing prod2 with
    | nil =>
        cases prod2 with
        | nil => simp
        | cons _ _ => simp at arity
    | cons t1 rest1 ih =>
        cases prod2 with
        | nil => simp at arity
        | cons t2 rest2 =>
            simp only [List.length_cons, Nat.add_right_cancel_iff] at arity
            simp only [List.zipWith_cons_cons, List.mem_cons, forall_eq_or_imp,
              List.forall₂_cons, ← ih rest2 arity]
            rfl
  · rw [if_neg arity]
    constructor
    · intro below
      simp [isLe] at below
    · intro members
      exact absurd members.length_eq arity

theorem cmp_products_ordered [PartialEquivBEq Val] (users : UserTypes) :
    Ordered (cmpProducts users : List (NType Val) → List (NType Val) → CtRes)
      (fun prod => ∀ t ∈ prod, Definite t) := by
  refine ordered_of_flip (cmp_products_flip users) ?_ ?_
  · intro prod known
    rw [le_products_iff, List.forall₂_same]
    exact fun t member => (le_ntypes_self_iff users t).mpr (known t member)
  · intro prod1 prod2 prod3 first second
    rw [le_products_iff] at first second ⊢
    induction first generalizing prod3 with
    | nil => exact second
    | cons head _ ih =>
        cases second with
        | cons next rest => exact List.Forall₂.cons (le_ntypes_trans users head next) (ih _ rest)

theorem admits_constant_shape {type : ArrayType Val} {value : Constant Val} {shape : List Nat}
    (admitted : AdmitsConstant value type) (known : type.getShape = some shape) :
    value.shape = shape := by
  cases type with
  | akv _ const =>
      rw [AdmitsConstant, compare_constants_iff] at admitted
      simpa [ArrayType.getShape, admitted.1] using known
  | aks _ own => simpa [ArrayType.getShape, ← show value.shape = own from admitted] using known
  | akd _ _ _ _ => simp [ArrayType.getShape] at known
  | audgz _ => simp [ArrayType.getShape] at known
  | aud _ => simp [ArrayType.getShape] at known

theorem admits_constant_dim {type : ArrayType Val} {value : Constant Val} {dim : Nat}
    (admitted : AdmitsConstant value type) (known : type.getDim = some dim) :
    value.shape.length = dim := by
  cases type with
  | akv _ const =>
      rw [AdmitsConstant, compare_constants_iff] at admitted
      simpa [ArrayType.getDim, admitted.1] using known
  | aks _ own => simpa [ArrayType.getDim, ← show value.shape = own from admitted] using known
  | akd _ dots own _ =>
      have length := admitted.1
      simp only [ArrayType.getDim, Option.some.injEq] at known
      omega
  | audgz _ => simp [ArrayType.getDim] at known
  | aud _ => simp [ArrayType.getDim] at known

/-- What is below an array type has fewer values. -/
theorem admits_value_mono [PartialEquivBEq Val] (users : UserTypes) {a1 a2 : ArrayType Val}
    (inner : NoInnerShape (.array a2)) (below : leTypes users a1 a2 = true)
    {base : ScalarType} {value : Constant Val}
    (admitted : AdmitsValue users base value (.array a1)) :
    AdmitsValue users base value (.array a2) := by
  rw [le_types_iff] at below
  obtain ⟨scalars, below⟩ := below
  refine ⟨eq_scalar_trans users admitted.1 scalars, ?_⟩
  cases a2 with
  | akv scalar const2 =>
      obtain ⟨scalar1, const1, rfl, same⟩ := below
      exact compare_constants_trans admitted.2 same
  | aks scalar shape2 => exact admits_constant_shape admitted.2 below
  | akd scalar dots2 shape2 some =>
      -- the comparison looks at the dimensionality only, not at the inner shape
      obtain rfl : shape2 = [] := inner
      exact ⟨admits_constant_dim admitted.2 below, List.nil_suffix⟩
  | audgz scalar =>
      rcases below with ⟨dim, known, positive⟩ | ⟨_, rfl⟩
      · rw [← admits_constant_dim admitted.2 known] at positive
        exact positive
      · exact admitted.2
  | aud scalar => trivial

/-- TYcmpTypes on types without inner shapes and on products of them. -/
theorem cmp_types_partial_order [PartialEquivBEq Val] (users : UserTypes) :
    Ordered (cmpNtypes users : NType Val → NType Val → CtRes) Definite ∧
    Ordered (cmpProducts users : List (NType Val) → List (NType Val) → CtRes)
      (fun prod => ∀ t ∈ prod, Definite t) ∧
    (∀ a1 a2 : ArrayType Val, NoInnerShape (.array a1) → NoInnerShape (.array a2) →
      cmpNtypes users (.array a1) (.array a2) = .eq ∨
        cmpNtypes users (.array a1) (.array a2) = .lt →
      ∀ base value, AdmitsValue users base value (.array a1) →
        AdmitsValue users base value (.array a2)) ∧
    (∀ prod1 prod2 : List (NType Val), prod1.length = prod2.length →
      (isLe (cmpProducts users prod1 prod2) = true ↔
        List.Forall₂ (fun t1 t2 => leNtypes users t1 t2 = true) prod1 prod2)) := by
  refine ⟨cmp_ntypes_ordered users, cmp_products_ordered users, ?_,
    fun prod1 prod2 _ => le_products_iff users prod1 prod2⟩
  intro a1 a2 _ inner below base value admitted
  rw [← is_le_iff] at below
  refine admits_value_mono users inner ?_ admitted
  rw [← le_ntypes_array]
  exact below

end Order

/-- An element of a constant of type double as `==` sees it: finite numbers are
multiples of the smallest one, and a NaN is equal to nothing. -/
inductive DoubleElem where
  | nan
  | number (multiple : Int)

instance : BEq DoubleElem where
  beq
    | .number multiple1, .number multiple2 => multiple1 == multiple2
    | _, _ => false

instance : PartialEquivBEq DoubleElem where
  symm {elem1 elem2} same := by
    cases elem1 with
    | nan => exact (Bool.false_ne_true same).elim
    | number multiple1 =>
        cases elem2 with
        | nan => exact (Bool.false_ne_true same).elim
        | number multiple2 => exact BEq.symm (α := Int) same
  trans {elem1 elem2 elem3} first second := by
    cases elem2 with
    | nan => cases second
    | number multiple2 =>
        cases elem1 with
        | nan => cases first
        | number multiple1 =>
            cases elem3 with
            | nan => cases second
            | number multiple3 => exact BEq.trans (α := Int) first second

/-- The type of a scalar constant of type double. -/
def doubleConstant (elem : DoubleElem) : NType DoubleElem :=
  .array (.akv (.simple .double) { shape := [], elems := [elem], filled := rfl })

theorem double_types_partial_order :
    Ordered (cmpNtypes noAliases : NType DoubleElem → NType DoubleElem → CtRes) Definite ∧
      Definite (doubleConstant (.number 1)) :=
  ⟨(cmp_types_partial_order noAliases).1, by
    intro elem member
    obtain rfl := List.mem_singleton.mp member
    rfl⟩

/-- The type of the constant NaN is not below itself. -/
theorem nan_not_below_itself :
    ¬ Ordered (cmpNtypes noAliases : NType DoubleElem → NType DoubleElem → CtRes)
      (fun _ => True) :=
  fun ordered => absurd (ordered.refl (doubleConstant .nan) trivial) (by decide)

end Sac2c.TypeOrder
