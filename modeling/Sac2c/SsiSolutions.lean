import Sac2c.SsiBounds

/-!
What the minima of the constraint store of typecheck/ssi.c solve: after calls of
SSInewTypeRel that all return TRUE each minimum is the least upper bound of the
types that have been asserted below the variable, in whatever order.
-/

namespace Sac2c.SsiSolutions

open NewTypes TypeOrder LubOfTypes Closures SsiStore SsiRelation SsiBounds

section Bounds
variable {Val : Type}

/-- A type asserted below `v` or below a variable below `v`. -/
def LowerBound (calls : List (Constraint Val)) (s : Store Val) (v : Nat) (t : NType Val) : Prop :=
  ∃ u, { small := .type t, big := .alpha u } ∈ calls ∧ (u = v ∨ Above s u v)

theorem lower_bound_congr {calls : List (Constraint Val)} {s next : Store Val}
    (same : ∀ x y, Above next x y ↔ Above s x y) (v : Nat) (t : NType Val) :
    LowerBound calls s v t ↔ LowerBound calls next v t := by
  simp only [LowerBound, same]

theorem lower_bound_append {calls : List (Constraint Val)} {c : Constraint Val} {s : Store Val}
    (other : ∀ t u, c ≠ { small := .type t, big := .alpha u }) (v : Nat) (t : NType Val) :
    LowerBound (calls ++ [c]) s v t ↔ LowerBound calls s v t := by
  simp only [LowerBound, List.mem_append, List.mem_singleton, (other t _).symm, or_false]

theorem lower_bound_new {calls : List (Constraint Val)} {s : Store Val} {type : NType Val}
    {var : Nat} (v : Nat) (t : NType Val) :
    LowerBound (calls ++ [{ small := .type type, big := .alpha var }]) s v t ↔
      LowerBound calls s v t ∨ ((v = var ∨ Above s var v) ∧ t = type) := by
  simp only [LowerBound, List.mem_append, List.mem_singleton, Constraint.mk.injEq,
    Side.type.injEq, Side.alpha.injEq]
  constructor
  · rintro ⟨u, member | ⟨rfl, rfl⟩, reach⟩
    · exact Or.inl ⟨u, member, reach⟩
    · exact Or.inr ⟨reach.imp_left Eq.symm, rfl⟩
  · rintro (⟨u, member, reach⟩ | ⟨reach, rfl⟩)
    · exact ⟨u, Or.inl member, reach⟩
    · exact ⟨var, Or.inr ⟨rfl, rfl⟩, reach.imp_left Eq.symm⟩

/-- A new relation passes the lower bounds of `small` on to `big` and above. -/
theorem lower_bound_extend {calls : List (Constraint Val)} {s next : Store Val} {small big : Nat}
    (above : ∀ x y, Above next x y ↔ Extend (Above s) small big x y) (v : Nat) (t : NType Val) :
    LowerBound calls next v t ↔ LowerBound calls s v t ∨
      ((v = big ∨ Above s big v) ∧ LowerBound calls s small t) := by
  simp only [LowerBound, above, Extend]
  constructor
  · rintro ⟨u, member, rfl | old | ⟨below, reach⟩⟩
    · exact Or.inl ⟨u, member, Or.inl rfl⟩
    · exact Or.inl ⟨u, member, Or.inr old⟩
    · exact Or.inr ⟨reach, u, member, below⟩
  · rintro (⟨u, member, old⟩ | ⟨reach, u, member, below⟩)
    · exact ⟨u, member, old.imp_right Or.inl⟩
    · exact ⟨u, member, Or.inr (Or.inr ⟨below, reach⟩)⟩

end Bounds

section Runs
variable {Val : Type} [BEq Val]

/-- A type that becomes the first minimum of a variable is equal to itself. -/
def FirstDefinite (s : Store Val) (c : Constraint Val) : Prop :=
  ∀ t v, c = { small := .type t, big := .alpha v } → (s v).min = none → Definite t

theorem capped_consistent {users : UserTypes} {cmax : NType Val} {visited : Nat → Prop}
    {s next : Store Val} (capped : Capped users cmax visited s next)
    (consistent : Consistent users s) : Consistent users next := by
  intro v min max least greatest
  rw [capped.mins] at least
  by_cases changed : (next v).max = (s v).max
  · rw [changed] at greatest
    exact consistent v min max least greatest
  · have legal := capped.legal v min changed least
    by_cases seen : visited v
    · have becomes := capped.capped v seen
      rw [greatest] at becomes changed
      cases stored : (s v).max with
      | none =>
          rw [stored] at becomes
          obtain rfl := Option.some.inj becomes
          exact legal
      | some old =>
          rw [stored, capMax] at becomes
          split at becomes
          · obtain rfl := Option.some.inj becomes
            exact legal
          · rw [stored, becomes] at changed
            exact absurd rfl changed
    · exact absurd (capped.kept v seen) changed

/-- SSInewMax leaves the minima and the lists as they are. -/
theorem new_max_minima [PartialEquivBEq Val] {users : UserTypes} {var : Nat}
    {cmax : Option (NType Val)} {s next : Store Val} (consistent : Consistent users s)
    (returned : newMax users var cmax s = (true, next)) :
    (∀ v, (next v).min = (s v).min) ∧ SameLists s next ∧ Consistent users next := by
  have lists := new_max_lists users var cmax s
  rw [returned] at lists
  cases cmax with
  | none =>
      obtain rfl : s = next := (Prod.mk.inj returned).2
      exact ⟨fun _ => rfl, lists, consistent⟩
  | some cmax =>
      have capped := new_max_capped returned
      exact ⟨capped.mins, lists, capped_consistent capped consistent⟩

omit [BEq Val] in
/-- What is asserted below `big` is asserted below all that the new pair puts above it. -/
theorem lower_bound_reach {small big v : Nat} {calls : List (Constraint Val)} {s : Store Val}
    (closed : Closed s) (extended : Extend (Above s) small big big v) {t : NType Val}
    (bound : LowerBound calls s big t) : LowerBound calls s v t := by
  obtain ⟨u, asserted, below⟩ := bound
  have reach : v = big ∨ Above s big v := by
    rcases extended with old | ⟨_, reach⟩
    · exact Or.inr old
    · exact reach
  refine ⟨u, asserted, ?_⟩
  rcases reach with rfl | reach
  · exact below
  · rcases below with rfl | below
    · exact Or.inr reach
    · exact Or.inr (closed.trans _ _ _ below reach)

/-- SSInewRel passes the minimum of `small` on, when the lists are extended. -/
theorem pass_bounds_tight [PartialEquivBEq Val] {users : UserTypes} {small big : Nat}
    {calls : List (Constraint Val)} {s related next : Store Val} (closed : Closed s)
    (tight : AllTight users (LowerBound calls s) s) (consistent : Consistent users s)
    (bounds : SameBounds s related)
    (above : ∀ x y, Above related x y ↔ Extend (Above s) small big x y)
    (returned : passBounds users small big related = (true, next)) :
    AllTight users (LowerBound calls next) next ∧ Consistent users next := by
  have tightRelated : AllTight users (LowerBound calls s) related := by
    intro v
    rw [(bounds v).2]
    exact tight v
  have consistentRelated : Consistent users related := by
    intro v min max least greatest
    rw [(bounds v).2] at least
    rw [(bounds v).1] at greatest
    exact consistent v min max least greatest
  have lists := pass_bounds_lists users small big related
  rw [returned] at lists
  have aboveNext : ∀ x y, Above next x y ↔ Extend (Above s) small big x y := by
    intro x y
    rw [← above, Above, Above, (lists x).1]
  unfold passBounds at returned
  split at returned
  · next middle result =>
      obtain ⟨mins, listsMiddle, consistentMiddle⟩ := new_max_minima consistentRelated result
      have tightMiddle : AllTight users (LowerBound calls s) middle := by
        intro v
        rw [mins]
        exact tightRelated v
      cases least : (middle small).min with
      | none =>
          -- `small` has no lower bounds to pass on
          rw [least] at returned
          obtain rfl : middle = next := (Prod.mk.inj returned).2
          have none := tightMiddle small
          rw [least] at none
          refine ⟨all_tight_congr (fun v t => ?_) tightMiddle, consistentMiddle⟩
          rw [lower_bound_extend aboveNext]
          simp [none t]
      | some min =>
          rw [least] at returned
          have bound := tightMiddle small
          rw [least] at bound
          have grows : ∀ v ∈ (middle big).big, ∀ t, LowerBound calls s big t →
              LowerBound calls s v t := by
            intro v member t
            rw [(listsMiddle big).1] at member
            exact lower_bound_reach closed ((above big v).mp member)
          obtain ⟨_, consistentNext, tightNext⟩ :=
            new_min_tight tightMiddle consistentMiddle grows bound.1 (stands_for_of_joins bound.2)
              (fun _ => joins_definite bound.2) returned
          refine ⟨all_tight_congr (fun v t => ?_) tightNext, consistentNext⟩
          rw [lower_bound_extend aboveNext, (listsMiddle big).1]
          have reach : (v = big ∨ v ∈ (related big).big) ↔ (v = big ∨ Above s big v) := by
            rw [show (v ∈ (related big).big) = Above related big v from rfl, above, Extend]
            tauto
          rw [reach]
  · cases returned

/-- One call of SSInewTypeRel that returns TRUE. -/
theorem new_type_rel_tight [PartialEquivBEq Val] {users : UserTypes} {c : Constraint Val}
    {calls : List (Constraint Val)} {s next : Store Val} (closed : Closed s)
    (tight : AllTight users (LowerBound calls s) s) (consistent : Consistent users s)
    (first : FirstDefinite s c) (called : newTypeRel users c s = some (true, next)) :
    AllTight users (LowerBound (calls ++ [c]) next) next ∧ Consistent users next := by
  cases effect_of_call closed called with
  | known above =>
      exact ⟨all_tight_congr (fun v t => (lower_bound_append (by simp) v t).symm) tight, consistent⟩
  | relation fresh closedRelated bounds above passed =>
      obtain ⟨tightNext, consistentNext⟩ :=
        pass_bounds_tight closed tight consistent bounds above passed
      exact ⟨all_tight_congr (fun v t => (lower_bound_append (by simp) v t).symm) tightNext,
        consistentNext⟩
  | upper bounded =>
      obtain ⟨mins, lists, consistentNext⟩ := new_max_minima consistent bounded
      refine ⟨fun v => ?_, consistentNext⟩
      rw [mins]
      refine tight_congr (fun t => ?_) (tight v)
      rw [lower_bound_append (by simp)]
      exact lower_bound_congr (fun x y => by rw [Above, Above, (lists x).1]) v t
  | @lower var type _ _ bounded =>
      have lists := new_min_lists users var (some type) s
      rw [bounded] at lists
      -- a lower bound of `var` is already one of every variable above it
      have grows : ∀ v ∈ (s var).big, ∀ t, LowerBound calls s var t → LowerBound calls s v t := by
        rintro v member t ⟨u, asserted, rfl | below⟩
        · exact ⟨u, asserted, Or.inr member⟩
        · exact ⟨u, asserted, Or.inr (closed.trans _ _ _ below member)⟩
      obtain ⟨_, consistentNext, tightNext⟩ :=
        new_min_tight tight consistent grows (⟨type, rfl⟩ : ∃ t, t = type)
          (stands_for_single users type) (first type var rfl) bounded
      refine ⟨all_tight_congr (fun v t => ?_) tightNext, consistentNext⟩
      have same : ∀ x y, Above next x y ↔ Above s x y := fun x y => by
        rw [Above, Above, (lists x).1]
      rw [← lower_bound_congr same, lower_bound_new]
      rfl
  | types compared =>
      exact ⟨all_tight_congr (fun v t => (lower_bound_append (by simp) v t).symm) tight, consistent⟩

/-- All calls of a run return TRUE, and no NaN becomes a minimum. -/
theorem run_tight [PartialEquivBEq Val] {users : UserTypes}
    {Allowed : Store Val → Constraint Val → Bool → Prop}
    (sound : ∀ s c res, Allowed s c res → res = true ∧ FirstDefinite s c)
    {calls : List (Constraint Val)} {s : Store Val} (run : Run users Allowed calls s) :
    AllTight users (LowerBound calls s) s ∧ Consistent users s := by
  induction run with
  | start =>
      constructor
      · rintro v t ⟨u, member, _⟩
        exact absurd member List.not_mem_nil
      · intro v min max least
        exact absurd least (by simp [freshStore, makeVariable])
  | @step calls s next c res before called allowed ih =>
      obtain ⟨rfl, first⟩ := sound s c res allowed
      exact new_type_rel_tight (run_closed users before).1 ih.1 ih.2 first called

end Runs

section LeastSolution
variable {Val : Type} [BEq Val]

/-- TYlubOfTypes of all types of a list. -/
def lubOfAll (users : UserTypes) : List (NType Val) → Option (NType Val)
  | [] => none
  | first :: rest => rest.foldlM (lubOfTypes users) first

/-- Types below one type are not disjoint. -/
theorem joinable_of_le [PartialEquivBEq Val] {users : UserTypes} {t1 t2 w : NType Val}
    (below1 : leNtypes users t1 w = true) (below2 : leNtypes users t2 w = true) :
    cmpNtypes users t1 t2 ≠ .dis := by
  rw [Ne, cmp_ntypes_dis_iff]
  rintro ⟨a1, a2, rfl, rfl, differs⟩
  cases w with
  | bottom msg =>
      obtain ⟨other, same⟩ := (le_bottom_iff users _ msg).mp below1
      cases same
  | array aw =>
      rw [le_ntypes_array, le_types_iff] at below1 below2
      have other := below2.1
      rw [eq_scalar_symm] at other
      rw [eq_scalar_trans users below1.1 other] at differs
      cases differs

theorem foldl_joins [PartialEquivBEq Val] {users : UserTypes} {w : NType Val}
    (rest : List (NType Val)) {bounds : NType Val → Prop} {acc : NType Val}
    (joins : Joins users bounds acc) (below : leNtypes users acc w = true)
    (known : ∀ t ∈ rest, Definite t) (bounded : ∀ t ∈ rest, leNtypes users t w = true) :
    ∃ u, rest.foldlM (lubOfTypes users) acc = some u ∧
      Joins users (fun t => bounds t ∨ t ∈ rest) u := by
  induction rest generalizing bounds acc with
  | nil => exact ⟨acc, rfl, joins_congr (by simp) joins⟩
  | cons head rest ih =>
      simp only [List.mem_cons, forall_eq_or_imp] at known bounded
      obtain ⟨next, computed, both⟩ := lub_spec users acc head (joinable_of_le below bounded.1)
      have belowNext : leNtypes users next w = true := by
        apply both.least
        rintro t (rfl | rfl)
        · exact below
        · exact bounded.1
      have joinsNext := joins_union joins (joins_single users known.1) both
      obtain ⟨u, folded, all⟩ := ih joinsNext belowNext known.2 bounded.2
      refine ⟨u, ?_, joins_congr (fun t => ?_) all⟩
      · rw [List.foldlM_cons, computed]
        exact folded
      · rw [or_assoc, List.mem_cons]

/-- TYlubOfTypes over a list of types that have a common super type. -/
theorem lub_of_all_joins [PartialEquivBEq Val] {users : UserTypes} {w : NType Val}
    {list : List (NType Val)} (some : list ≠ []) (known : ∀ t ∈ list, Definite t)
    (bounded : ∀ t ∈ list, leNtypes users t w = true) :
    ∃ u, lubOfAll users list = Option.some u ∧ Joins users (fun t => t ∈ list) u := by
  cases list with
  | nil => exact absurd rfl some
  | cons first rest =>
      simp only [List.mem_cons, forall_eq_or_imp] at known bounded
      obtain ⟨u, folded, joins⟩ :=
        foldl_joins rest (joins_single users known.1) bounded.1 known.2 bounded.2
      exact ⟨u, folded, joins_congr (fun t => List.mem_cons.symm) joins⟩

/-- A call returns TRUE, and the types asserted below variables are equal to
themselves. -/
def Solving (_ : Store Val) (c : Constraint Val) (res : Bool) : Prop :=
  res = true ∧ ∀ t v, c = { small := .type t, big := .alpha v } → Definite t

theorem run_definite {users : UserTypes} {calls : List (Constraint Val)} {s : Store Val}
    (run : Run users Solving calls s) {t : NType Val} {v : Nat}
    (member : { small := .type t, big := .alpha v } ∈ calls) : Definite t := by
  induction run with
  | start => exact absurd member List.not_mem_nil
  | step _ _ allowed ih =>
      rcases List.mem_append.mp member with early | last
      · exact ih early
      · exact allowed.2 t v (List.mem_singleton.mp last).symm

/-- The minimum of a variable after one run. -/
theorem run_minimum [PartialEquivBEq Val] {users : UserTypes} {calls : List (Constraint Val)}
    {s : Store Val} (run : Run users Solving calls s) (v : Nat) {list : List (NType Val)}
    (lists : ∀ t, t ∈ list ↔ ∃ u, { small := .type t, big := .alpha u } ∈ calls ∧
      (u = v ∨ Relation.TransGen (Asserted calls) u v)) :
    (list = [] ∧ (s v).min = none) ∨
    ∃ u min, lubOfAll users list = some u ∧ (s v).min = some min ∧
      eqNtypes users min u = true := by
  have tight := (run_tight (fun s c res allowed =>
    ⟨allowed.1, fun t v same _ => allowed.2 t v same⟩) run).1 v
  have members : ∀ t, LowerBound calls s v t ↔ t ∈ list := by
    intro t
    rw [lists]
    simp only [LowerBound, (run_closed users run).2]
  replace tight := tight_congr members tight
  cases least : (s v).min with
  | none =>
      rw [least] at tight
      exact Or.inl ⟨List.eq_nil_iff_forall_not_mem.mpr tight, rfl⟩
  | some min =>
      rw [least] at tight
      obtain ⟨⟨t, member⟩, joins⟩ := tight
      have known : ∀ t ∈ list, Definite t := by
        intro t inList
        obtain ⟨u, asserted, _⟩ := (lists t).mp inList
        exact run_definite run asserted
      obtain ⟨u, computed, joinsAll⟩ :=
        lub_of_all_joins (List.ne_nil_of_mem member) known joins.above
      exact Or.inr ⟨u, min, computed, rfl, joins_unique joins joinsAll⟩

/-- Two runs of the same constraints in any order end with the same minima: there
is none for a variable without lower bounds, and otherwise it is the least upper
bound of all of them. -/
theorem least_solution [PartialEquivBEq Val] (users : UserTypes)
    {calls1 calls2 : List (Constraint Val)} (reordered : calls1.Perm calls2) {s1 s2 : Store Val}
    (run1 : Run users Solving calls1 s1) (run2 : Run users Solving calls2 s2) (v : Nat)
    (list : List (NType Val))
    (lists : ∀ t, t ∈ list ↔ ∃ u, { small := .type t, big := .alpha u } ∈ calls1 ∧
      (u = v ∨ Relation.TransGen (Asserted calls1) u v)) :
    (list = [] ∧ (s1 v).min = none ∧ (s2 v).min = none) ∨
    ∃ u min1 min2, lubOfAll users list = some u ∧ (s1 v).min = some min1 ∧
      (s2 v).min = some min2 ∧ eqNtypes users min1 u = true ∧ eqNtypes users min2 u = true ∧
      eqNtypes users min1 min2 = true := by
  have asserted : Asserted calls2 = Asserted calls1 :=
    funext fun x => funext fun y => propext reordered.symm.mem_iff
  have lists2 : ∀ t, t ∈ list ↔ ∃ u, { small := .type t, big := .alpha u } ∈ calls2 ∧
      (u = v ∨ Relation.TransGen (Asserted calls2) u v) := by
    intro t
    rw [lists, asserted]
    simp only [reordered.mem_iff]
  rcases run_minimum run1 v lists with ⟨empty, none1⟩ | ⟨u1, min1, computed1, least1, same1⟩
  · rcases run_minimum run2 v lists2 with ⟨_, none2⟩ | ⟨u2, _, computed2, _⟩
    · exact Or.inl ⟨empty, none1, none2⟩
    · rw [empty] at computed2
      cases computed2
  · rcases run_minimum run2 v lists2 with ⟨empty, _⟩ | ⟨u2, min2, computed2, least2, same2⟩
    · rw [empty] at computed1
      cases computed1
    · obtain rfl : u1 = u2 := Option.some.inj (computed1.symm.trans computed2)
      refine Or.inr ⟨u1, min1, min2, computed1, least1, least2, same1, same2, ?_⟩
      -- both minima are equal to the same least upper bound
      have first := le_of_eq_ntypes same1
      have second := le_of_eq_ntypes same2
      exact eq_ntypes_of_le (le_ntypes_trans users first.1 second.2)
        (le_ntypes_trans users second.1 first.2)

end LeastSolution

/-- The type of integer vectors of a given length. -/
def vectorType (length : Nat) : NType Int := .array (.aks intScalar [length])

/-- A lower bound asserted before and after the relation that passes it on. -/
theorem least_solution_of_two_orders :
    ∃ s1 s2 : Store Int, ∃ u min1 min2, lubOfAll noAliases [vectorType 2] = some u ∧
      (s1 1).min = some min1 ∧ (s2 1).min = some min2 ∧ eqNtypes noAliases min1 u = true ∧
      eqNtypes noAliases min2 u = true ∧ eqNtypes noAliases min1 min2 = true := by
  let bound : Constraint Int := { small := .type (vectorType 2), big := .alpha 0 }
  have solves : ∀ (s : Store Int) (c : Constraint Int), Solving s c true :=
    fun _ _ => ⟨rfl, fun t _ _ => definite_of_refl t⟩
  obtain ⟨s1, run1⟩ : ∃ s1, Run noAliases Solving [bound, newRelCall 0 1] s1 :=
    ⟨_, .step (.step .start rfl (solves _ _)) rfl (solves _ _)⟩
  obtain ⟨s2, run2⟩ : ∃ s2, Run noAliases Solving [newRelCall 0 1, bound] s2 :=
    ⟨_, .step (.step .start rfl (solves _ _)) rfl (solves _ _)⟩
  rcases least_solution noAliases (List.Perm.swap _ _ _) run1 run2 1 [vectorType 2] (fun t => by
    simp only [List.mem_cons, List.not_mem_nil, or_false]
    constructor
    · rintro rfl
      exact ⟨0, Or.inl rfl, Or.inr (.single (by simp [Asserted, newRelCall]))⟩
    · rintro ⟨u, same | same, _⟩
      · simpa [bound] using (congrArg Constraint.small same)
      · simp [newRelCall] at same) with ⟨empty, _⟩ | solution
  · cases empty
  · exact ⟨s1, s2, solution⟩

/-- NaN asserted below a variable becomes its minimum, which is not equal to itself. -/
theorem nan_minimum_differs :
    ¬ ∀ (calls1 calls2 : List (Constraint DoubleElem)) (s1 s2 : Store DoubleElem),
      calls1.Perm calls2 → Run noAliases (fun _ _ res => res = true) calls1 s1 →
      Run noAliases (fun _ _ res => res = true) calls2 s2 →
      ∀ v min1 min2, (s1 v).min = some min1 → (s2 v).min = some min2 →
        eqNtypes noAliases min1 min2 = true := by
  intro unique
  obtain ⟨s, run, least⟩ : ∃ s, Run noAliases (fun _ _ res => res = true)
      [{ small := .type (doubleConstant .nan), big := .alpha 0 }] s ∧
      (s 0).min = some (doubleConstant .nan) := ⟨_, .step .start rfl rfl, rfl⟩
  exact absurd (unique _ _ s s (.refl _) run run 0 _ _ least least) (by decide)

section Soundness
variable {Val : Type} [BEq Val]

/-- The stored minima satisfy a constraint: an upper bound if there is a minimum,
a lower bound and a relation only if there is one where it has to be. -/
def Satisfied (users : UserTypes) (s : Store Val) (c : Constraint Val) : Prop :=
  match c.small, c.big with
  | .alpha v, .type t => ∀ min, (s v).min = some min → leNtypes users min t = true
  | .type t, .alpha v => ∃ min, (s v).min = some min ∧ leNtypes users t min = true
  | .alpha v, .alpha w => ∀ min, (s v).min = some min →
      ∃ above, (s w).min = some above ∧ leNtypes users min above = true
  | .type t1, .type t2 => leNtypes users t1 t2 = true

/-- A call returns TRUE, no NaN becomes the first minimum of a variable, and no upper
bound is given that has no more than common super types with the stored one. -/
def Comparable (users : UserTypes) (s : Store Val) (c : Constraint Val) (res : Bool) : Prop :=
  res = true ∧ FirstDefinite s c ∧
    ∀ v t, c = { small := .alpha v, big := .type t } → ∀ max, (s v).max = some max →
      cmpNtypes users t max ≠ .hcs

/-- An upper bound that holds of everything below the stored maximum. -/
def Bounded (users : UserTypes) (s : Store Val) (v : Nat) (t : NType Val) : Prop :=
  ∃ max, (s v).max = some max ∧ ∀ low, leNtypes users low max = true → leNtypes users low t = true

theorem le_of_lt (users : UserTypes) {t1 t2 : NType Val} (below : cmpNtypes users t1 t2 = .lt) :
    leNtypes users t1 t2 = true := by simp [leNtypes, below, isLe]

theorem cap_max_below [PartialEquivBEq Val] (users : UserTypes) (cmax max : NType Val) :
    ∃ new, capMax users cmax (some max) = some new ∧
      ∀ low, leNtypes users low new = true → leNtypes users low max = true := by
  by_cases below : cmpNtypes users cmax max = .lt
  · exact ⟨cmax, by rw [capMax, if_pos below], fun low lower =>
      le_ntypes_trans users lower (le_of_lt users below)⟩
  · exact ⟨max, by rw [capMax, if_neg below], fun low lower => lower⟩

theorem capped_bounded [PartialEquivBEq Val] {users : UserTypes} {cmax : NType Val}
    {visited : Nat → Prop} {s next : Store Val} (capped : Capped users cmax visited s next)
    {v : Nat} {t : NType Val} (bounded : Bounded users s v t) : Bounded users next v t := by
  obtain ⟨max, stored, below⟩ := bounded
  by_cases seen : visited v
  · obtain ⟨new, caps, lower⟩ := cap_max_below users cmax max
    refine ⟨new, ?_, fun low under => below low (lower low under)⟩
    rw [capped.capped v seen, stored, caps]
  · exact ⟨max, (capped.kept v seen).trans stored, below⟩

theorem bounded_of_same_max {users : UserTypes} {s next : Store Val} {v : Nat} {t : NType Val}
    (same : (next v).max = (s v).max) (bounded : Bounded users s v t) : Bounded users next v t := by
  obtain ⟨max, stored, below⟩ := bounded
  exact ⟨max, same.trans stored, below⟩

/-- A call keeps the upper bounds that hold. -/
theorem new_type_rel_bounded [PartialEquivBEq Val] {users : UserTypes} {c : Constraint Val}
    {s next : Store Val} (closed : Closed s) (called : newTypeRel users c s = some (true, next))
    {v : Nat} {t : NType Val} (bounded : Bounded users s v t) : Bounded users next v t := by
  cases effect_of_call closed called with
  | known above => exact bounded
  | @relation small big related _ _ fresh closedRelated bounds above passed =>
      have boundedRelated := bounded_of_same_max (bounds v).1 bounded
      unfold passBounds at passed
      split at passed
      · next middle capped =>
          have frame := new_min_frame users big (middle small).min middle
          rw [passed] at frame
          refine bounded_of_same_max (frame.2 v) ?_
          cases greatest : (related big).max with
          | none =>
              rw [greatest] at capped
              obtain rfl : related = middle := (Prod.mk.inj capped).2
              exact boundedRelated
          | some max =>
              rw [greatest] at capped
              exact capped_bounded (new_max_capped capped) boundedRelated
      · cases passed
  | upper newBound => exact capped_bounded (new_max_capped newBound) bounded
  | @lower var type _ _ newBound =>
      have frame := new_min_frame users var (some type) s
      rw [newBound] at frame
      exact bounded_of_same_max (frame.2 v) bounded
  | types compared => exact bounded

/-- An upper bound that is related to the stored one holds after the call. -/
theorem new_max_bounded [PartialEquivBEq Val] {users : UserTypes} {var : Nat} {cmax : NType Val}
    {s next : Store Val} (related : ∀ max, (s var).max = some max → cmpNtypes users cmax max ≠ .hcs)
    (returned : newMax users var (some cmax) s = (true, next)) : Bounded users next var cmax := by
  have capped := new_max_capped returned
  have becomes := capped.capped var (Or.inl rfl)
  cases stored : (s var).max with
  | none =>
      rw [stored] at becomes
      exact ⟨cmax, becomes, fun low lower => lower⟩
  | some max =>
      rw [stored] at becomes
      have flipped := cmp_ntypes_flip users cmax max
      cases result : cmpNtypes users cmax max with
      | lt =>
          rw [capMax, if_pos result] at becomes
          exact ⟨cmax, becomes, fun low lower => lower⟩
      | dis => exact absurd result (capped.joined var max (Or.inl rfl) stored)
      | hcs => exact absurd result (related max stored)
      | eq | gt =>
          -- the stored maximum stays, and it is below the new bound
          rw [capMax, if_neg (by rw [result]; decide)] at becomes
          have above : leNtypes users max cmax = true := by
            rw [leNtypes, flipped, result]
            rfl
          exact ⟨max, becomes, fun low lower => le_ntypes_trans users lower above⟩

theorem run_bounded [PartialEquivBEq Val] {users : UserTypes} {calls : List (Constraint Val)}
    {s : Store Val} (run : Run users (Comparable users) calls s) {v : Nat} {t : NType Val}
    (member : { small := .alpha v, big := .type t } ∈ calls) : Bounded users s v t := by
  induction run with
  | start => exact absurd member List.not_mem_nil
  | @step calls s next c res before called allowed ih =>
      obtain ⟨rfl, _, related⟩ := allowed
      rcases List.mem_append.mp member with early | last
      · exact new_type_rel_bounded (run_closed users before).1 called (ih early)
      · obtain rfl := List.mem_singleton.mp last
        have returned : newMax users v (some t) s = (true, next) := Option.some.inj called
        exact new_max_bounded (related v t rfl) returned

theorem run_types_below {users : UserTypes} {calls : List (Constraint Val)} {s : Store Val}
    (run : Run users (Comparable users) calls s) {t1 t2 : NType Val}
    (member : { small := .type t1, big := .type t2 } ∈ calls) : leNtypes users t1 t2 = true := by
  induction run with
  | start => exact absurd member List.not_mem_nil
  | @step calls s next c res before called allowed ih =>
      obtain ⟨rfl, _, _⟩ := allowed
      rcases List.mem_append.mp member with early | last
      · exact ih early
      · obtain rfl := List.mem_singleton.mp last
        exact (Prod.mk.inj (Option.some.inj called)).1

/-- A tight minimum is below the minima of the variables above. -/
theorem tight_propagated {users : UserTypes} {calls : List (Constraint Val)} {s : Store Val}
    (closed : Closed s) (tight : AllTight users (LowerBound calls s) s) {v w : Nat}
    (above : Above s v w) {min : NType Val} (least : (s v).min = some min) :
    ∃ other, (s w).min = some other ∧ leNtypes users min other = true := by
  have tightV := tight v
  rw [least] at tightV
  obtain ⟨⟨t, u, asserted, reach⟩, joins⟩ := tightV
  have passes : ∀ t, LowerBound calls s v t → LowerBound calls s w t := by
    rintro t ⟨u, asserted, rfl | reach⟩
    · exact ⟨u, asserted, Or.inr above⟩
    · exact ⟨u, asserted, Or.inr (closed.trans _ _ _ reach above)⟩
  have tightW := tight w
  cases greater : (s w).min with
  | none =>
      rw [greater] at tightW
      exact absurd (passes t ⟨u, asserted, reach⟩) (tightW t)
  | some other =>
      rw [greater] at tightW
      exact ⟨other, rfl, joins.least other fun t bound => tightW.2.above t (passes t bound)⟩

/-- The minima satisfy all constraints asserted so far if every call has returned
TRUE and each upper bound was related to the stored one. -/
theorem minima_satisfy_constraints [PartialEquivBEq Val] (users : UserTypes)
    {calls : List (Constraint Val)} {s : Store Val} (run : Run users (Comparable users) calls s) :
    ∀ c ∈ calls, Satisfied users s c := by
  obtain ⟨tight, consistent⟩ := run_tight (fun s c res allowed => ⟨allowed.1, allowed.2.1⟩) run
  rintro ⟨small, big⟩ member
  cases small with
  | alpha v =>
      cases big with
      | type t =>
          intro min least
          -- the minimum is below the stored maximum, and that below the asserted bound
          obtain ⟨max, stored, below⟩ := run_bounded run member
          exact below min (consistent v min max least stored)
      | alpha w =>
          intro min least
          have above : Above s v w := ((run_closed users run).2 v w).mpr (.single member)
          exact tight_propagated (run_closed users run).1 tight above least
  | type t =>
      cases big with
      | alpha v =>
          have bound : LowerBound calls s v t := ⟨v, member, Or.inl rfl⟩
          have tightV := tight v
          cases least : (s v).min with
          | none =>
              rw [least] at tightV
              exact absurd bound (tightV t)
          | some min =>
              rw [least] at tightV
              exact ⟨min, least, tightV.2.above t bound⟩
      | type t2 => exact run_types_below run member

end Soundness

/-- SSInewTypeRel with a vector type above a variable. -/
def atMost (v length : Nat) : Constraint Int :=
  { small := .alpha v, big := .type (vectorType length) }

/-- SSInewTypeRel with a vector type below a variable. -/
def atLeast (v length : Nat) : Constraint Int :=
  { small := .type (vectorType length), big := .alpha v }

/-- An upper bound, a lower bound and a relation that passes it on. -/
theorem minima_satisfy_three_constraints :
    ∃ s : Store Int, ∀ c ∈ [atMost 1 2, atLeast 0 2, newRelCall 0 1], Satisfied noAliases s c := by
  have first : ∀ (s : Store Int) (c : Constraint Int), FirstDefinite s c :=
    fun _ _ t _ _ _ => definite_of_refl t
  obtain ⟨s, run⟩ : ∃ s, Run noAliases (Comparable noAliases)
      [atMost 1 2, atLeast 0 2, newRelCall 0 1] s := by
    refine ⟨_, .step (.step (.step .start rfl ⟨rfl, first _ _, fun v t _ max stored => ?_⟩) rfl
      ⟨rfl, first _ _, fun v t same => ?_⟩) rfl ⟨rfl, first _ _, fun v t same => ?_⟩⟩
    · cases same
    · cases stored
    · cases same
  exact ⟨s, minima_satisfy_constraints noAliases run⟩

/-- An upper bound that is neither below nor above the stored one is forgotten. -/
theorem forgotten_upper_bound :
    ¬ ∀ (calls : List (Constraint Int)) (s : Store Int),
      Run noAliases (fun _ _ res => res = true) calls s → ∀ c ∈ calls, Satisfied noAliases s c := by
  intro sound
  obtain ⟨s, run, least⟩ : ∃ s : Store Int, Run noAliases (fun _ _ res => res = true)
      [atMost 0 2, atMost 0 3, atLeast 0 2] s ∧ (s 0).min = some (vectorType 2) :=
    ⟨_, .step (.step (.step .start rfl rfl) rfl rfl) rfl rfl, rfl⟩
  have satisfied : Satisfied noAliases s (atMost 0 3) := sound _ s run _ (by simp)
  exact absurd (satisfied _ least) (by decide)

end Sac2c.SsiSolutions
