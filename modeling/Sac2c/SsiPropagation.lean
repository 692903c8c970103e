import Sac2c.SsiSolutions

/-!
Whether the maxima of the constraint store of typecheck/ssi.c are below those of
the variables above. NewMax tells the variables below only of a maximum that has
become smaller, not of the first one, and leaves out those whose maxima have no
more than common super types with it.
-/

namespace Sac2c.SsiPropagation

open NewTypes TypeOrder LubOfTypes Closures SsiStore SsiRelation SsiBounds SsiSolutions

section Maxima
variable {Val : Type} [BEq Val]

/-- The variable has a maximum below `t`. -/
def Under (users : UserTypes) (t : NType Val) (s : Store Val) (v : Nat) : Prop :=
  ∃ max, (s v).max = some max ∧ leNtypes users max t = true

/-- Maxima are passed down. -/
def MaxPropagated (users : UserTypes) (s : Store Val) : Prop :=
  ∀ a b, Above s a b → ∀ max, (s b).max = some max → Under users max s a

/-- If `t` becomes the maximum of `v`, it bounds everything below `v` as well: the
first maximum of `v` if they have smaller ones already, a smaller one than before
if they can be compared with it. -/
def Reaches (users : UserTypes) (s : Store Val) (v : Nat) (t : NType Val) : Prop :=
  match (s v).max with
  | none => ∀ a ∈ (s v).small, (a = v ∧ Definite t) ∨ Under users t s a
  | some max => cmpNtypes users t max = .lt → ∀ a ∈ (s v).small, ∀ old, (s a).max = some old →
      leNtypes users old t = true ∨ (cmpNtypes users t old = .lt ∧ Definite t)

theorem not_lt_of_le [PartialEquivBEq Val] {users : UserTypes} {t1 t2 : NType Val}
    (below : leNtypes users t1 t2 = true) : cmpNtypes users t2 t1 ≠ .lt := by
  intro less
  rw [leNtypes, cmp_ntypes_flip users t2 t1, less] at below
  cases below

theorem not_lowers_of_none {users : UserTypes} {t : NType Val} {v : Nat} {s : Store Val}
    (first : (s v).max = none) : ¬ Lowers users t v s := by
  rintro ⟨max, stored, _⟩
  rw [first] at stored
  cases stored

/-- What a new maximum of `v` bounds, when the store is otherwise propagated. -/
theorem reaches_under [PartialEquivBEq Val] {users : UserTypes} {v a : Nat} {t : NType Val}
    {s next : Store Val}
    (capped : Capped users t (fun w => w = v ∨ (Lowers users t v s ∧ w ∈ (s v).small)) s next)
    (reaches : Reaches users s v t) (changes : (s v).max = none ∨ Lowers users t v s)
    (below : a ∈ (s v).small)
    (known : ∀ max, (s v).max = some max → Under users max s a ∨ Under users t next a) :
    Under users t next a := by
  unfold Reaches at reaches
  rcases changes with first | ⟨max, stored, less⟩
  · rw [first] at reaches
    rcases reaches a below with ⟨rfl, definite⟩ | ⟨old, oldMax, bounded⟩
    · refine ⟨t, ?_, (le_ntypes_self_iff users t).mpr definite⟩
      rw [capped.capped a (Or.inl rfl), first]
      rfl
    · refine ⟨old, ?_, bounded⟩
      rw [capped.kept a, oldMax]
      rintro (rfl | ⟨lowers, _⟩)
      · rw [first] at oldMax
        cases oldMax
      · exact not_lowers_of_none first lowers
  · rw [stored] at reaches
    rcases known max stored with ⟨old, oldMax, _⟩ | done
    · have becomes := capped.capped a (Or.inr ⟨⟨max, stored, less⟩, below⟩)
      rw [oldMax] at becomes
      rcases reaches less a below old oldMax with bounded | ⟨lower, definite⟩
      · rw [capMax, if_neg (not_lt_of_le bounded)] at becomes
        exact ⟨old, becomes, bounded⟩
      · rw [capMax, if_pos lower] at becomes
        exact ⟨t, becomes, (le_ntypes_self_iff users t).mpr definite⟩
    · exact done

/-- Maxima become smaller only. -/
theorem under_capped [PartialEquivBEq Val] {users : UserTypes} {t w : NType Val}
    {visited : Nat → Prop} {s next : Store Val} (capped : Capped users t visited s next) {v : Nat}
    (under : Under users w s v) : Under users w next v := by
  obtain ⟨old, stored, below⟩ := under
  by_cases seen : visited v
  · have becomes := capped.capped v seen
    rw [stored, capMax] at becomes
    split at becomes
    · next less => exact ⟨t, becomes, le_ntypes_trans users (le_of_lt users less) below⟩
    · exact ⟨old, becomes, below⟩
  · exact ⟨old, (capped.kept v seen).trans stored, below⟩

/-- NewMax keeps the maxima propagated, also if they are still to be propagated
between some variables: from `small` and below to where the new maximum is smaller. -/
theorem new_max_propagated [PartialEquivBEq Val] {users : UserTypes} {v : Nat} {t : NType Val}
    {s next : Store Val} (closed : Closed s)
    (capped : Capped users t (fun w => w = v ∨ (Lowers users t v s ∧ w ∈ (s v).small)) s next)
    (lists : SameLists s next) (reaches : Reaches users s v t)
    (known : ∀ a b, Above s a b → ∀ max, (s b).max = some max →
      Under users max s a ∨ (leNtypes users t max = true ∧ Under users t next a)) :
    MaxPropagated users next := by
  intro a b above new newMax
  rw [Above, (lists a).1] at above
  by_cases changed : (next b).max = (s b).max
  · rw [changed] at newMax
    rcases known a b above new newMax with under | ⟨below, max, stored, under⟩
    · exact under_capped capped under
    · exact ⟨max, stored, le_ntypes_trans users under below⟩
  · by_cases seen : b = v ∨ (Lowers users t v s ∧ b ∈ (s v).small)
    · -- `t` is the new maximum of `b`, and what is below `b` is below `v` as well
      have becomes := capped.capped b seen
      have isNew : new = t := by
        rw [becomes] at newMax changed
        cases stored : (s b).max with
        | none =>
            rw [stored] at newMax
            exact (Option.some.inj newMax).symm
        | some old =>
            rw [stored, capMax] at newMax changed
            split at newMax
            · exact (Option.some.inj newMax).symm
            · next notLess => exact absurd (if_neg notLess) changed
      rw [isNew]
      have changes : (s v).max = none ∨ Lowers users t v s := by
        rcases seen with rfl | ⟨lowers, _⟩
        · rw [becomes] at changed
          cases stored : (s b).max with
          | none => exact Or.inl rfl
          | some old =>
              rw [stored, capMax] at changed
              split at changed
              · next less => exact Or.inr ⟨old, stored, less⟩
              · exact absurd rfl changed
        · exact Or.inr lowers
      have belowV : Above s a v := by
        rcases seen with rfl | ⟨_, member⟩
        · exact above
        · exact closed.trans a b v above ((closed.linked.inverse b v).mpr member)
      refine reaches_under capped reaches changes ((closed.linked.inverse a v).mp belowV) ?_
      intro max stored
      exact (known a v belowV max stored).imp_right And.right
    · exact absurd (capped.kept b seen) changed

theorem max_propagated_of_same {users : UserTypes} {s next : Store Val} (lists : SameLists s next)
    (maxes : ∀ v, (next v).max = (s v).max) (propagated : MaxPropagated users s) :
    MaxPropagated users next := by
  intro a b above max stored
  rw [Above, (lists a).1] at above
  rw [maxes] at stored
  obtain ⟨old, oldMax, under⟩ := propagated a b above max stored
  exact ⟨old, (maxes a).trans oldMax, under⟩

/-- What a new relation asks of the maximum of `big`: it is equal to itself, it can
be compared with that of `small`, and it bounds everything below `small`. -/
def Passes (users : UserTypes) (s : Store Val) (small big : Nat) : Prop :=
  ∀ t, (s big).max = some t → Definite t ∧ Reaches users s small t ∧
    ∀ max, (s small).max = some max → cmpNtypes users t max ≠ .hcs

/-- The lists below `small` grow by at most `small` itself. -/
theorem reaches_related {users : UserTypes} {s related : Store Val} {small big : Nat}
    {t : NType Val} (closed : Closed s) (closedRelated : Closed related)
    (bounds : SameBounds s related)
    (above : ∀ x y, Above related x y ↔ Extend (Above s) small big x y) (definite : Definite t)
    (reaches : Reaches users s small t) : Reaches users related small t := by
  have smalls : ∀ a ∈ (related small).small, a = small ∨ a ∈ (s small).small := by
    intro a member
    rw [← closedRelated.linked.inverse] at member
    rcases (above a small).mp member with old | ⟨same | old, _⟩
    · exact Or.inr ((closed.linked.inverse a small).mp old)
    · exact Or.inl same
    · exact Or.inr ((closed.linked.inverse a small).mp old)
  unfold Reaches at reaches ⊢
  rw [(bounds small).1]
  cases stored : (s small).max with
  | none =>
      rw [stored] at reaches
      intro a member
      rcases smalls a member with rfl | old
      · exact Or.inl ⟨rfl, definite⟩
      · refine (reaches a old).imp_right ?_
        rintro ⟨max, oldMax, under⟩
        exact ⟨max, (bounds a).1.trans oldMax, under⟩
  | some max =>
      rw [stored] at reaches
      intro less a member old oldMax
      rw [(bounds a).1] at oldMax
      rcases smalls a member with rfl | inList
      · obtain rfl : max = old := Option.some.inj (stored.symm.trans oldMax)
        exact Or.inr ⟨less, definite⟩
      · exact reaches less a inList old oldMax

/-- The maximum of `small` and of what is below it when the maximum `t` of `big` has
been passed on. -/
theorem under_related [PartialEquivBEq Val] {users : UserTypes} {s related next : Store Val}
    {small big a : Nat} {t : NType Val} (closedRelated : Closed related)
    (propagated : MaxPropagated users s) (bounds : SameBounds s related)
    (above : ∀ x y, Above related x y ↔ Extend (Above s) small big x y)
    (capped : Capped users t
      (fun w => w = small ∨ (Lowers users t small related ∧ w ∈ (related small).small)) related next)
    (definite : Definite t) (reaches : Reaches users related small t)
    (comparable : ∀ max, (s small).max = some max → cmpNtypes users t max ≠ .hcs)
    (below : a = small ∨ Above s a small) : Under users t next a := by
  have self := (le_ntypes_self_iff users t).mpr definite
  have becomes := capped.capped small (Or.inl rfl)
  rw [(bounds small).1] at becomes
  have ofBelow : ∀ {a}, Above s a small → a ∈ (related small).small := fun {a} old =>
    (closedRelated.linked.inverse a small).mp ((above a small).mpr (Or.inl old))
  cases stored : (s small).max with
  | none =>
      rw [stored] at becomes
      rcases below with rfl | old
      · exact ⟨t, becomes, self⟩
      · have first : (related small).max = none := (bounds small).1.trans stored
        refine reaches_under capped reaches (Or.inl first) (ofBelow old) ?_
        intro max known
        rw [first] at known
        cases known
  | some max =>
      rw [stored] at becomes
      have storedRelated : (related small).max = some max := (bounds small).1.trans stored
      by_cases less : cmpNtypes users t max = .lt
      · rw [capMax, if_pos less] at becomes
        rcases below with rfl | old
        · exact ⟨t, becomes, self⟩
        · refine reaches_under capped reaches (Or.inr ⟨max, storedRelated, less⟩) (ofBelow old) ?_
          intro other known
          obtain rfl : max = other := Option.some.inj (storedRelated.symm.trans known)
          obtain ⟨oldMax, oldStored, under⟩ := propagated a small old max stored
          exact Or.inl ⟨oldMax, (bounds a).1.trans oldStored, under⟩
      · -- the maximum of `small` stays, because it is below `t` already
        have lower : leNtypes users max t = true := by
          rw [leNtypes, cmp_ntypes_flip users t max]
          cases result : cmpNtypes users t max with
          | eq => rfl
          | gt => rfl
          | lt => exact absurd result less
          | hcs => exact absurd result (comparable max stored)
          | dis => exact absurd result (capped.joined small max (Or.inl rfl) storedRelated)
        rcases below with rfl | old
        · rw [capMax, if_neg less] at becomes
          exact ⟨max, becomes, lower⟩
        · obtain ⟨oldMax, oldStored, under⟩ := propagated a small old max stored
          exact under_capped capped ⟨oldMax, (bounds a).1.trans oldStored,
            le_ntypes_trans users under lower⟩

/-- SSInewRel. -/
theorem pass_bounds_propagated [PartialEquivBEq Val] {users : UserTypes}
    {s related next : Store Val} {small big : Nat} (closed : Closed s)
    (closedRelated : Closed related) (propagated : MaxPropagated users s)
    (bounds : SameBounds s related)
    (above : ∀ x y, Above related x y ↔ Extend (Above s) small big x y)
    (passes : Passes users s small big)
    (returned : passBounds users small big related = (true, next)) : MaxPropagated users next := by
  unfold passBounds at returned
  split at returned
  · next middle result =>
      have frame := new_min_frame users big (middle small).min middle
      rw [returned] at frame
      refine max_propagated_of_same frame.1 frame.2 ?_
      cases greatest : (s big).max with
      | none =>
          have none : (related big).max = none := (bounds big).1.trans greatest
          rw [none] at result
          obtain rfl : related = middle := (Prod.mk.inj result).2
          intro a b aboveRelated max stored
          rw [(bounds b).1] at stored
          -- without a maximum of `big` there are none above it to be passed on
          rcases (above a b).mp aboveRelated with old | ⟨_, rfl | beyond⟩
          · obtain ⟨oldMax, oldStored, under⟩ := propagated a b old max stored
            exact ⟨oldMax, (bounds a).1.trans oldStored, under⟩
          · rw [greatest] at stored
            cases stored
          · obtain ⟨oldMax, oldStored, _⟩ := propagated big b beyond max stored
            rw [greatest] at oldStored
            cases oldStored
      | some t =>
          obtain ⟨definite, reaches, comparable⟩ := passes t greatest
          have some : (related big).max = Option.some t := (bounds big).1.trans greatest
          rw [some] at result
          have capped := new_max_capped result
          have lists := new_max_lists users small (Option.some t) related
          rw [result] at lists
          have reachesRelated := reaches_related closed closedRelated bounds above definite reaches
          refine new_max_propagated closedRelated capped lists reachesRelated ?_
          intro a b aboveRelated max stored
          rw [(bounds b).1] at stored
          rcases (above a b).mp aboveRelated with old | ⟨below, beyond⟩
          · obtain ⟨oldMax, oldStored, under⟩ := propagated a b old max stored
            exact Or.inl ⟨oldMax, (bounds a).1.trans oldStored, under⟩
          · refine Or.inr ⟨?_, under_related closedRelated propagated bounds above capped definite
              reachesRelated comparable below⟩
            rcases beyond with rfl | beyond
            · obtain rfl : t = max := Option.some.inj (greatest.symm.trans stored)
              exact (le_ntypes_self_iff users t).mpr definite
            · obtain ⟨oldMax, oldStored, under⟩ := propagated big b beyond max stored
              obtain rfl : t = oldMax := Option.some.inj (greatest.symm.trans oldStored)
              exact under
  · cases returned

/-- A call returns TRUE, no NaN becomes the first minimum of a variable, and an upper
bound that is asserted or passed on reaches what is below. -/
def Propagates (users : UserTypes) (s : Store Val) (c : Constraint Val) (res : Bool) : Prop :=
  res = true ∧ FirstDefinite s c ∧
    (∀ v t, c = { small := .alpha v, big := .type t } → Reaches users s v t) ∧
    ∀ small big, c = { small := .alpha small, big := .alpha big } → ¬ Above s small big →
      Passes users s small big

theorem run_propagated [PartialEquivBEq Val] {users : UserTypes} {calls : List (Constraint Val)}
    {s : Store Val} (run : Run users (Propagates users) calls s) : MaxPropagated users s := by
  induction run with
  | start => exact fun a b above => absurd above List.not_mem_nil
  | @step calls s next c res before called allowed ih =>
      obtain ⟨rfl, _, upper, relation⟩ := allowed
      have closed := (run_closed users before).1
      cases effect_of_call closed called with
      | known above => exact ih
      | @relation small big related _ _ fresh closedRelated bounds above passed =>
          exact pass_bounds_propagated closed closedRelated ih bounds above
            (relation small big rfl fresh) passed
      | @upper v t _ _ bounded =>
          have lists := new_max_lists users v (some t) s
          rw [bounded] at lists
          exact new_max_propagated closed (new_max_capped bounded) lists (upper v t rfl)
            fun a b above max stored => Or.inl (ih a b above max stored)
      | @lower v t _ _ bounded =>
          -- minima do not matter here, and NewMin changes nothing else
          have frame := new_min_frame users v (some t) s
          rw [bounded] at frame
          exact max_propagated_of_same frame.1 frame.2 ih
      | types compared => exact ih

/-- Both bounds are propagated in every store that calls lead to which return TRUE
and whose upper bounds reach what is below. -/
theorem bounds_propagated [PartialEquivBEq Val] (users : UserTypes)
    {calls : List (Constraint Val)} {s : Store Val} (run : Run users (Propagates users) calls s)
    (a b : Nat) (below : isLeVar s a b = true) :
    (∀ max, (s b).max = some max →
      ∃ lower, (s a).max = some lower ∧ leNtypes users lower max = true) ∧
    (∀ min, (s a).min = some min →
      ∃ upper, (s b).min = some upper ∧ leNtypes users min upper = true) := by
  have above : Above s a b := (is_in_iff _ _).mp below
  obtain ⟨tight, _⟩ := run_tight (fun s c res allowed => ⟨allowed.1, allowed.2.1⟩) run
  exact ⟨run_propagated run a b above, fun min least =>
    tight_propagated (run_closed users run).1 tight above least⟩

end Maxima

/-- An upper bound that is asserted before the relation is passed down. -/
theorem bounds_propagated_late_relation :
    ∃ s : Store Int, (∃ lower, (s 0).max = some lower ∧
      leNtypes noAliases lower (vectorType 2) = true) := by
  have first : ∀ (s : Store Int) (c : Constraint Int), FirstDefinite s c :=
    fun _ _ t _ _ _ => definite_of_refl t
  obtain ⟨s, run, related, stored⟩ : ∃ s : Store Int,
      Run noAliases (Propagates noAliases) [atMost 1 2, newRelCall 0 1] s ∧
        isLeVar s 0 1 = true ∧ (s 1).max = some (vectorType 2) := by
    refine ⟨_, .step (.step .start rfl ⟨rfl, first _ _, fun v t _ => ?_, fun _ _ same => ?_⟩) rfl
      ⟨rfl, first _ _, fun _ _ same => ?_, fun small big same _ t _ => ?_⟩, rfl, rfl⟩
    · cases same
    · cases same
      exact ⟨definite_of_refl t, fun a member => absurd member List.not_mem_nil, by
        intro max known
        cases known⟩
    · exact fun a member => absurd member List.not_mem_nil
    · cases same
  exact ⟨s, (bounds_propagated noAliases run 0 1 related).1 _ stored⟩

/-- A first upper bound does not reach the variable below. -/
theorem first_maximum_stays :
    ¬ ∀ (calls : List (Constraint Int)) (s : Store Int),
      Run noAliases (fun _ _ res => res = true) calls s → ∀ a b, isLeVar s a b = true →
        ∀ max, (s b).max = some max →
          ∃ lower, (s a).max = some lower ∧ leNtypes noAliases lower max = true := by
  intro passed
  obtain ⟨s, run, related, stored, none⟩ : ∃ s : Store Int,
      Run noAliases (fun _ _ res => res = true) [newRelCall 0 1, atMost 1 2] s ∧
        isLeVar s 0 1 = true ∧ (s 1).max = some (vectorType 2) ∧ (s 0).max = none :=
    ⟨_, .step (.step .start rfl rfl) rfl rfl, rfl, rfl, rfl⟩
  obtain ⟨lower, known, _⟩ := passed _ s run 0 1 related _ stored
  rw [none] at known
  cases known

end Sac2c.SsiPropagation
