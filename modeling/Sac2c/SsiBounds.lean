import Sac2c.SsiRelation

/-!
The bounds of the constraint store of typecheck/ssi.c. NewMax replaces a maximum
only by a smaller one; the minimum of a variable stays a least upper bound of all
lower bounds of the variables that are not above it.
-/

namespace Sac2c.SsiBounds

open NewTypes TypeOrder LubOfTypes Closures SsiStore SsiRelation

section Maxima
variable {Val : Type} [BEq Val]

/-- The maximum that NewMax makes of a stored one. -/
def capMax (users : UserTypes) (cmax : NType Val) : Option (NType Val) → Option (NType Val)
  | none => some cmax
  | some max => if cmpNtypes users cmax max = .lt then some cmax else some max

/-- NewMax makes the maximum of a variable smaller. -/
def Lowers (users : UserTypes) (cmax : NType Val) (var : Nat) (s : Store Val) : Prop :=
  ∃ max, (s var).max = some max ∧ cmpNtypes users cmax max = .lt

/-- What NewMax has done if it returns TRUE: it has visited some variables. -/
structure Capped (users : UserTypes) (cmax : NType Val) (visited : Nat → Prop)
    (s next : Store Val) : Prop where
  mins : ∀ v, (next v).min = (s v).min
  capped : ∀ v, visited v → (next v).max = capMax users cmax (s v).max
  kept : ∀ v, ¬ visited v → (next v).max = (s v).max
  legal : ∀ v min, (next v).max ≠ (s v).max → (s v).min = some min →
    leNtypes users min cmax = true
  joined : ∀ v max, visited v → (s v).max = some max → cmpNtypes users cmax max ≠ .dis

theorem cap_max_idem [PartialEquivBEq Val] (users : UserTypes) (cmax : NType Val)
    (max : Option (NType Val)) :
    capMax users cmax (capMax users cmax max) = capMax users cmax max := by
  cases max with
  | none => simp [capMax]
  | some max =>
      by_cases below : cmpNtypes users cmax max = .lt
      · simp [capMax, below]
      · simp [capMax, below]

theorem capped_none (users : UserTypes) (cmax : NType Val) (s : Store Val) :
    Capped users cmax (fun _ => False) s s where
  mins _ := rfl
  capped _ visited := visited.elim
  kept _ _ := rfl
  legal _ _ changed := absurd rfl changed
  joined _ _ visited := visited.elim

theorem capped_congr {users : UserTypes} {cmax : NType Val} {visited others : Nat → Prop}
    {s next : Store Val} (same : ∀ v, visited v ↔ others v)
    (capped : Capped users cmax visited s next) : Capped users cmax others s next := by
  obtain rfl : visited = others := funext fun v => propext (same v)
  exact capped

theorem capped_comp [PartialEquivBEq Val] {users : UserTypes} {cmax : NType Val}
    {visited others : Nat → Prop} {s middle next : Store Val}
    (first : Capped users cmax visited s middle) (second : Capped users cmax others middle next) :
    Capped users cmax (fun v => visited v ∨ others v) s next where
  mins v := (second.mins v).trans (first.mins v)
  capped v either := by
    by_cases early : visited v
    · by_cases late : others v
      · rw [second.capped v late, first.capped v early, cap_max_idem]
      · rw [second.kept v late, first.capped v early]
    · rw [second.capped v (either.resolve_left early), first.kept v early]
  kept v neither := by
    rw [second.kept v fun late => neither (Or.inr late), first.kept v fun early =>
      neither (Or.inl early)]
  legal v min changed known := by
    -- whichever of the two has changed the maximum has checked the minimum
    by_cases early : (middle v).max = (s v).max
    · rw [← early] at changed
      exact second.legal v min changed ((first.mins v).trans known)
    · exact first.legal v min early known
  joined v max either known := by
    by_cases early : visited v
    · exact first.joined v max early known
    · exact second.joined v max (either.resolve_left early) ((first.kept v early).trans known)

theorem set_max_capped {users : UserTypes} {var : Nat} {cmax : NType Val} {s : Store Val}
    (changes : capMax users cmax (s var).max = some cmax)
    (joined : ∀ max, (s var).max = some max → cmpNtypes users cmax max ≠ .dis)
    (legal : ∀ min, (s var).min = some min → leNtypes users min cmax = true) :
    Capped users cmax (fun v => v = var) s (setMax var cmax s) where
  mins v := (set_max_other s v var cmax).1
  capped v here := by
    subst here
    simp [changes]
  kept v other := by simp [other]
  legal v min changed known := by
    by_cases here : v = var
    · subst here
      exact legal min known
    · simp [here] at changed
  joined v max here known := by
    subst here
    exact joined max known

theorem unlowered_capped {users : UserTypes} {var : Nat} {cmax max : NType Val} {s : Store Val}
    (stored : (s var).max = some max) (notLower : cmpNtypes users cmax max ≠ .lt)
    (notDis : cmpNtypes users cmax max ≠ .dis) :
    ¬ Lowers users cmax var s ∧ Capped users cmax (fun v => v = var) s s := by
  constructor
  · rintro ⟨other, known, below⟩
    obtain rfl : max = other := Option.some.inj (stored.symm.trans known)
    exact notLower below
  · constructor
    case mins => exact fun _ => rfl
    case capped =>
      intro v here
      subst here
      rw [stored, capMax, if_neg notLower]
    case kept => exact fun _ _ => rfl
    case legal => exact fun _ _ changed => absurd rfl changed
    case joined =>
      intro v other here known
      subst here
      obtain rfl : max = other := Option.some.inj (stored.symm.trans known)
      exact notDis

/-- NewMax at one variable. -/
theorem new_max_at_capped [PartialEquivBEq Val] {users : UserTypes}
    {onSmalls : Store Val → Bool × Store Val} {var : Nat} {cmax : NType Val} {s next : Store Val}
    (returned : newMaxAt users onSmalls var cmax s = (true, next)) :
    (¬ Lowers users cmax var s ∧ Capped users cmax (fun v => v = var) s next) ∨
    ∃ middle, Lowers users cmax var s ∧ Capped users cmax (fun v => v = var) s middle ∧
      SameLists s middle ∧ onSmalls middle = (true, next) := by
  unfold newMaxAt at returned
  cases stored : (s var).max with
  | none =>
      rw [stored] at returned
      refine Or.inl ⟨fun ⟨max, known, _⟩ => by simp [stored] at known, ?_⟩
      cases least : (s var).min with
      | none =>
          simp only [least] at returned
          obtain ⟨_, rfl⟩ := Prod.mk.inj returned
          exact set_max_capped (by rw [stored]; rfl) (by simp [stored]) (by simp [least])
      | some min =>
          simp only [least] at returned
          obtain ⟨legal, rfl⟩ := Prod.mk.inj returned
          exact set_max_capped (by rw [stored]; rfl) (by simp [stored])
            (by simpa [least] using legal)
  | some max =>
      simp only [stored] at returned
      cases result : cmpNtypes users cmax max with
      | eq | gt | hcs =>
          simp only [result] at returned
          obtain rfl : s = next := (Prod.mk.inj returned).2
          exact Or.inl (unlowered_capped stored (by simp [result]) (by simp [result]))
      | dis => simp [result] at returned
      | lt =>
          simp only [result] at returned
          refine Or.inr ⟨setMax var cmax s, ⟨max, stored, result⟩, ?_, fun v => ?_, ?_⟩
          · refine set_max_capped (by rw [stored, capMax, if_pos result]) ?_ ?_
            · intro other known
              obtain rfl : max = other := Option.some.inj (stored.symm.trans known)
              rw [result]
              decide
            · intro min least
              simp only [least] at returned
              by_contra illegal
              simp [illegal] at returned
          · exact (set_max_other s v var cmax).2
          · cases least : (s var).min with
            | none => simpa [least] using returned
            | some min =>
                simp only [least] at returned
                split at returned
                · exact returned
                · cases returned

theorem new_max_smalls_capped [PartialEquivBEq Val] {users : UserTypes} {cmax : NType Val}
    {smalls : List Nat} {s next : Store Val}
    (returned : newMaxSmalls users cmax smalls s = (true, next)) :
    Capped users cmax (fun v => v ∈ smalls) s next := by
  induction smalls generalizing s with
  | nil =>
      obtain rfl : s = next := (Prod.mk.inj returned).2
      exact capped_congr (by simp) (capped_none users cmax s)
  | cons small rest ih =>
      unfold newMaxSmalls at returned
      split at returned
      · next middle result =>
          have head : Capped users cmax (fun v => v = small) s middle := by
            rcases new_max_at_capped result with ⟨_, capped⟩ | ⟨_, _, capped, _, same⟩
            · exact capped
            · obtain rfl := (Prod.mk.inj same).2
              exact capped
          exact capped_congr (fun v => List.mem_cons.symm) (capped_comp head (ih returned))
      · cases returned

/-- SSInewMax: the variables below are only visited if the maximum of `var` has
become smaller. -/
theorem new_max_capped [PartialEquivBEq Val] {users : UserTypes} {var : Nat} {cmax : NType Val}
    {s next : Store Val} (returned : newMax users var (some cmax) s = (true, next)) :
    Capped users cmax (fun v => v = var ∨ (Lowers users cmax var s ∧ v ∈ (s var).small)) s next := by
  have unfolded : newMaxAt users (fun s => newMaxSmalls users cmax (s var).small s) var cmax s =
      (true, next) := returned
  rcases new_max_at_capped unfolded with ⟨higher, capped⟩ | ⟨middle, lower, capped, lists, pushed⟩
  · exact capped_congr (fun v => by simp [higher]) capped
  · have smalls := capped_comp capped (new_max_smalls_capped pushed)
    rw [(lists var).2] at smalls
    exact capped_congr (fun v => by simp [lower]) smalls

end Maxima

section Minima
variable {Val : Type} [BEq Val]

/-- A type is below the same types as all the given ones together. -/
def StandsFor (users : UserTypes) (bounds : NType Val → Prop) (t : NType Val) : Prop :=
  ∀ w, leNtypes users t w = true ↔ ∀ bound, bounds bound → leNtypes users bound w = true

/-- A stored minimum: there is none if there are no bounds, and otherwise it is a
least upper bound of them. -/
def Tight (users : UserTypes) (bounds : NType Val → Prop) : Option (NType Val) → Prop
  | none => ∀ t, ¬ bounds t
  | some min => (∃ t, bounds t) ∧ Joins users bounds min

/-- The minimum of each variable is below its maximum. -/
def Consistent (users : UserTypes) (s : Store Val) : Prop :=
  ∀ v min max, (s v).min = some min → (s v).max = some max → leNtypes users min max = true

theorem stands_for_single (users : UserTypes) (t : NType Val) :
    StandsFor users (fun bound => bound = t) t :=
  fun w => ⟨by rintro below bound rfl; exact below, fun bounded => bounded t rfl⟩

theorem stands_for_of_joins [PartialEquivBEq Val] {users : UserTypes} {bounds : NType Val → Prop}
    {t : NType Val} (joins : Joins users bounds t) : StandsFor users bounds t :=
  fun w => ⟨fun below bound member => le_ntypes_trans users (joins.above bound member) below,
    joins.least w⟩

/-- A type that stands for others and is equal to itself is their least upper bound. -/
theorem joins_of_stands_for {users : UserTypes} {bounds : NType Val → Prop} {t : NType Val}
    (stands : StandsFor users bounds t) (known : Definite t) : Joins users bounds t where
  above := (stands t).mp ((le_ntypes_self_iff users t).mpr known)
  least w := (stands w).mpr

theorem tight_congr {users : UserTypes} {bounds others : NType Val → Prop}
    {min : Option (NType Val)} (same : ∀ t, bounds t ↔ others t) (tight : Tight users bounds min) :
    Tight users others min := by
  obtain rfl : bounds = others := funext fun t => propext (same t)
  exact tight

/-- The new minimum of NewMin takes the bounds into account that `cmin` stands for.
A first minimum has to be equal to itself. -/
theorem new_minimum_tight [PartialEquivBEq Val] {users : UserTypes}
    {bounds others : NType Val → Prop} {cmin tmp : NType Val} {min : Option (NType Val)}
    (tight : Tight users bounds min) (some : ∃ t, others t) (stands : StandsFor users others cmin)
    (first : min = none → Definite cmin) (computed : newMinimum users cmin min = Option.some tmp) :
    Tight users (fun t => bounds t ∨ others t) (Option.some tmp) := by
  obtain ⟨other, member⟩ := some
  refine ⟨⟨other, Or.inr member⟩, ?_⟩
  cases min with
  | none =>
      obtain rfl : cmin = tmp := Option.some.inj computed
      refine joins_congr (fun t => ?_) (joins_of_stands_for stands (first rfl))
      exact ⟨Or.inr, fun either => either.resolve_left (tight t)⟩
  | some min =>
      -- the least upper bound has been computed, so the types are not disjoint
      have base : cmpNtypes users cmin min ≠ .dis := by
        intro dis
        rw [newMinimum, lub_of_disjoint users dis] at computed
        cases computed
      obtain ⟨u, result, joins⟩ := lub_spec users cmin min base
      obtain rfl : u = tmp := Option.some.inj (result.symm.trans computed)
      have standsMin := stands_for_of_joins tight.2
      refine joins_of_stands_for (fun w => ?_) (joins_definite joins)
      rw [stands_for_of_joins joins w]
      constructor
      · rintro bounded bound (early | late)
        · exact (standsMin w).mp (bounded min (Or.inr rfl)) bound early
        · exact (stands w).mp (bounded cmin (Or.inl rfl)) bound late
      · rintro bounded t (rfl | rfl)
        · exact (stands w).mpr fun bound late => bounded bound (Or.inr late)
        · exact (standsMin w).mpr fun bound early => bounded bound (Or.inl early)

/-- Every minimum is tight. -/
def AllTight (users : UserTypes) (bounds : Nat → NType Val → Prop) (s : Store Val) : Prop :=
  ∀ v, Tight users (bounds v) (s v).min

theorem all_tight_congr {users : UserTypes} {bounds others : Nat → NType Val → Prop}
    {s : Store Val} (same : ∀ v t, bounds v t ↔ others v t) (tight : AllTight users bounds s) :
    AllTight users others s :=
  fun v => tight_congr (same v) (tight v)

/-- NewMin at one variable. -/
theorem new_min_at_tight [PartialEquivBEq Val] {users : UserTypes}
    {onBigs : NType Val → Store Val → Bool × Store Val} {var : Nat} {cmin : NType Val}
    {s next : Store Val} {bounds : Nat → NType Val → Prop} {others : NType Val → Prop}
    (tight : AllTight users bounds s) (consistent : Consistent users s)
    (some : ∃ t, others t) (stands : StandsFor users others cmin)
    (first : (s var).min = none → Definite cmin)
    (returned : newMinAt users onBigs var cmin s = (true, next)) :
    ∃ tmp middle, onBigs tmp middle = (true, next) ∧ SameLists s middle ∧
      (∀ v, (middle v).max = (s v).max) ∧ Consistent users middle ∧
      Tight users (fun t => bounds var t ∨ others t) (Option.some tmp) ∧
      AllTight users (fun v t => bounds v t ∨ (v = var ∧ others t)) middle := by
  unfold newMinAt at returned
  split at returned
  · cases returned
  · next tmp computed =>
      split at returned
      · next legal =>
          have joined := new_minimum_tight (tight var) some stands first computed
          refine ⟨tmp, setMin var tmp s, returned, fun v => (set_min_other s v var tmp).2,
            fun v => (set_min_other s v var tmp).1, fun v min max least greatest => ?_, joined,
            fun v => ?_⟩
          · rw [(set_min_other s v var tmp).1] at greatest
            by_cases here : v = var
            · subst here
              simp only [set_min_min, if_pos] at least
              obtain rfl := Option.some.inj least
              simpa [legalMin, greatest] using legal
            · simp only [set_min_min, if_neg here] at least
              exact consistent v min max least greatest
          · by_cases here : v = var
            · subst here
              simpa using joined
            · simpa [here] using tight v
      · cases returned

/-- The loop of NewMin over the variables above. -/
theorem new_min_bigs_tight [PartialEquivBEq Val] {users : UserTypes} {tmp : NType Val}
    {bigs : List Nat} {s next : Store Val} {bounds : Nat → NType Val → Prop}
    {others : NType Val → Prop} (tight : AllTight users bounds s)
    (consistent : Consistent users s) (joined : Tight users others (some tmp))
    (returned : newMinBigs users tmp bigs s = (true, next)) :
    (∀ v, (next v).max = (s v).max) ∧ Consistent users next ∧
      AllTight users (fun v t => bounds v t ∨ (v ∈ bigs ∧ others t)) next := by
  induction bigs generalizing s bounds with
  | nil =>
      obtain rfl : s = next := (Prod.mk.inj returned).2
      exact ⟨fun _ => rfl, consistent, all_tight_congr (by simp) tight⟩
  | cons big rest ih =>
      unfold newMinBigs at returned
      split at returned
      · next middle result =>
          obtain ⟨_, other, same, _, maxes, consistentNow, _, tightNow⟩ :=
            new_min_at_tight tight consistent joined.1 (stands_for_of_joins joined.2)
              (fun _ => joins_definite joined.2) result
          obtain rfl : other = middle := (Prod.mk.inj same).2
          obtain ⟨maxesNext, consistentNext, tightNext⟩ := ih tightNow consistentNow returned
          refine ⟨fun v => (maxesNext v).trans (maxes v), consistentNext,
            all_tight_congr (fun v t => ?_) tightNext⟩
          rw [or_assoc, ← or_and_right, List.mem_cons]
      · cases returned

/-- SSInewMin: what `cmin` stands for becomes a bound of `var` and of the variables
above it, which have the bounds of `var` already. -/
theorem new_min_tight [PartialEquivBEq Val] {users : UserTypes} {var : Nat} {cmin : NType Val}
    {s next : Store Val} {bounds : Nat → NType Val → Prop} {others : NType Val → Prop}
    (tight : AllTight users bounds s) (consistent : Consistent users s)
    (grows : ∀ v ∈ (s var).big, ∀ t, bounds var t → bounds v t)
    (some : ∃ t, others t) (stands : StandsFor users others cmin)
    (first : (s var).min = none → Definite cmin)
    (returned : newMin users var (Option.some cmin) s = (true, next)) :
    (∀ v, (next v).max = (s v).max) ∧ Consistent users next ∧
      AllTight users (fun v t => bounds v t ∨ ((v = var ∨ v ∈ (s var).big) ∧ others t)) next := by
  have unfolded : newMinAt users (fun tmp s => newMinBigs users tmp (s var).big s) var cmin s =
      (true, next) := returned
  obtain ⟨tmp, middle, pushed, lists, maxes, consistentNow, joined, tightNow⟩ :=
    new_min_at_tight tight consistent some stands first unfolded
  simp only [(lists var).1] at pushed
  obtain ⟨maxesNext, consistentNext, tightNext⟩ :=
    new_min_bigs_tight tightNow consistentNow joined pushed
  refine ⟨fun v => (maxesNext v).trans (maxes v), consistentNext,
    all_tight_congr (fun v t => ?_) tightNext⟩
  -- above `var` the bounds of `var` are known already, so only `others` are new there
  by_cases above : v ∈ (s var).big
  · have grown := grows v above t
    simp only [above, true_and, or_true]
    tauto
  · simp [above]

end Minima

end Sac2c.SsiBounds
