import Mathlib.Data.List.Induction
import Mathlib.Data.List.Perm.Basic
import Sac2c.DispatchSoundness

/-!
When the result of a dispatch does not depend on the order of the instances. The
sums `ups` and `downs` of an instance do not; but a tie between two instances is
decided by their positions.
-/

namespace Sac2c.DispatchOrder

open NewTypes FunDispatch

/-- Overloading the same two types the other way round only reorders instances. -/
theorem make_overloaded_perm {Val : Type} (fun1 fun2 : List (FunType Val)) :
    (makeOverloadedFunType fun1 fun2).Perm (makeOverloadedFunType fun2 fun1) := by
  unfold makeOverloadedFunType
  split_ifs
  · exact List.perm_append_comm
  · exact List.Perm.refl _
  · exact List.Perm.refl _
  · exact List.perm_append_comm

section Entries
variable {Val : Type}

def isExact (entry : Entry Val) : Bool := entry.ups == 0 && entry.downs == 0

def isDeriveable (entry : Entry Val) : Bool := entry.ups == 0 && entry.downs != 0

def isPartial (entry : Entry Val) : Bool := entry.ups != 0 && entry.downs == 0

def isDeriveablePartial (entry : Entry Val) : Bool := entry.ups != 0 && entry.downs != 0

/-- The choice among the entries of the legal instances. -/
def chooseLegal (entries : List (Entry Val)) : Choice Val := choose (entries.map some)

theorem choose_legal (entries : List (Option (Entry Val))) :
    choose entries = chooseLegal (entries.filterMap id) := by
  unfold chooseLegal
  induction entries using List.reverseRecOn with
  | nil => rfl
  | append_singleton entries entry ih =>
      rw [choose_snoc, ih, List.filterMap_append]
      cases entry with
      | none => simp [Choice.enter]
      | some entry =>
          change _ = choose ((List.filterMap id entries ++ [entry]).map some)
          rw [List.map_append, List.map_singleton, choose_snoc]

theorem choose_legal_snoc (entries : List (Entry Val)) (entry : Entry Val) :
    chooseLegal (entries ++ [entry]) = (chooseLegal entries).enter (some entry) := by
  simp [chooseLegal, choose_snoc]

theorem choose_exact_found (entries : List (Entry Val)) :
    (chooseLegal entries).exactFound = entries.any isExact := by
  induction entries using List.reverseRecOn with
  | nil => rfl
  | append_singleton entries entry ih =>
      rw [choose_legal_snoc, List.any_append, ← ih]
      simp only [Choice.enter]
      split_ifs <;> simp_all [isExact]

theorem choose_definition (entries : List (Entry Val)) :
    (chooseLegal entries).definition = ((entries.filter isExact).getLast?).map Entry.fundef := by
  induction entries using List.reverseRecOn with
  | nil => rfl
  | append_singleton entries entry ih =>
      rw [choose_legal_snoc, List.filter_append]
      simp only [Choice.enter]
      split_ifs <;> simp_all [isExact]

theorem choose_partials (entries : List (Entry Val)) :
    (chooseLegal entries).partials = entries.filter isPartial := by
  induction entries using List.reverseRecOn with
  | nil => rfl
  | append_singleton entries entry ih =>
      rw [choose_legal_snoc, List.filter_append, ← ih]
      simp only [Choice.enter]
      split_ifs <;> simp_all [isPartial]

/-- An exact match discards the deriveable partials before it and behind it. -/
theorem choose_deriveable_partials (entries : List (Entry Val)) :
    (chooseLegal entries).deriveablePartials =
      if entries.any isExact then [] else entries.filter isDeriveablePartial := by
  induction entries using List.reverseRecOn with
  | nil => rfl
  | append_singleton entries entry ih =>
      have exactFound := choose_exact_found entries
      rw [choose_legal_snoc, List.filter_append, List.any_append]
      cases any : entries.any isExact with
      | true =>
          rw [any] at ih exactFound
          simp only [Choice.enter, exactFound, ↓reduceIte, Bool.true_or] at ih ⊢
          split_ifs <;> simp_all
      | false =>
          rw [any] at ih exactFound
          simp only [Choice.enter, exactFound, Bool.false_eq_true, ↓reduceIte, Bool.false_or] at ih ⊢
          split_ifs <;> simp_all [isDeriveablePartial, isExact, List.filter_cons]

/-- Behind an exact match only positive `downs` could lead to a deriveable. -/
theorem choose_deriveable_exact (entries : List (Entry Val))
    (low : ∀ entry ∈ entries, isDeriveable entry = true → entry.downs ≤ 0)
    (exact : entries.any isExact = true) :
    (chooseLegal entries).deriveable = none ∧ (chooseLegal entries).maxDeriveable = 0 := by
  induction entries using List.reverseRecOn with
  | nil => simp at exact
  | append_singleton entries entry ih =>
      rw [choose_legal_snoc]
      by_cases here : isExact entry = true
      · simp only [isExact, Bool.and_eq_true, beq_iff_eq] at here
        simp [Choice.enter, here]
      · have before : entries.any isExact = true := by
          simpa [List.any_append, here] using exact
        have kept := ih (fun other member => low other (List.mem_append_left _ member)) before
        have bound := low entry (by simp)
        simp only [isDeriveable, Bool.and_eq_true, beq_iff_eq, bne_iff_ne] at bound
        simp only [isExact, Bool.and_eq_true, beq_iff_eq, not_and] at here
        by_cases noUps : entry.ups = 0
        · have notExact := here noUps
          have notHigher : ¬ (chooseLegal entries).maxDeriveable < entry.downs := by
            have under := bound ⟨noUps, notExact⟩
            omega
          simpa [Choice.enter, noUps, notExact, notHigher] using kept
        · simp only [Choice.enter, noUps, ↓reduceIte]
          split_ifs <;> exact kept

/-- Without an exact match the deriveable is one of greatest `downs`. -/
theorem choose_deriveable_best (entries : List (Entry Val))
    (inexact : entries.any isExact = false) :
    ((chooseLegal entries).deriveable = none ∧
      (chooseLegal entries).maxDeriveable = 1 - intMax ∧
      ∀ entry ∈ entries, isDeriveable entry = true → entry.downs ≤ 1 - intMax) ∨
    ∃ best ∈ entries, isDeriveable best = true ∧
      (chooseLegal entries).deriveable = some best.fundef ∧
      (chooseLegal entries).maxDeriveable = best.downs ∧ 1 - intMax < best.downs ∧
      ∀ entry ∈ entries, isDeriveable entry = true → entry.downs ≤ best.downs := by
  induction entries using List.reverseRecOn with
  | nil => exact Or.inl ⟨rfl, rfl, by simp⟩
  | append_singleton entries entry ih =>
      rw [List.any_append, Bool.or_eq_false_iff] at inexact
      obtain ⟨before, here⟩ := inexact
      simp only [List.any_cons, List.any_nil, Bool.or_false, isExact, Bool.and_eq_false_iff,
        beq_eq_false_iff_ne] at here
      rw [choose_legal_snoc]
      -- An entry that is no deriveable, or not above the best one, changes nothing.
      have passes : ∀ next : Choice Val, next.deriveable = (chooseLegal entries).deriveable →
          next.maxDeriveable = (chooseLegal entries).maxDeriveable →
          (isDeriveable entry = true → entry.downs ≤ (chooseLegal entries).maxDeriveable) →
          (next.deriveable = none ∧ next.maxDeriveable = 1 - intMax ∧
            ∀ e ∈ entries ++ [entry], isDeriveable e = true → e.downs ≤ 1 - intMax) ∨
          ∃ best ∈ entries ++ [entry], isDeriveable best = true ∧
            next.deriveable = some best.fundef ∧ next.maxDeriveable = best.downs ∧
            1 - intMax < best.downs ∧
            ∀ e ∈ entries ++ [entry], isDeriveable e = true → e.downs ≤ best.downs := by
        intro next deriveable maxDeriveable low
        rw [deriveable, maxDeriveable]
        rcases ih before with ⟨noneYet, floor, below⟩ |
          ⟨best, member, isBest, found, level, above, below⟩
        · refine Or.inl ⟨noneYet, floor, ?_⟩
          intro e inAll isOne
          rcases List.mem_append.mp inAll with old | new
          · exact below e old isOne
          · rw [List.mem_singleton] at new
            subst new
            exact floor ▸ low isOne
        · refine Or.inr ⟨best, List.mem_append_left _ member, isBest, found, level, above, ?_⟩
          intro e inAll isOne
          rcases List.mem_append.mp inAll with old | new
          · exact below e old isOne
          · rw [List.mem_singleton] at new
            subst new
            exact level ▸ low isOne
      by_cases noUps : entry.ups = 0
      · have some : entry.downs ≠ 0 := by
          rcases here with left | right
          · exact absurd noUps left
          · exact right
        by_cases higher : (chooseLegal entries).maxDeriveable < entry.downs
        · right
          refine ⟨entry, by simp, by simp [isDeriveable, noUps, some], ?_, ?_, ?_, ?_⟩
          · simp [Choice.enter, noUps, some, higher]
          · simp [Choice.enter, noUps, some, higher]
          · rcases ih before with ⟨_, floor, _⟩ | ⟨best, _, _, _, level, above, _⟩ <;> omega
          · intro e inAll isOne
            rcases List.mem_append.mp inAll with old | new
            · rcases ih before with ⟨_, floor, below⟩ | ⟨best, _, _, _, level, _, below⟩
              · have under := below e old isOne
                omega
              · have under := below e old isOne
                omega
            · rw [List.mem_singleton] at new
              rw [new]
        · exact passes _ (by simp [Choice.enter, noUps, some, higher])
            (by simp [Choice.enter, noUps, some, higher]) (fun _ => by omega)
      · refine passes _ ?_ ?_ (fun isOne => by simp [isDeriveable, noUps] at isOne) <;>
          simp only [Choice.enter, noUps, ↓reduceIte] <;> split_ifs <;> rfl

end Entries

section Shadowing
variable {Val : Type} [BEq Val] (users : UserTypes)

/-- The first entry has all its parameters below those of the second one, and is
strictly nearer to the arguments. -/
def Dominates (first second : Entry Val) : Prop :=
  first.ups = second.ups ∧ second.downs < first.downs ∧
    allArgTypesLe users first.fundef.args second.fundef.args = true

/-- The relation behind both filter loops. -/
def Shadows (first second : Entry Val) : Prop :=
  first.ups = second.ups ∧ second.downs ≤ first.downs ∧
    allArgTypesLe users first.fundef.args second.fundef.args = true

theorem all_arg_types_trans [PartialEquivBEq Val] {args1 args2 args3 : List (ArrayType Val)}
    (first : allArgTypesLe users args1 args2 = true)
    (second : allArgTypesLe users args2 args3 = true) :
    allArgTypesLe users args1 args3 = true := by
  induction args1 generalizing args2 args3 with
  | nil => rfl
  | cons arg1 args1 ih =>
      cases args2 with
      | nil => simp [allArgTypesLe] at first
      | cons arg2 args2 =>
          cases args3 with
          | nil => simp [allArgTypesLe] at second
          | cons arg3 args3 =>
              simp only [allArgTypesLe, Bool.and_eq_true] at first second ⊢
              exact ⟨le_types_trans users first.1 second.1, ih first.2 second.2⟩

theorem shadows_trans [PartialEquivBEq Val] {first second third : Entry Val}
    (upper : Shadows users first second) (lower : Shadows users second third) :
    Shadows users first third :=
  ⟨upper.1.trans lower.1, Int.le_trans lower.2.1 upper.2.1,
    all_arg_types_trans users upper.2.2 lower.2.2⟩

theorem verdict_later (earlier later : Entry Val)
    (drop : shadowVerdict users earlier later = .dropLater) : Shadows users earlier later := by
  unfold shadowVerdict at drop
  split_ifs at drop with ups downs le
  exact ⟨ups, Int.le_of_lt downs, le⟩

theorem verdict_earlier (earlier later : Entry Val)
    (drop : shadowVerdict users earlier later = .dropEarlier) : Shadows users later earlier := by
  unfold shadowVerdict at drop
  split_ifs at drop with ups downs _ le
  exact ⟨ups.symm, not_lt.mp downs, le⟩

/-- Two entries of which one dominates the other never both stay. -/
theorem verdict_dominates (first second : Entry Val) (dominates : Dominates users first second) :
    shadowVerdict users first second ≠ .keepBoth ∧
      shadowVerdict users second first ≠ .keepBoth := by
  obtain ⟨ups, downs, le⟩ := dominates
  have notLess : ¬ first.downs < second.downs := by omega
  simp [shadowVerdict, ups, downs, notLess, le]

/-- Where no two entries tie, what stays are those that no other one dominates. -/
theorem mem_prune [PartialEquivBEq Val] (entries : List (Entry Val))
    (untied : ∀ e ∈ entries, ∀ e2 ∈ entries, e.ups = e2.ups → e.downs = e2.downs →
      allArgTypesLe users e.fundef.args e2.fundef.args = true → e.fundef = e2.fundef)
    (entry : Entry Val) :
    entry ∈ Prune.prune (shadowVerdict users) entries ↔
      entry ∈ entries ∧ ∀ other ∈ entries, ¬ Dominates users other entry := by
  have covered := Prune.prune_covered (shadowVerdict users) (Shadows users)
    (shadows_trans users) (verdict_later users) (verdict_earlier users) entries
  have undecided := Prune.prune_undecided (shadowVerdict users) entries
  have subset := (Prune.prune_sublist (shadowVerdict users) entries).subset
  constructor
  · intro stays
    refine ⟨subset stays, ?_⟩
    intro other member dominates
    -- Something that stays shadows `other`, so it dominates `entry` as well.
    have survivor : ∃ survivor ∈ Prune.prune (shadowVerdict users) entries,
        Dominates users survivor entry := by
      rcases covered other member with kept | ⟨survivor, kept, shadows⟩
      · exact ⟨other, kept, dominates⟩
      · exact ⟨survivor, kept, shadows.1.trans dominates.1,
          lt_of_lt_of_le dominates.2.1 shadows.2.1,
          all_arg_types_trans users shadows.2.2 dominates.2.2⟩
    obtain ⟨survivor, kept, dominating⟩ := survivor
    have apart : survivor ≠ entry := by
      intro same
      have less := dominating.2.1
      rw [same] at less
      exact lt_irrefl _ less
    have never := verdict_dominates users survivor entry dominating
    rcases Prune.prune_undecided_pair (shadowVerdict users) entries kept stays apart with
      first | second
    · exact never.1 first
    · exact never.2 second
  · rintro ⟨member, undominated⟩
    rcases covered entry member with kept | ⟨survivor, kept, shadows⟩
    · exact kept
    · by_cases tie : entry.downs = survivor.downs
      · have same := untied survivor (subset kept) entry member shadows.1 tie.symm shadows.2.2
        have equal : survivor = entry := by
          cases survivor
          cases entry
          simp_all [Shadows]
        exact equal ▸ kept
      · have dominates : Dominates users survivor entry :=
          ⟨shadows.1, lt_of_le_of_ne shadows.2.1 tie, shadows.2.2⟩
        exact absurd dominates (undominated survivor (subset kept))

end Shadowing

section Order
variable {Val : Type} [BEq Val] (users : UserTypes)

/-- The entries of the legal instances. -/
def candidates (args : List (ArrayType Val)) (funs : List (FunType Val)) : List (Entry Val) :=
  (funs.map (entryOf users args)).filterMap id

/-- No two candidates compete on equal terms: there is one exact match at most,
one deriveable of greatest `downs`, and of two deriveable partials with the same
sums none has all its parameters below those of the other. The last two only
matter without an exact match; next to one, no deriveable has `downs` above 0. -/
structure Untied (entries : List (Entry Val)) : Prop where
  exact : ∀ e ∈ entries, ∀ e2 ∈ entries, isExact e = true → isExact e2 = true →
    e.fundef = e2.fundef
  scalars : (∃ e ∈ entries, isExact e = true) →
    ∀ e ∈ entries, isDeriveable e = true → e.downs ≤ 0
  deriveable : (∀ e ∈ entries, isExact e = false) → ∀ e ∈ entries, ∀ e2 ∈ entries,
    isDeriveable e = true → isDeriveable e2 = true → e.downs = e2.downs →
    (∀ other ∈ entries, isDeriveable other = true → other.downs ≤ e.downs) →
    e.fundef = e2.fundef
  partials : (∀ e ∈ entries, isExact e = false) → ∀ e ∈ entries, ∀ e2 ∈ entries,
    isDeriveablePartial e = true → isDeriveablePartial e2 = true → e.ups = e2.ups →
    e.downs = e2.downs → allArgTypesLe users e.fundef.args e2.fundef.args = true →
    e.fundef = e2.fundef

/-- The results agree in all that a dispatch decides, the partials as sets. -/
structure SameResult (res res2 : DftRes Val) : Prop where
  definition : res.definition = res2.definition
  deriveable : res.deriveable = res2.deriveable
  partials : ∀ f, f ∈ res.partials ↔ f ∈ res2.partials
  deriveablePartials : ∀ f, f ∈ res.deriveablePartials ↔ f ∈ res2.deriveablePartials

/-- Any reordering of the instances has the same result. -/
def OrderIndependent (funs : List (FunType Val)) (args : List (ArrayType Val)) : Prop :=
  ∀ funs2, funs.Perm funs2 → ∀ uninitialised uninitialised2 res res2,
    dispatchFunType users uninitialised funs args = .ok (some res) →
    dispatchFunType users uninitialised2 funs2 args = .ok (some res2) → SameResult res res2

omit [BEq Val] in
theorem any_exact_perm {entries entries2 : List (Entry Val)} (order : entries.Perm entries2) :
    entries.any isExact = entries2.any isExact := by
  rw [Bool.eq_iff_iff]
  simp only [List.any_eq_true, order.mem_iff]

theorem same_definition {entries entries2 : List (Entry Val)} (order : entries.Perm entries2)
    (untied : Untied users entries) :
    (chooseLegal entries).definition = (chooseLegal entries2).definition := by
  rw [choose_definition, choose_definition]
  have filtered := order.filter isExact
  cases last : (entries.filter isExact).getLast? with
  | none =>
      rw [List.getLast?_eq_none_iff] at last
      rw [last, List.nil_perm] at filtered
      rw [filtered]
      rfl
  | some e =>
      cases last2 : (entries2.filter isExact).getLast? with
      | none =>
          rw [List.getLast?_eq_none_iff] at last2
          rw [last2, List.perm_nil] at filtered
          simp [filtered] at last
      | some e2 =>
          have member := List.mem_filter.mp (List.mem_of_getLast? last)
          have member2 := List.mem_filter.mp (List.mem_of_getLast? last2)
          simp only [Option.map_some, Option.some.injEq]
          exact untied.exact e member.1 e2 (order.mem_iff.mpr member2.1) member.2 member2.2

theorem same_deriveable {entries entries2 : List (Entry Val)} (order : entries.Perm entries2)
    (untied : Untied users entries) :
    (chooseLegal entries).deriveable = (chooseLegal entries2).deriveable := by
  cases any : entries.any isExact with
  | true =>
      have some : ∃ e ∈ entries, isExact e = true := List.any_eq_true.mp any
      have low := untied.scalars some
      rw [(choose_deriveable_exact entries low any).1,
        (choose_deriveable_exact entries2
          (fun e member => low e (order.mem_iff.mpr member))
          (by rw [← any_exact_perm order, any])).1]
  | false =>
      have any2 : entries2.any isExact = false := by rw [← any_exact_perm order, any]
      have none : ∀ e ∈ entries, isExact e = false := by
        simpa [List.any_eq_false] using any
      rcases choose_deriveable_best entries any with ⟨noBest, _, low⟩ |
        ⟨best, member, isBest, found, _, above, below⟩
      · rcases choose_deriveable_best entries2 any2 with ⟨noBest2, _, _⟩ |
          ⟨best2, member2, isBest2, _, _, above2, _⟩
        · rw [noBest, noBest2]
        · have under := low best2 (order.mem_iff.mpr member2) isBest2
          omega
      · rcases choose_deriveable_best entries2 any2 with ⟨_, _, low2⟩ |
          ⟨best2, member2, isBest2, found2, _, _, below2⟩
        · have under := low2 best (order.mem_iff.mp member) isBest
          omega
        · have under := below best2 (order.mem_iff.mpr member2) isBest2
          have under2 := below2 best (order.mem_iff.mp member) isBest
          rw [found, found2, untied.deriveable none best member best2
            (order.mem_iff.mpr member2) isBest isBest2 (by omega) below]

/-- The deriveable partials that a dispatch returns, without the loops. -/
theorem mem_deriveable_partials [PartialEquivBEq Val] (entries : List (Entry Val))
    (untied : Untied users entries) (entry : Entry Val) :
    entry ∈ (Prune.prune (shadowVerdict users) (chooseLegal entries).deriveablePartials).filter
        (fun item => !shadowedBy users (chooseLegal entries).partials item) ↔
      (∀ e ∈ entries, isExact e = false) ∧ (entry ∈ entries ∧ isDeriveablePartial entry = true) ∧
        (∀ other ∈ entries, isDeriveablePartial other = true → ¬ Dominates users other entry) ∧
        ∀ other ∈ entries, isPartial other = true →
          ¬ (entry.ups = other.ups ∧
            allArgTypesLe users other.fundef.args entry.fundef.args = true) := by
  rw [choose_deriveable_partials, choose_partials, List.mem_filter]
  cases any : entries.any isExact with
  | true =>
      have some : ¬ ∀ e ∈ entries, isExact e = false := by
        simpa using any
      simp [some, Prune.prune, Prune.pruneFuel]
  | false =>
      have none : ∀ e ∈ entries, isExact e = false := by
        simpa [List.any_eq_false] using any
      have tie := untied.partials none
      rw [if_neg Bool.false_ne_true, mem_prune users (entries.filter isDeriveablePartial)]
      · simp only [List.mem_filter, shadowedBy, Bool.not_eq_true', List.any_eq_false,
          Bool.and_eq_true, beq_iff_eq, and_imp, and_assoc]
        constructor
        · rintro ⟨member, isOne, undominated, unshadowed⟩
          exact ⟨none, member, isOne, undominated, unshadowed⟩
        · rintro ⟨_, member, isOne, undominated, unshadowed⟩
          exact ⟨member, isOne, undominated, unshadowed⟩
      · intro e inE e2 inE2
        rw [List.mem_filter] at inE inE2
        exact tie e inE.1 e2 inE2.1 inE.2 inE2.2

/-- Unless candidates tie, the order of the instances has no influence on what a
dispatch returns. -/
theorem untied_order_independent [PartialEquivBEq Val] (funs : List (FunType Val))
    (args : List (ArrayType Val)) (arity : ∀ f ∈ funs, f.params.length = args.length)
    (untied : Untied users (candidates users args funs)) : OrderIndependent users funs args := by
  intro funs2 reordered uninitialised uninitialised2 res res2 found found2
  obtain ⟨type, same⟩ := dispatch_result users uninitialised funs args arity res found
  obtain ⟨type2, same2⟩ := dispatch_result users uninitialised2 funs2 args
    (fun f member => arity f (reordered.mem_iff.mpr member)) res2 found2
  have order : (candidates users args funs).Perm (candidates users args funs2) :=
    (reordered.map _).filterMap _
  have untied2 : Untied users (candidates users args funs2) := by
    have inFirst : ∀ e, e ∈ candidates users args funs2 → e ∈ candidates users args funs :=
      fun e member => order.mem_iff.mpr member
    have inSecond : ∀ e, e ∈ candidates users args funs → e ∈ candidates users args funs2 :=
      fun e member => order.mem_iff.mp member
    constructor
    · intro e inE e2 inE2
      exact untied.exact e (inFirst e inE) e2 (inFirst e2 inE2)
    · rintro ⟨e, inE, isOne⟩ e2 inE2
      exact untied.scalars ⟨e, inFirst e inE, isOne⟩ e2 (inFirst e2 inE2)
    · intro none e inE e2 inE2 isOne isOne2 same best
      exact untied.deriveable (fun e member => none e (inSecond e member)) e (inFirst e inE) e2
        (inFirst e2 inE2) isOne isOne2 same (fun other member => best other (inSecond other member))
    · intro none e inE e2 inE2
      exact untied.partials (fun e member => none e (inSecond e member)) e (inFirst e inE) e2
        (inFirst e2 inE2)
  subst same same2
  simp only [dftState2dftRes, choose_legal]
  change SameResult
    { type := type, definition := (chooseLegal (candidates users args funs)).definition,
      deriveable := (chooseLegal (candidates users args funs)).deriveable,
      partials := _, deriveablePartials := _ }
    { type := type2, definition := (chooseLegal (candidates users args funs2)).definition,
      deriveable := (chooseLegal (candidates users args funs2)).deriveable,
      partials := _, deriveablePartials := _ }
  constructor
  · exact same_definition users order untied
  · exact same_deriveable users order untied
  · intro f
    simp only [List.mem_map]
    refine exists_congr fun e => and_congr_left fun _ => ?_
    have filtered := order.filter isPartial
    rw [← choose_partials, ← choose_partials] at filtered
    exact filtered.mem_iff
  · intro f
    simp only [List.mem_map]
    refine exists_congr fun e => and_congr_left fun _ => ?_
    have left := mem_deriveable_partials users (candidates users args funs) untied e
    have right := mem_deriveable_partials users (candidates users args funs2) untied2 e
    simp only [order.mem_iff] at left
    exact left.trans right.symm

end Order

section Instances

/-- An instance with the given parameters. -/
def instanceOf (id : Nat) (params : List (ArrayType Int)) : FunType Int :=
  createFuntype [] { id := id, args := params }

/-- int[*] and int[3], called with a vector of three integers. -/
theorem untied_order_independent_vector :
    OrderIndependent noAliases
      [instanceOf 0 [.aud intScalar], instanceOf 1 [.aks intScalar [3]]] [.aks intScalar [3]] := by
  refine untied_order_independent noAliases _ _ (by simp [instanceOf, createFuntype, makeFunType])
    ?_
  have entries : candidates noAliases [.aks intScalar [3]]
      [instanceOf 0 [.aud intScalar], instanceOf 1 [.aks intScalar [3]]] =
      [⟨⟨0, [.aud intScalar]⟩, 0, -3⟩, ⟨⟨1, [.aks intScalar [3]]⟩, 0, 0⟩] := rfl
  rw [entries]
  constructor <;> simp [isExact, isDeriveable, isDeriveablePartial]

/-- Two instances that are equally far above two vectors: the first one wins. -/
theorem tie_decided_by_order :
    ¬ OrderIndependent noAliases
      [instanceOf 0 [.aud intScalar, .akd intScalar 1 [] (by decide)],
        instanceOf 1 [.akd intScalar 1 [] (by decide), .aud intScalar]]
      [.aks intScalar [3], .aks intScalar [3]] := by
  intro independent
  have same := (independent _ (List.Perm.swap _ _ []) none none _ _ rfl rfl).deriveable
  have ids : (some 0 : Option Nat) = some 1 := congrArg (Option.map Fundef.id) same
  cases ids

end Instances

end Sac2c.DispatchOrder
