import Sac2c.LutLoops
import Sac2c.LutSearch
import Mathlib.Data.List.Nodup

/-!
All tables of all look-up tables live in one memory. Each owns the fragments
of its chain, so that the loops over the hash keys of one look-up table leave
the others as they are.
-/

namespace Sac2c.LookUpTable

variable {Value : Type}

/-- The table of a look-up table for a hash key. -/
abbrev Place := Nat × Nat

/-- The tables in memory hold their lists and share no fragment. -/
structure Heap (mem : Memory Value) (tables : Place → Option Table) (chains : Place → Chain)
    (lists : Place → Pairs Value) : Prop where
  holds : ∀ place table, tables place = some table →
    Holds mem table (chains place) (lists place)
  apart : ∀ place other frag, tables place ≠ none → tables other ≠ none →
    InChain (chains place) (lists place) frag → InChain (chains other) (lists other) frag →
      place = other

variable {mem mem' : Memory Value} {tables : Place → Option Table} {chains : Place → Chain}
  {lists : Place → Pairs Value} {table : Table} {chain : Chain} {pairs : Pairs Value}
  {own : Nat → Prop} {place : Place}

theorem Heap.old (heap : Heap mem tables chains lists) (here : tables place ≠ none) {frag : Nat}
    (listed : InChain (chains place) (lists place) frag) : frag < mem.fresh := by
  obtain ⟨table, here⟩ := Option.ne_none_iff_exists'.mp here
  obtain ⟨j, bound, rfl⟩ := listed
  exact (heap.holds place table here).old j bound

/-- The step of every function: one table changes within its own and new fragments. -/
theorem Heap.step (place : Place) (heap : Heap mem tables chains lists)
    (updated : Updated mem own mem' table chain pairs)
    (owned : ∀ frag, own frag →
      tables place ≠ none ∧ InChain (chains place) (lists place) frag) :
    Heap mem' (Function.update tables place (some table)) (Function.update chains place chain)
      (Function.update lists place pairs) := by
  have foreign : ∀ other frag, other ≠ place → tables other ≠ none →
      InChain (chains other) (lists other) frag → ¬ own frag := by
    intro other frag differ there listed taken
    exact differ (heap.apart other place frag there (owned frag taken).1 listed (owned frag taken).2)
  have outside : ∀ other frag, other ≠ place → tables other ≠ none →
      InChain (chains other) (lists other) frag → ¬ InChain chain pairs frag := by
    intro other frag differ there listed new
    rcases updated.within frag new with taken | fresh
    · exact foreign other frag differ there listed taken
    · have := heap.old there listed
      omega
  constructor
  · intro other found there
    by_cases same : other = place
    · subst same
      rw [Function.update_self] at there
      cases there
      rw [Function.update_self, Function.update_self]
      exact updated.holds
    · rw [Function.update_of_ne same] at there
      rw [Function.update_of_ne same, Function.update_of_ne same]
      apply (heap.holds other found there).frame updated.grows
      intro frag listed
      have present : tables other ≠ none := by simp [there]
      exact updated.frame frag (heap.old present listed)
        (foreign other frag same present listed)
  · intro first second frag there too listed listed'
    by_cases isFirst : first = place
    · by_cases isSecond : second = place
      · exact isFirst.trans isSecond.symm
      · subst isFirst
        rw [Function.update_self, Function.update_self] at listed
        rw [Function.update_of_ne isSecond] at too
        rw [Function.update_of_ne isSecond, Function.update_of_ne isSecond] at listed'
        exact absurd listed (outside second frag isSecond too listed')
    · by_cases isSecond : second = place
      · subst isSecond
        rw [Function.update_self, Function.update_self] at listed'
        rw [Function.update_of_ne isFirst] at there
        rw [Function.update_of_ne isFirst, Function.update_of_ne isFirst] at listed
        exact absurd listed' (outside first frag isFirst there listed)
      · rw [Function.update_of_ne isFirst] at there
        rw [Function.update_of_ne isSecond] at too
        rw [Function.update_of_ne isFirst, Function.update_of_ne isFirst] at listed
        rw [Function.update_of_ne isSecond, Function.update_of_ne isSecond] at listed'
        exact heap.apart first second frag there too listed listed'

/-- The step for a table that is there. -/
theorem Heap.step_own (place : Place) (heap : Heap mem tables chains lists)
    (here : tables place ≠ none)
    (updated : Updated mem (InChain (chains place) (lists place)) mem' table chain pairs) :
    Heap mem' (Function.update tables place (some table)) (Function.update chains place chain)
      (Function.update lists place pairs) :=
  heap.step place updated (fun _ listed => ⟨here, listed⟩)

/-- What is no table does not matter. -/
theorem Heap.congr {lists' : Place → Pairs Value} (heap : Heap mem tables chains lists)
    (same : ∀ place, tables place ≠ none → lists place = lists' place) :
    Heap mem tables chains lists' := by
  constructor
  · intro place table here
    rw [← same place (by simp [here])]
    exact heap.holds place table here
  · intro place other frag here there listed listed'
    rw [← same place here] at listed
    rw [← same other there] at listed'
    exact heap.apart place other frag here there listed listed'

section Loops

/-- The tables of one look-up table for some hash keys. -/
def putLut (tables : Place → Option Table) (h : Nat) (lut : Lut) (ks : List Nat) :
    Place → Option Table :=
  fun place => if place.1 = h ∧ place.2 ∈ ks then some (lut place.2) else tables place

def putLists (lists : Place → Pairs Value) (h : Nat) (new : Nat → Pairs Value) (ks : List Nat) :
    Place → Pairs Value :=
  fun place => if place.1 = h ∧ place.2 ∈ ks then new place.2 else lists place

theorem put_lists_cons (h k : Nat) (new : Nat → Pairs Value) (ks : List Nat) :
    putLists (Function.update lists (h, k) (new k)) h new ks = putLists lists h new (k :: ks) := by
  funext ⟨h', k'⟩
  by_cases same : (h', k') = (h, k)
  · cases same
    simp [putLists]
  · have differ : ¬ (h' = h ∧ k' = k) := fun eq => same (Prod.ext eq.1 eq.2)
    simp only [putLists, List.mem_cons, Function.update_of_ne same]
    by_cases listed : h' = h ∧ k' ∈ ks
    · rw [if_pos listed, if_pos ⟨listed.1, Or.inr listed.2⟩]
    · rw [if_neg listed, if_neg (by tauto)]

/-- Once a loop is through with `k`, the table it left there stays. -/
theorem put_lut_cons {h k : Nat} {lut : Lut} {ks : List Nat} (at_k : lut k = table) :
    putLut (Function.update tables (h, k) (some table)) h lut ks =
      putLut tables h lut (k :: ks) := by
  funext ⟨h', k'⟩
  by_cases same : (h', k') = (h, k)
  · cases same
    simp [putLut, at_k]
  · have differ : ¬ (h' = h ∧ k' = k) := fun eq => same (Prod.ext eq.1 eq.2)
    simp only [putLut, List.mem_cons, Function.update_of_ne same]
    by_cases listed : h' = h ∧ k' ∈ ks
    · rw [if_pos listed, if_pos ⟨listed.1, Or.inr listed.2⟩]
    · rw [if_neg listed, if_neg (by tauto)]

theorem put_lut_nil (h : Nat) (lut : Lut) : putLut tables h lut [] = tables := by
  funext place
  simp [putLut]

theorem put_lists_nil (h : Nat) (new : Nat → Pairs Value) : putLists lists h new [] = lists := by
  funext place
  simp [putLists]

variable {h : Nat} {lut : Lut}

theorem other_place {k j : Nat} {ks : List Nat} (unlisted : k ∉ ks) (listed : j ∈ ks) :
    (h, j) ≠ (h, k) := by
  rintro same
  cases same
  exact unlisted listed

theorem map_lut_eq (fun_ : Value → Item → Value) {new : Nat → Pairs Value} {ks : List Nat}
    (distinct : ks.Nodup) (heap : Heap mem tables chains lists)
    (here : ∀ k ∈ ks, tables (h, k) = some (lut k))
    (mapped : ∀ k ∈ ks,
      new k = (lists (h, k)).map (fun pair => (pair.1, fun_ pair.2 pair.1))) :
    ∃ mem', mapLUT fun_ lut ks mem = some mem' ∧
      Heap mem' tables chains (putLists lists h new ks) := by
  induction ks generalizing mem lists with
  | nil =>
      rw [put_lists_nil]
      exact ⟨mem, rfl, heap⟩
  | cons k ks ih =>
      obtain ⟨unlisted, distinct⟩ := List.nodup_cons.mp distinct
      have at_k := here k (List.mem_cons_self ..)
      have holds : Holds mem (lut k) (chains (h, k)) ([] ++ lists (h, k)) := heap.holds _ _ at_k
      obtain ⟨mem₁, run, updated⟩ := map_table_eq fun_ holds
      rw [List.nil_append, List.nil_append, ← mapped k (List.mem_cons_self ..)] at updated
      have stepped := heap.step_own (h, k) (by simp [at_k]) updated
      rw [← at_k, Function.update_eq_self, Function.update_eq_self] at stepped
      have later : ∀ j ∈ ks, new j = (Function.update lists (h, k) (new k) (h, j)).map
          (fun pair => (pair.1, fun_ pair.2 pair.1)) := by
        intro j listed
        rw [Function.update_of_ne (other_place unlisted listed)]
        exact mapped j (List.mem_cons_of_mem k listed)
      obtain ⟨mem', rest, all⟩ := ih distinct stepped
        (fun j listed => here j (List.mem_cons_of_mem k listed)) later
      refine ⟨mem', ?_, ?_⟩
      · rw [mapLUT, holds.size, holds.first_slot]
        exact (Option.bind_eq_some_iff.mpr ⟨mem₁, run, rest⟩)
      · rwa [put_lists_cons] at all

theorem fold_lut_eq {Result : Type} (fun_ : Result → Value → Item → Result) {ks : List Nat}
    (heap : Heap mem tables chains lists) (here : ∀ k ∈ ks, tables (h, k) = some (lut k))
    (init : Result) :
    foldLUT mem fun_ lut ks init = some ((ks.flatMap (fun k => lists (h, k))).foldl
      (fun result pair => fun_ result pair.2 pair.1) init) := by
  induction ks generalizing init with
  | nil => rfl
  | cons k ks ih =>
      have holds := heap.holds _ _ (here k (List.mem_cons_self ..))
      have run := fold_table_eq holds fun_ (List.nil_append _).symm init
      rw [List.flatMap_cons, List.foldl_append, foldLUT, holds.size, holds.first_slot]
      exact (Option.bind_eq_some_iff.mpr
        ⟨_, run, ih (fun j listed => here j (List.mem_cons_of_mem k listed)) _⟩)

theorem remove_lut_eq {ks : List Nat} (distinct : ks.Nodup)
    (heap : Heap mem tables chains lists) (here : ∀ k ∈ ks, tables (h, k) = some (lut k)) :
    ∃ mem' lut' chains', removeTables ks mem lut = some (mem', lut') ∧
      (∀ k, k ∉ ks → lut' k = lut k) ∧
      Heap mem' (putLut tables h lut' ks) chains' (putLists lists h (fun _ => []) ks) := by
  induction ks generalizing mem tables chains lists lut with
  | nil =>
      refine ⟨mem, lut, chains, rfl, fun _ _ => rfl, ?_⟩
      rwa [put_lut_nil, put_lists_nil]
  | cons k ks ih =>
      obtain ⟨unlisted, distinct⟩ := List.nodup_cons.mp distinct
      have at_k := here k (List.mem_cons_self ..)
      obtain ⟨mem₁, first, run, updated⟩ := remove_table_eq (heap.holds _ _ at_k) k
      have stepped := heap.step_own (h, k) (by simp [at_k]) updated
      have later : ∀ j ∈ ks, Function.update tables (h, k) (some ⟨first, first, 0⟩) (h, j) =
          some (Function.update lut k ⟨first, first, 0⟩ j) := by
        intro j listed
        have other : j ≠ k := fun same => unlisted (same ▸ listed)
        rw [Function.update_of_ne (other_place unlisted listed), Function.update_of_ne other]
        exact here j (List.mem_cons_of_mem k listed)
      obtain ⟨mem', lut', chains', rest, kept, all⟩ := ih distinct stepped later
      refine ⟨mem', lut', chains', ?_, ?_, ?_⟩
      · rw [removeTables]
        simp only [Option.bind_eq_bind, run, Option.bind_some]
        exact rest
      · intro j outside
        obtain ⟨differ, outside⟩ := not_or.mp (List.mem_cons.not.mp outside)
        rw [kept j outside, Function.update_of_ne differ]
      · have at_k' : lut' k = ⟨first, first, 0⟩ := by rw [kept k unlisted, Function.update_self]
        rwa [put_lut_cons at_k', put_lists_cons h k (fun _ => [])] at all

theorem generate_lut_eq (lut : Lut) {ks : List Nat} (distinct : ks.Nodup)
    (heap : Heap mem tables chains lists) :
    ∃ chains', (∀ k, k ∉ ks → (generateTables ks mem lut).2 k = lut k) ∧
      Heap (generateTables ks mem lut).1 (putLut tables h (generateTables ks mem lut).2 ks)
        chains' (putLists lists h (fun _ => []) ks) := by
  induction ks generalizing mem tables chains lists lut with
  | nil =>
      refine ⟨chains, fun _ _ => rfl, ?_⟩
      rwa [put_lut_nil, put_lists_nil]
  | cons k ks ih =>
      obtain ⟨unlisted, distinct⟩ := List.nodup_cons.mp distinct
      have stepped := heap.step (h, k) (generate_table_eq mem)
        (fun _ taken => taken.elim)
      obtain ⟨chains', kept, all⟩ := ih
        (Function.update lut k ⟨.at mem.fresh 0, .at mem.fresh 0, 0⟩) distinct stepped
      refine ⟨chains', ?_, ?_⟩
      · intro j outside
        obtain ⟨differ, outside⟩ := not_or.mp (List.mem_cons.not.mp outside)
        rw [generateTables, kept j outside, Function.update_of_ne differ]
      · have at_k := kept k unlisted
        rw [Function.update_self] at at_k
        rw [generateTables]
        rwa [put_lut_cons at_k, put_lists_cons h k (fun _ => [])] at all

theorem duplicate_lut_eq {source : Lut} {new : Nat → Pairs Value} {o : Nat} {ks : List Nat}
    (distinct : ks.Nodup) (differ : o ≠ h) (heap : Heap mem tables chains lists)
    (there : ∀ k ∈ ks, tables (o, k) = some (source k) ∧ lists (o, k) = new k)
    (here : ∀ k ∈ ks, tables (h, k) = some (lut k) ∧ lists (h, k) = []) :
    ∃ mem' lut' chains', duplicateTables source ks mem lut = some (mem', lut') ∧
      (∀ k, k ∉ ks → lut' k = lut k) ∧
      Heap mem' (putLut tables h lut' ks) chains' (putLists lists h new ks) := by
  induction ks generalizing mem tables chains lists lut with
  | nil =>
      refine ⟨mem, lut, chains, rfl, fun _ _ => rfl, ?_⟩
      rwa [put_lut_nil, put_lists_nil]
  | cons k ks ih =>
      obtain ⟨unlisted, distinct⟩ := List.nodup_cons.mp distinct
      obtain ⟨at_k, empty⟩ := here k (List.mem_cons_self ..)
      obtain ⟨from_k, full⟩ := there k (List.mem_cons_self ..)
      have holds : Holds mem (source k) (chains (o, k)) ([] ++ lists (o, k)) :=
        heap.holds _ _ from_k
      have copied := heap.holds _ _ at_k
      rw [full] at holds
      rw [empty] at copied
      have apart : ∀ frag, InChain (chains (o, k)) ([] ++ new k) frag →
          ¬ InChain (chains (h, k)) ([] : Pairs Value) frag := by
        intro frag listed taken
        rw [List.nil_append, ← full] at listed
        rw [← empty] at taken
        have same := heap.apart _ _ frag (by simp [from_k]) (by simp [at_k]) listed taken
        exact differ (Prod.ext_iff.mp same).1
      obtain ⟨mem₁, table, chain, run, updated⟩ :=
        duplicate_table_eq holds copied apart
      rw [List.nil_append, ← empty] at updated
      have stepped := heap.step_own (h, k) (by simp [at_k]) updated
      have away : ∀ j, ((o, j) : Place) ≠ (h, k) := by
        intro j same
        exact differ (Prod.ext_iff.mp same).1
      have laterThere : ∀ j ∈ ks, Function.update tables (h, k) (some table) (o, j) =
          some (source j) ∧ Function.update lists (h, k) (new k) (o, j) = new j := by
        intro j listed
        rw [Function.update_of_ne (away j), Function.update_of_ne (away j)]
        exact there j (List.mem_cons_of_mem k listed)
      have laterHere : ∀ j ∈ ks, Function.update tables (h, k) (some table) (h, j) =
          some (Function.update lut k table j) ∧
            Function.update lists (h, k) (new k) (h, j) = [] := by
        intro j listed
        have other : j ≠ k := fun same => unlisted (same ▸ listed)
        rw [Function.update_of_ne (other_place unlisted listed), Function.update_of_ne other,
          Function.update_of_ne (other_place unlisted listed)]
        exact here j (List.mem_cons_of_mem k listed)
      obtain ⟨mem', lut', chains', rest, kept, all⟩ := ih distinct stepped laterThere laterHere
      refine ⟨mem', lut', chains', ?_, ?_, ?_⟩
      · rw [duplicateTables, holds.size, holds.first_slot, List.nil_append]
        rw [List.length_nil] at run
        simp only [Option.bind_eq_bind, run, Option.bind_some]
        exact rest
      · intro j outside
        obtain ⟨differ, outside⟩ := not_or.mp (List.mem_cons.not.mp outside)
        rw [kept j outside, Function.update_of_ne differ]
      · have at_k' : lut' k = table := by rw [kept k unlisted, Function.update_self]
        rwa [put_lut_cons at_k', put_lists_cons] at all

end Loops

end Sac2c.LookUpTable
