import Sac2c.LutTables

/-!
The loops of MapLUT, LUTduplicateLut and LUTremoveContentLut over one
collision table, and the empty tables of LUTgenerateLut.
-/

namespace Sac2c.LookUpTable

variable {Value : Type} {mem : Memory Value} {table : Table} {chain : Chain}

/-- A fragment without a link is an empty table. -/
theorem holds_nil {frag : Nat} (live : mem.live frag = true) (old : frag < mem.fresh)
    (unlinked : mem.words frag (2 * lutSize) = .uninit) :
    Holds mem ⟨.at frag 0, .at frag 0, 0⟩ (fun _ => frag) [] := by
  have none : lastFragment ([] : Pairs Value) = 0 := Nat.zero_div lutSize
  constructor
  · rfl
  · rfl
  · rfl
  · exact fun _ _ => live
  · exact fun _ _ => old
  · rw [none]
    omega
  · intro i pair here
    cases here
  · intro i pair here
    cases here
  · rw [none]
    intro j linked
    exact absurd linked (Nat.not_lt_zero j)
  · exact unlinked

section Map

/-- `fun_` is called with each pair once, in the order of insertion. -/
theorem map_table_eq (fun_ : Value → Item → Value) {front back : Pairs Value}
    (holds : Holds mem table chain (front ++ back)) :
    ∃ mem', mapTable fun_ back.length front.length (chain.slot front.length) mem = some mem' ∧
      Updated mem (InChain chain (front ++ back)) mem' table chain
        (front ++ back.map (fun pair => (pair.1, fun_ pair.2 pair.1))) := by
  induction back generalizing front mem with
  | nil => exact ⟨mem, rfl, holds.updated⟩
  | cons pair back ih =>
      have here : (front ++ pair :: back)[front.length]? = some pair := by simp
      have inside := (List.getElem?_eq_some_iff.mp here).1
      have changed := holds.set here (fun_ pair.2 pair.1)
      have replaced : (front ++ pair :: back).set front.length (pair.1, fun_ pair.2 pair.1) =
          (front ++ [(pair.1, fun_ pair.2 pair.1)]) ++ back := by simp
      rw [replaced] at changed
      obtain ⟨mem', run, rest⟩ := ih changed.holds
      refine ⟨mem', ?_, ?_⟩
      · rw [List.length_append, List.length_singleton] at run
        rw [List.length_cons, mapTable, holds.load_value here, holds.load_key here]
        simp only [Option.bind_eq_bind, Option.bind_some, holds.store_value inside]
        have stepped := changed.holds.hop (i := front.length) (by simp)
        simp only [stepped, Option.bind_some]
        exact run
      · have both := changed.trans rest
        rwa [← List.append_cons front (pair.1, fun_ pair.2 pair.1)] at both

end Map

section Duplicate

variable {source : Table} {sourceChain : Chain}

theorem duplicate_table_eq {front back : Pairs Value}
    (holds : Holds mem source sourceChain (front ++ back))
    (copied : Holds mem table chain front)
    (apart : ∀ frag, InChain sourceChain (front ++ back) frag → ¬ InChain chain front frag) :
    ∃ mem' table' chain',
      duplicateTable back.length front.length (sourceChain.slot front.length) mem table =
        some (mem', table') ∧
      Updated mem (InChain chain front) mem' table' chain' (front ++ back) := by
  induction back generalizing front mem table chain with
  | nil =>
      rw [List.append_nil]
      exact ⟨mem, table, chain, rfl, copied.updated⟩
  | cons pair back ih =>
      have here : (front ++ pair :: back)[front.length]? = some pair := by simp
      have inside := (List.getElem?_eq_some_iff.mp here).1
      obtain ⟨mem₁, table₁, chain₁, inserted, first⟩ := copied.insert pair.1 pair.2
      have kept : Holds mem₁ source sourceChain ((front ++ [pair]) ++ back) := by
        rw [← List.append_cons]
        apply holds.frame first.grows
        intro frag listed
        obtain ⟨j, bound, rfl⟩ := listed
        exact first.frame _ (holds.old j bound) (apart _ ⟨j, bound, rfl⟩)
      have still : ∀ frag, InChain sourceChain ((front ++ [pair]) ++ back) frag →
          ¬ InChain chain₁ (front ++ [pair]) frag := by
        rw [← List.append_cons]
        intro frag listed copy
        obtain ⟨j, bound, rfl⟩ := listed
        rcases first.within _ copy with owned | new
        · exact apart _ ⟨j, bound, rfl⟩ owned
        · have := holds.old j bound
          omega
      obtain ⟨mem', table', chain', run, rest⟩ := ih kept first.holds still
      refine ⟨mem', table', chain', ?_, ?_⟩
      · rw [List.length_append, List.length_singleton] at run
        have stepped := kept.hop (i := front.length) (by simp)
        rw [List.length_cons, duplicateTable, holds.load_key here, holds.load_value here]
        simp only [Option.bind_eq_bind, Option.bind_some, inserted, stepped]
        exact run
      · rw [List.append_cons]
        exact first.trans rest

end Duplicate

section Remove

variable {pairs : Pairs Value}

/-- Fragments of the chain before the `j`-th have been freed. -/
structure Freed (mem : Memory Value) (chain : Chain) (last j : Nat) (mem' : Memory Value) :
    Prop where
  words : mem'.words = mem.words
  fresh : mem'.fresh = mem.fresh
  live : ∀ i, j ≤ i → i ≤ last → mem'.live (chain i) = true
  others : ∀ frag, (∀ i, i ≤ last → chain i ≠ frag) → mem'.live frag = mem.live frag

theorem Holds.freed (holds : Holds mem table chain pairs) :
    Freed mem chain (lastFragment pairs) 0 mem :=
  ⟨rfl, rfl, fun i _ => holds.live i, fun _ _ => rfl⟩

theorem Freed.step {mem' : Memory Value} {j : Nat} (holds : Holds mem table chain pairs)
    (freed : Freed mem chain (lastFragment pairs) j mem') (more : j < lastFragment pairs) :
    ∃ mem'', mem'.free (.at (chain j) 0) = some mem'' ∧
      Freed mem chain (lastFragment pairs) (j + 1) mem'' := by
  have alive := freed.live j (Nat.le_refl j) (Nat.le_of_lt more)
  refine ⟨{ mem' with live := Function.update mem'.live (chain j) false }, if_pos alive, ?_⟩
  constructor
  · exact freed.words
  · exact freed.fresh
  · intro i behind bound
    have other : chain i ≠ chain j := by
      intro same
      have := holds.distinct i j bound (Nat.le_of_lt more) same
      omega
    exact (Function.update_of_ne other ..).trans (freed.live i (by omega) bound)
  · intro frag foreign
    have other : frag ≠ chain j := fun same => foreign j (Nat.le_of_lt more) same.symm
    exact (Function.update_of_ne other ..).trans (freed.others frag foreign)

theorem Freed.load_link {mem' : Memory Value} {j : Nat} (holds : Holds mem table chain pairs)
    (freed : Freed mem chain (lastFragment pairs) j mem') (more : j < lastFragment pairs) :
    mem'.loadPointer (.at (chain j) (2 * lutSize)) = some (.at (chain (j + 1)) 0) := by
  rw [Memory.loadPointer, load_at (freed.live j (Nat.le_refl j) (Nat.le_of_lt more))
    (Nat.le_refl _), freed.words, holds.links j more]

/-- The last fragment makes up an empty table. -/
theorem Freed.emptied {mem' : Memory Value} (holds : Holds mem table chain pairs)
    (freed : Freed mem chain (lastFragment pairs) (lastFragment pairs) mem') :
    Updated mem (InChain chain pairs) mem'
      ⟨.at (chain (lastFragment pairs)) 0, .at (chain (lastFragment pairs)) 0, 0⟩
      (fun _ => chain (lastFragment pairs)) [] := by
  have last := Nat.le_refl (lastFragment pairs)
  constructor
  · apply holds_nil (freed.live _ last last)
    · rw [freed.fresh]
      exact holds.old _ last
    · rw [freed.words]
      exact holds.unlinked
  · exact Nat.le_of_eq freed.fresh.symm
  · intro frag _ foreign
    rw [freed.words]
    refine ⟨rfl, freed.others frag ?_⟩
    intro i bound same
    exact foreign ⟨i, bound, same⟩
  · rintro frag ⟨_, _, rfl⟩
    exact Or.inl ⟨_, Nat.le_refl _, rfl⟩

theorem remove_fragments_eq {mem' : Memory Value} {n j : Nat}
    (holds : Holds mem table chain pairs)
    (freed : Freed mem chain (lastFragment pairs) j mem') (rest : j + n = lastFragment pairs) :
    ∃ mem'', removeFragments n (.at (chain j) 0) mem' =
        some (mem'', .at (chain (lastFragment pairs)) 0) ∧
      Freed mem chain (lastFragment pairs) (lastFragment pairs) mem'' := by
  induction n generalizing mem' j with
  | zero =>
      subst rest
      exact ⟨mem', rfl, freed⟩
  | succ n ih =>
      have more : j < lastFragment pairs := by omega
      obtain ⟨mem₁, free, next⟩ := freed.step holds more
      obtain ⟨mem'', run, all⟩ := ih next (by omega)
      refine ⟨mem'', ?_, all⟩
      rw [removeFragments, Pointer.add, Nat.zero_add, freed.load_link holds more]
      simp only [Option.bind_eq_bind, Option.bind_some, free]
      exact run

theorem remove_strings_eq {mem' : Memory Value} {front back : Pairs Value}
    (split : pairs = front ++ back) (holds : Holds mem table chain pairs)
    (freed : Freed mem chain (lastFragment pairs) (front.length / lutSize) mem') :
    ∃ mem'', removeStrings back.length front.length (chain.slot front.length)
          (.at (chain (front.length / lutSize)) 0) mem' =
        some (mem'', .at (chain (lastFragment pairs)) 0) ∧
      Freed mem chain (lastFragment pairs) (lastFragment pairs) mem'' := by
  induction back generalizing mem' front with
  | nil =>
      rw [List.append_nil] at split
      subst split
      exact ⟨mem', rfl, freed⟩
  | cons pair back ih =>
      have here : pairs[front.length]? = some pair := by simp [split]
      have inside := (List.getElem?_eq_some_iff.mp here).1
      have further : pairs = (front ++ [pair]) ++ back := by simp [split]
      have bound := offset_lt front.length
      have key : mem'.loadKey (chain.slot front.length) = some pair.1 := by
        rw [Memory.loadKey, Chain.slot, load_at (freed.live _ (Nat.le_refl _)
          (fragment_le (Nat.le_of_lt inside))) (by omega), freed.words,
          holds.keys _ pair here]
      by_cases full : (front.length + 1) % lutSize = 0
      · have reached := fragment_le (by omega : front.length + 1 ≤ pairs.length)
        have next : (front.length + 1) / lutSize = front.length / lutSize + 1 := by
          unfold lutSize at *
          omega
        have more : front.length / lutSize < lastFragment pairs := by omega
        obtain ⟨mem₁, free, advanced⟩ := freed.step holds more
        rw [← next, ← List.length_singleton (a := pair), ← List.length_append] at advanced
        obtain ⟨mem'', run, all⟩ := ih further advanced
        refine ⟨mem'', ?_, all⟩
        rw [List.length_append, List.length_singleton, slot_succ_of_full full, next] at run
        rw [List.length_cons, removeStrings, key]
        simp only [Option.bind_eq_bind, Option.bind_some, if_pos full, slot_add_of_full full,
          freed.load_link holds more, free]
        exact run
      · have next : (front.length + 1) / lutSize = front.length / lutSize := by
          unfold lutSize at *
          omega
        rw [← next, ← List.length_singleton (a := pair), ← List.length_append] at freed
        obtain ⟨mem'', run, all⟩ := ih further freed
        refine ⟨mem'', ?_, all⟩
        rw [List.length_append, List.length_singleton, slot_succ_of_room full, next] at run
        rw [List.length_cons, removeStrings, key]
        simp only [Option.bind_eq_bind, Option.bind_some, if_neg full]
        exact run

/-- One round of the loops of `LUTremoveContentLut`. -/
theorem remove_table_eq (holds : Holds mem table chain pairs) (k : Nat) :
    ∃ mem' first, removeTable k table mem = some (mem', first) ∧
      Updated mem (InChain chain pairs) mem' ⟨first, first, 0⟩
        (fun _ => chain (lastFragment pairs)) [] := by
  rw [removeTable, holds.size, holds.first]
  split
  · obtain ⟨mem', run, freed⟩ := remove_fragments_eq (n := lastFragment pairs) holds holds.freed
      (Nat.zero_add _)
    exact ⟨mem', _, run, freed.emptied holds⟩
  · have start : ([] : Pairs Value).length / lutSize = 0 := Nat.zero_div lutSize
    obtain ⟨mem', run, freed⟩ := remove_strings_eq (List.nil_append pairs).symm holds
      (start.symm ▸ holds.freed)
    rw [start, List.length_nil, ← holds.first_slot, holds.first] at run
    exact ⟨mem', _, run, freed.emptied holds⟩

end Remove

/-- One round of the loop of `LUTgenerateLut`. -/
theorem generate_table_eq (mem : Memory Value) :
    Updated mem (fun _ => False) mem.malloc ⟨.at mem.fresh 0, .at mem.fresh 0, 0⟩
      (fun _ => mem.fresh) [] := by
  constructor
  · apply holds_nil (Function.update_self ..) (Nat.lt_succ_self _)
    simp [Memory.malloc]
  · exact Nat.le_succ _
  · intro frag old _
    have other := Nat.ne_of_lt old
    exact ⟨Function.update_of_ne other .., Function.update_of_ne other ..⟩
  · rintro frag ⟨_, _, rfl⟩
    exact Or.inr (Nat.le_refl _)

end Sac2c.LookUpTable
