import Sac2c.LookUpTable

/-!
What the fragments of a collision table hold: a list of pairs in the order in
which they were inserted. Each loop over a table visits this list.
-/

namespace Sac2c.LookUpTable

variable {Value : Type}

/-- The fragments of a table in the order of their links. -/
abbrev Chain := Nat → Nat

/-- Where the pair with an index is, or would be. -/
def Chain.slot (chain : Chain) (i : Nat) : Pointer :=
  .at (chain (i / lutSize)) (2 * (i % lutSize))

abbrev Pairs (Value : Type) := List (Item × Value)

/-- The index of the last fragment; it is never full. -/
def lastFragment (pairs : Pairs Value) : Nat := pairs.length / lutSize

/-- A table holds the pairs in the fragments of the chain. -/
structure Holds (mem : Memory Value) (table : Table) (chain : Chain) (pairs : Pairs Value) :
    Prop where
  first : table.first = .at (chain 0) 0
  next : table.next = chain.slot pairs.length
  size : table.size = pairs.length
  live : ∀ j, j ≤ lastFragment pairs → mem.live (chain j) = true
  old : ∀ j, j ≤ lastFragment pairs → chain j < mem.fresh
  distinct : ∀ i j, i ≤ lastFragment pairs → j ≤ lastFragment pairs → chain i = chain j → i = j
  keys : ∀ i pair, pairs[i]? = some pair →
    mem.words (chain (i / lutSize)) (2 * (i % lutSize)) = .key pair.1
  values : ∀ i pair, pairs[i]? = some pair →
    mem.words (chain (i / lutSize)) (2 * (i % lutSize) + 1) = .value pair.2
  links : ∀ j, j < lastFragment pairs →
    mem.words (chain j) (2 * lutSize) = .link (.at (chain (j + 1)) 0)
  unlinked : mem.words (chain (lastFragment pairs)) (2 * lutSize) = .uninit

section Slots

theorem fragment_le {pairs : Pairs Value} {i : Nat} (inside : i ≤ pairs.length) :
    i / lutSize ≤ lastFragment pairs :=
  Nat.div_le_div_right inside

theorem offset_lt (i : Nat) : i % lutSize < lutSize :=
  Nat.mod_lt i (by decide)

/-- The index behind one that ends a fragment begins the next fragment. -/
theorem slot_succ_of_full {chain : Chain} {i : Nat} (full : (i + 1) % lutSize = 0) :
    chain.slot (i + 1) = .at (chain (i / lutSize + 1)) 0 := by
  have next : (i + 1) / lutSize = i / lutSize + 1 := by
    unfold lutSize at *
    omega
  rw [Chain.slot, next, full]

theorem slot_succ_of_room {chain : Chain} {i : Nat} (room : (i + 1) % lutSize ≠ 0) :
    chain.slot (i + 1) = (chain.slot i).add 2 := by
  have same : (i + 1) / lutSize = i / lutSize := by
    unfold lutSize at *
    omega
  have offset : 2 * ((i + 1) % lutSize) = 2 * (i % lutSize) + 2 := by
    unfold lutSize at *
    omega
  rw [Chain.slot, same, offset]
  rfl

theorem slot_add_of_full {chain : Chain} {i : Nat} (full : (i + 1) % lutSize = 0) :
    (chain.slot i).add 2 = .at (chain (i / lutSize)) (2 * lutSize) := by
  have offset : 2 * (i % lutSize) + 2 = 2 * lutSize := by
    unfold lutSize at *
    omega
  rw [Chain.slot, Pointer.add, offset]

end Slots

section Access

variable {mem : Memory Value} {frag slot : Nat}

theorem load_at (live : mem.live frag = true) (inside : slot ≤ 2 * lutSize) :
    mem.load (.at frag slot) = some (mem.words frag slot) :=
  if_pos ⟨live, inside⟩

theorem store_at (live : mem.live frag = true) (inside : slot ≤ 2 * lutSize)
    (word : Word Value) : mem.store word (.at frag slot) = some (mem.write frag slot word) :=
  if_pos ⟨live, inside⟩

theorem write_words (word : Word Value) (frag' slot' : Nat) :
    (mem.write frag slot word).words frag' slot' =
      if frag' = frag ∧ slot' = slot then word else mem.words frag' slot' := by
  by_cases same : frag' = frag
  · subst same
    by_cases here : slot' = slot
    · simp [Memory.write, here]
    · simp [Memory.write, here]
  · simp [Memory.write, same]

end Access

section Visits

variable {mem : Memory Value} {table : Table} {chain : Chain} {pairs : Pairs Value}

theorem Holds.load_key (holds : Holds mem table chain pairs) {i : Nat} {pair : Item × Value}
    (here : pairs[i]? = some pair) : mem.loadKey (chain.slot i) = some pair.1 := by
  have inside := (List.getElem?_eq_some_iff.mp here).1
  have bound := offset_lt i
  rw [Memory.loadKey, Chain.slot,
    load_at (holds.live _ (fragment_le (Nat.le_of_lt inside))) (by omega),
    holds.keys i pair here]

theorem Holds.load_value (holds : Holds mem table chain pairs) {i : Nat} {pair : Item × Value}
    (here : pairs[i]? = some pair) :
    mem.loadValue ((chain.slot i).add 1) = some pair.2 := by
  have inside := (List.getElem?_eq_some_iff.mp here).1
  have bound := offset_lt i
  rw [Memory.loadValue, Chain.slot, Pointer.add,
    load_at (holds.live _ (fragment_le (Nat.le_of_lt inside))) (by omega), holds.values i pair here]

/-- The step of every loop over a table. -/
theorem Holds.hop (holds : Holds mem table chain pairs) {i : Nat} (inside : i < pairs.length) :
    hop mem i ((chain.slot i).add 2) = some (chain.slot (i + 1)) := by
  by_cases full : (i + 1) % lutSize = 0
  · have linked : i / lutSize < lastFragment pairs := by
      have reached := fragment_le (Nat.succ_le_of_lt inside)
      unfold lastFragment lutSize at *
      omega
    rw [LookUpTable.hop, if_pos full, slot_add_of_full full, slot_succ_of_full full,
      Memory.loadPointer, load_at (holds.live _ (Nat.le_of_lt linked)) (Nat.le_refl _),
      holds.links _ linked]
  · rw [LookUpTable.hop, if_neg full, slot_succ_of_room full]

theorem Holds.first_slot (holds : Holds mem table chain pairs) :
    table.first = chain.slot 0 := holds.first

theorem fold_table_eq {Result : Type} (holds : Holds mem table chain pairs)
    (fun_ : Result → Value → Item → Result) {front back : Pairs Value}
    (split : pairs = front ++ back) (init : Result) :
    foldTable mem fun_ back.length front.length (chain.slot front.length) init =
      some (back.foldl (fun result pair => fun_ result pair.2 pair.1) init) := by
  induction back generalizing front init with
  | nil => rfl
  | cons pair back ih =>
      have here : pairs[front.length]? = some pair := by simp [split]
      have inside := (List.getElem?_eq_some_iff.mp here).1
      have further : pairs = (front ++ [pair]) ++ back := by simp [split]
      have rest := ih further (fun_ init pair.2 pair.1)
      rw [List.length_append, List.length_singleton] at rest
      rw [List.length_cons, foldTable, holds.load_value here, holds.load_key here,
        holds.hop inside]
      exact rest

end Visits

section Updates

/-- The fragments of a table. -/
def InChain (chain : Chain) (pairs : Pairs Value) (frag : Nat) : Prop :=
  ∃ j, j ≤ lastFragment pairs ∧ chain j = frag

/-- A table that only fragments of its own, or new ones, have been used for. -/
structure Updated (mem : Memory Value) (own : Nat → Prop) (mem' : Memory Value)
    (table : Table) (chain : Chain) (pairs : Pairs Value) : Prop where
  holds : Holds mem' table chain pairs
  grows : mem.fresh ≤ mem'.fresh
  frame : ∀ frag, frag < mem.fresh → ¬ own frag →
    mem'.words frag = mem.words frag ∧ mem'.live frag = mem.live frag
  within : ∀ frag, InChain chain pairs frag → own frag ∨ mem.fresh ≤ frag

variable {mem mem' mem'' : Memory Value} {table table' : Table} {chain chain' : Chain}
  {pairs pairs' : Pairs Value} {own : Nat → Prop}

theorem Holds.updated (holds : Holds mem table chain pairs) :
    Updated mem (InChain chain pairs) mem table chain pairs :=
  ⟨holds, Nat.le_refl _, fun _ _ _ => ⟨rfl, rfl⟩, fun _ => Or.inl⟩

theorem Updated.trans (first : Updated mem own mem' table chain pairs)
    (second : Updated mem' (InChain chain pairs) mem'' table' chain' pairs') :
    Updated mem own mem'' table' chain' pairs' := by
  constructor
  · exact second.holds
  · exact Nat.le_trans first.grows second.grows
  · intro frag old foreign
    have outside : ¬ InChain chain pairs frag := by
      intro listed
      rcases first.within frag listed with owned | new
      · exact foreign owned
      · omega
    have kept := second.frame frag (Nat.lt_of_lt_of_le old first.grows) outside
    rw [kept.1, kept.2]
    exact first.frame frag old foreign
  · intro frag listed
    rcases second.within frag listed with earlier | new
    · exact first.within frag earlier
    · exact Or.inr (Nat.le_trans first.grows new)

/-- A table whose fragments are not touched still holds its pairs. -/
theorem Holds.frame (holds : Holds mem table chain pairs) (grows : mem.fresh ≤ mem'.fresh)
    (same : ∀ frag, InChain chain pairs frag →
      mem'.words frag = mem.words frag ∧ mem'.live frag = mem.live frag) :
    Holds mem' table chain pairs := by
  have words : ∀ j, j ≤ lastFragment pairs → mem'.words (chain j) = mem.words (chain j) :=
    fun j bound => (same _ ⟨j, bound, rfl⟩).1
  have inside : ∀ i pair, pairs[i]? = some pair → i / lutSize ≤ lastFragment pairs :=
    fun i pair here => fragment_le (Nat.le_of_lt (List.getElem?_eq_some_iff.mp here).1)
  constructor
  · exact holds.first
  · exact holds.next
  · exact holds.size
  · intro j bound
    rw [(same _ ⟨j, bound, rfl⟩).2]
    exact holds.live j bound
  · exact fun j bound => Nat.lt_of_lt_of_le (holds.old j bound) grows
  · exact holds.distinct
  · intro i pair here
    rw [words _ (inside i pair here)]
    exact holds.keys i pair here
  · intro i pair here
    rw [words _ (inside i pair here)]
    exact holds.values i pair here
  · intro j linked
    rw [words j (Nat.le_of_lt linked)]
    exact holds.links j linked
  · rw [words _ (Nat.le_refl _)]
    exact holds.unlinked

end Updates

section Insert

variable {mem : Memory Value} {table : Table} {chain : Chain} {pairs : Pairs Value}

/-- The memory after the words of one more pair have been written. -/
def Memory.writePair (mem : Memory Value) (chain : Chain) (i : Nat) (pair : Item × Value) :
    Memory Value :=
  (mem.write (chain (i / lutSize)) (2 * (i % lutSize)) (.key pair.1)).write
    (chain (i / lutSize)) (2 * (i % lutSize) + 1) (.value pair.2)

theorem write_pair_other (i : Nat) (pair : Item × Value) {frag : Nat}
    (other : frag ≠ chain (i / lutSize)) :
    (mem.writePair chain i pair).words frag = mem.words frag := by
  funext slot
  rw [Memory.writePair, write_words, write_words]
  simp [other]

theorem write_pair_fresh (i : Nat) (pair : Item × Value) :
    (mem.writePair chain i pair).fresh = mem.fresh := rfl

theorem write_pair_link (i : Nat) (pair : Item × Value) (frag : Nat) :
    (mem.writePair chain i pair).words frag (2 * lutSize) = mem.words frag (2 * lutSize) := by
  have bound := offset_lt i
  rw [Memory.writePair, write_words, write_words, if_neg (by omega), if_neg (by omega)]

theorem Holds.write_pair_words (holds : Holds mem table chain pairs) (new : Item × Value)
    {i : Nat} {pair : Item × Value} (here : (pairs ++ [new])[i]? = some pair) :
    (mem.writePair chain pairs.length new).words (chain (i / lutSize)) (2 * (i % lutSize)) =
        .key pair.1 ∧
      (mem.writePair chain pairs.length new).words (chain (i / lutSize))
        (2 * (i % lutSize) + 1) = .value pair.2 := by
  rcases Nat.lt_or_ge i pairs.length with inside | behind
  · rw [List.getElem?_append_left inside] at here
    have apart : chain (i / lutSize) = chain (pairs.length / lutSize) →
        i % lutSize ≠ pairs.length % lutSize := by
      intro same
      have fragment := holds.distinct _ _ (fragment_le (Nat.le_of_lt inside))
        (Nat.le_refl _) same
      unfold lastFragment lutSize at *
      omega
    rw [Memory.writePair, write_words, write_words, write_words, write_words,
      if_neg (by omega), if_neg (by omega), if_neg (by omega), if_neg (by omega)]
    exact ⟨holds.keys i pair here, holds.values i pair here⟩
  · have last : i = pairs.length := by
      have bound := (List.getElem?_eq_some_iff.mp here).1
      simp at bound
      omega
    subst last
    simp at here
    subst here
    simp [Memory.writePair, write_words]

theorem Holds.store_pair (holds : Holds mem table chain pairs) (new : Item × Value) :
    (do let mem ← mem.store (.key new.1) table.next
        mem.store (.value new.2) (table.next.add 1)) =
      some (mem.writePair chain pairs.length new) := by
  have live := holds.live (pairs.length / lutSize) (Nat.le_refl _)
  have bound := offset_lt pairs.length
  rw [holds.next, Chain.slot, Pointer.add,
    store_at live (by omega : 2 * (pairs.length % lutSize) ≤ 2 * lutSize)]
  have room : 2 * (pairs.length % lutSize) + 1 ≤ 2 * lutSize := by omega
  have written : (mem.write (chain (pairs.length / lutSize)) (2 * (pairs.length % lutSize))
      (.key new.1)).live (chain (pairs.length / lutSize)) = true := live
  exact store_at written room _

/-- The table after an insertion that leaves room in the last fragment. -/
theorem Holds.push_room (holds : Holds mem table chain pairs) (new : Item × Value)
    (room : (pairs.length + 1) % lutSize ≠ 0) :
    Updated mem (InChain chain pairs) (mem.writePair chain pairs.length new)
      { table with next := table.next.add 2, size := table.size + 1 } chain (pairs ++ [new]) := by
  have last : lastFragment (pairs ++ [new]) = lastFragment pairs := by
    rw [lastFragment, lastFragment, List.length_append, List.length_singleton]
    unfold lutSize at *
    omega
  constructor
  · constructor
    · exact holds.first
    · rw [List.length_append, List.length_singleton, slot_succ_of_room room, holds.next]
    · rw [List.length_append, List.length_singleton, holds.size]
    · rw [last]
      exact holds.live
    · rw [last]
      exact holds.old
    · rw [last]
      exact holds.distinct
    · exact fun i pair here => (holds.write_pair_words new here).1
    · exact fun i pair here => (holds.write_pair_words new here).2
    · intro j linked
      rw [write_pair_link]
      exact holds.links j (last ▸ linked)
    · rw [write_pair_link, last]
      exact holds.unlinked
  · exact Nat.le_refl _
  · intro frag _ foreign
    refine ⟨write_pair_other _ _ ?_, rfl⟩
    rintro rfl
    exact foreign ⟨_, Nat.le_refl _, rfl⟩
  · intro frag listed
    rw [InChain, last] at listed
    exact Or.inl listed

/-- A new fragment, linked behind the last one. -/
def Memory.extend (mem : Memory Value) (frag : Nat) : Memory Value :=
  mem.malloc.write frag (2 * lutSize) (.link (.at mem.fresh 0))

theorem extend_words (frag frag' slot : Nat) : (mem.extend frag).words frag' slot =
    if frag' = frag ∧ slot = 2 * lutSize then .link (.at mem.fresh 0)
    else if frag' = mem.fresh then .uninit else mem.words frag' slot := by
  rw [Memory.extend, write_words]
  split_ifs with here new
  · rfl
  · simp [Memory.malloc, new]
  · simp [Memory.malloc, new]

/-- The fragments with a new one behind the last. -/
def Chain.extend (chain : Chain) (last frag : Nat) : Chain :=
  Function.update chain (last + 1) frag

theorem extend_kept {last frag j : Nat} (listed : j ≤ last) :
    chain.extend last frag j = chain j :=
  Function.update_of_ne (by omega) ..

theorem extend_added (last frag : Nat) : chain.extend last frag (last + 1) = frag :=
  Function.update_self ..

theorem forall_extend {last frag : Nat} {P : Nat → Prop}
    (older : ∀ j, j ≤ last → P (chain j)) (newest : P frag) :
    ∀ j, j ≤ last + 1 → P (chain.extend last frag j) := by
  intro j bound
  rcases Nat.lt_or_ge last j with new | listed
  · rw [show j = last + 1 by omega, extend_added]
    exact newest
  · rw [extend_kept listed]
    exact older j listed

theorem distinct_extend {last frag : Nat}
    (distinct : ∀ i j, i ≤ last → j ≤ last → chain i = chain j → i = j)
    (fresh : ∀ j, j ≤ last → chain j ≠ frag) :
    ∀ i j, i ≤ last + 1 → j ≤ last + 1 →
      chain.extend last frag i = chain.extend last frag j → i = j := by
  intro i j boundI boundJ same
  rcases Nat.lt_or_ge last i with newI | listedI <;>
    rcases Nat.lt_or_ge last j with newJ | listedJ
  · omega
  · rw [show i = last + 1 by omega, extend_added, extend_kept listedJ] at same
    exact absurd same.symm (fresh j listedJ)
  · rw [show j = last + 1 by omega, extend_added, extend_kept listedI] at same
    exact absurd same (fresh i listedI)
  · rw [extend_kept listedI, extend_kept listedJ] at same
    exact distinct i j listedI listedJ same

/-- Linking a new fragment behind the last one changes no pair. -/
theorem Holds.extended_words (holds : Holds mem table chain pairs) (new : Item × Value)
    {i slot : Nat} {pair : Item × Value} (here : (pairs ++ [new])[i]? = some pair)
    (inPair : slot ≤ 2 * (i % lutSize) + 1) :
    ((mem.writePair chain pairs.length new).extend (chain (lastFragment pairs))).words
        (chain.extend (lastFragment pairs) mem.fresh (i / lutSize)) slot =
      (mem.writePair chain pairs.length new).words (chain (i / lutSize)) slot := by
  have bound := (List.getElem?_eq_some_iff.mp here).1
  rw [List.length_append, List.length_singleton] at bound
  have listed : i / lutSize ≤ lastFragment pairs := fragment_le (by omega)
  have room := offset_lt i
  have older := Nat.ne_of_lt (holds.old _ listed)
  rw [extend_kept listed, extend_words, if_neg (by omega), write_pair_fresh,
    if_neg older]

theorem Holds.extended_links (holds : Holds mem table chain pairs) (new : Item × Value) {j : Nat}
    (linked : j < lastFragment pairs + 1) :
    ((mem.writePair chain pairs.length new).extend (chain (lastFragment pairs))).words
        (chain.extend (lastFragment pairs) mem.fresh j) (2 * lutSize) =
      .link (.at (chain.extend (lastFragment pairs) mem.fresh (j + 1)) 0) := by
  rcases Nat.lt_or_ge j (lastFragment pairs) with inner | final
  · have listed := Nat.le_of_lt inner
    have apart : chain j ≠ chain (lastFragment pairs) := by
      intro same
      have := holds.distinct _ _ listed (Nat.le_refl _) same
      omega
    have older := Nat.ne_of_lt (holds.old j listed)
    rw [extend_kept listed, extend_kept inner, extend_words,
      if_neg (fun here => apart here.1), write_pair_fresh, if_neg older, write_pair_link]
    exact holds.links j inner
  · have same : j = lastFragment pairs := by omega
    rw [same, extend_added, extend_kept (Nat.le_refl _), extend_words,
      if_pos ⟨rfl, rfl⟩]
    rfl

/-- The table after an insertion that fills the last fragment. -/
theorem Holds.push_full (holds : Holds mem table chain pairs) (new : Item × Value)
    (full : (pairs.length + 1) % lutSize = 0) :
    Updated mem (InChain chain pairs)
      ((mem.writePair chain pairs.length new).extend (chain (lastFragment pairs)))
      { table with next := .at mem.fresh 0, size := table.size + 1 }
      (chain.extend (lastFragment pairs) mem.fresh) (pairs ++ [new]) := by
  have last : lastFragment (pairs ++ [new]) = lastFragment pairs + 1 := by
    rw [lastFragment, lastFragment, List.length_append, List.length_singleton]
    unfold lutSize at *
    omega
  -- the new fragment is a fresh one, unlike those of the chain
  have older : ∀ j, j ≤ lastFragment pairs → chain j ≠ mem.fresh :=
    fun j bound => Nat.ne_of_lt (holds.old j bound)
  constructor
  case holds =>
    constructor
    case first =>
      rw [extend_kept (Nat.zero_le _)]
      exact holds.first
    case next =>
      rw [List.length_append, List.length_singleton, slot_succ_of_full full]
      rw [show pairs.length / lutSize + 1 = lastFragment pairs + 1 from rfl, extend_added]
    case size => rw [List.length_append, List.length_singleton, holds.size]
    case live =>
      rw [last]
      refine forall_extend (P := fun frag => (Function.update mem.live mem.fresh true) frag = true)
        (fun j listed => ?_) (Function.update_self ..)
      exact (Function.update_of_ne (older j listed) ..).trans (holds.live j listed)
    case old =>
      rw [last]
      exact forall_extend (P := fun frag => frag < mem.fresh + 1)
        (fun j listed => Nat.lt_succ_of_lt (holds.old j listed)) (Nat.lt_succ_self _)
    case distinct =>
      rw [last]
      exact distinct_extend holds.distinct older
    case keys =>
      intro i pair here
      rw [holds.extended_words new here (by omega)]
      exact (holds.write_pair_words new here).1
    case values =>
      intro i pair here
      rw [holds.extended_words new here (by omega)]
      exact (holds.write_pair_words new here).2
    case links =>
      intro j linked
      exact holds.extended_links new (last ▸ linked)
    case unlinked =>
      rw [last, extend_added, extend_words, if_neg, write_pair_fresh, if_pos rfl]
      exact fun here => older _ (Nat.le_refl _) here.1.symm
  case grows => exact Nat.le_succ _
  case frame =>
    intro frag old foreign
    have apart : frag ≠ chain (lastFragment pairs) := by
      rintro rfl
      exact foreign ⟨_, Nat.le_refl _, rfl⟩
    have unused : frag ≠ mem.fresh := by omega
    constructor
    · funext slot
      rw [extend_words, if_neg (fun here => apart here.1), write_pair_fresh,
        if_neg unused, write_pair_other _ _ apart]
    · exact Function.update_of_ne unused ..
  case within =>
    rintro frag ⟨j, bound, rfl⟩
    refine forall_extend (P := fun frag => InChain chain pairs frag ∨ mem.fresh ≤ frag)
      (fun j listed => Or.inl ⟨j, listed, rfl⟩) (Or.inr (Nat.le_refl _)) j (last ▸ bound)

theorem Holds.insert (holds : Holds mem table chain pairs) (key : Item) (value : Value) :
    ∃ mem' table' chain', insertIntoLUT mem table key value = some (mem', table') ∧
      Updated mem (InChain chain pairs) mem' table' chain' (pairs ++ [(key, value)]) := by
  have stored := holds.store_pair (key, value)
  rw [Option.bind_eq_bind, Option.bind_eq_some_iff] at stored
  obtain ⟨mem', first, second⟩ := stored
  have live := holds.live (lastFragment pairs) (Nat.le_refl _)
  have old := holds.old (lastFragment pairs) (Nat.le_refl _)
  by_cases full : (pairs.length + 1) % lutSize = 0
  · refine ⟨_, _, _, ?_, holds.push_full (key, value) full⟩
    have next : table.next.add 2 = .at (chain (lastFragment pairs)) (2 * lutSize) := by
      rw [holds.next, slot_add_of_full full]
      rfl
    have alive : (mem.writePair chain pairs.length (key, value)).malloc.live
        (chain (lastFragment pairs)) = true :=
      (Function.update_of_ne (Nat.ne_of_lt old) ..).trans live
    have linked : ((mem.writePair chain pairs.length (key, value)).extend
        (chain (lastFragment pairs))).loadPointer
          (.at (chain (lastFragment pairs)) (2 * lutSize)) = some (.at mem.fresh 0) := by
      have extended : ((mem.writePair chain pairs.length (key, value)).extend
          (chain (lastFragment pairs))).live (chain (lastFragment pairs)) = true := alive
      rw [Memory.loadPointer, load_at extended (Nat.le_refl _), extend_words, if_pos ⟨rfl, rfl⟩]
      rfl
    simp only [insertIntoLUT, first, second, Option.bind_eq_bind, Option.bind_some, holds.size,
      if_pos full, next, store_at alive (Nat.le_refl _)]
    rw [← Memory.extend, linked]
    rfl
  · refine ⟨_, _, _, ?_, holds.push_room (key, value) full⟩
    simp only [insertIntoLUT, first, second, Option.bind_eq_bind, Option.bind_some, holds.size,
      if_neg full]

end Insert

section Write

variable {mem : Memory Value} {table : Table} {chain : Chain} {pairs : Pairs Value}

/-- The memory after a new value has been written to the slot of a pair. -/
def Memory.writeValue (mem : Memory Value) (chain : Chain) (i : Nat) (value : Value) :
    Memory Value :=
  mem.write (chain (i / lutSize)) (2 * (i % lutSize) + 1) (.value value)

theorem Holds.store_value (holds : Holds mem table chain pairs) {i : Nat}
    (inside : i < pairs.length) (value : Value) :
    mem.store (.value value) ((chain.slot i).add 1) = some (mem.writeValue chain i value) := by
  have bound := offset_lt i
  exact store_at (holds.live _ (fragment_le (Nat.le_of_lt inside))) (by omega) _

theorem Holds.set (holds : Holds mem table chain pairs) {i : Nat} {key : Item} {old : Value}
    (here : pairs[i]? = some (key, old)) (value : Value) :
    Updated mem (InChain chain pairs) (mem.writeValue chain i value) table chain
      (pairs.set i (key, value)) := by
  have inside := (List.getElem?_eq_some_iff.mp here).1
  have same : lastFragment (pairs.set i (key, value)) = lastFragment pairs := by
    rw [lastFragment, List.length_set, lastFragment]
  -- keys and links stand in the even words, of which none is written
  have even : ∀ frag slot, (mem.writeValue chain i value).words frag (2 * slot) =
      mem.words frag (2 * slot) := by
    intro frag slot
    rw [Memory.writeValue, write_words, if_neg (by omega)]
  constructor
  · constructor
    · exact holds.first
    · rw [List.length_set]
      exact holds.next
    · rw [List.length_set]
      exact holds.size
    · rw [same]
      exact holds.live
    · rw [same]
      exact holds.old
    · rw [same]
      exact holds.distinct
    · intro j pair there
      rw [even]
      by_cases this : i = j
      · subst this
        rw [List.getElem?_set_self inside] at there
        cases there
        exact holds.keys i (key, old) here
      · rw [List.getElem?_set_ne this] at there
        exact holds.keys j pair there
    · intro j pair there
      rw [Memory.writeValue, write_words]
      by_cases this : i = j
      · subst this
        rw [List.getElem?_set_self inside] at there
        cases there
        rw [if_pos ⟨rfl, rfl⟩]
      · rw [List.getElem?_set_ne this] at there
        have insideJ := (List.getElem?_eq_some_iff.mp there).1
        rw [if_neg]
        · exact holds.values j pair there
        · rintro ⟨fragment, slot⟩
          have := holds.distinct _ _ (fragment_le (Nat.le_of_lt insideJ))
            (fragment_le (Nat.le_of_lt inside)) fragment
          unfold lutSize at *
          omega
    · intro j linked
      rw [even]
      exact holds.links j (same ▸ linked)
    · rw [even, same]
      exact holds.unlinked
  · exact Nat.le_refl _
  · intro frag _ foreign
    refine ⟨?_, rfl⟩
    funext slot
    rw [Memory.writeValue, write_words, if_neg]
    rintro ⟨rfl, -⟩
    exact foreign ⟨_, fragment_le (Nat.le_of_lt inside), rfl⟩
  · intro frag listed
    rw [InChain, same] at listed
    exact Or.inl listed

end Write

end Sac2c.LookUpTable
