import Sac2c.LutTables

/-!
Searching a collision table. The position of a search outlives the call in
static variables; behind the last pair it moves on through words that nobody
has written.
-/

namespace Sac2c.LookUpTable

variable {Value : Type}

/-- The indices of the pairs with a key, counted from `i`. -/
def positions (oldItem : Item) : Nat → Pairs Value → List Nat
  | _, [] => []
  | i, pair :: pairs =>
      if isEqual pair.1 oldItem then i :: positions oldItem (i + 1) pairs
      else positions oldItem (i + 1) pairs

/-- Behind a position the search sees the pairs behind it. -/
theorem positions_cons {oldItem : Item} {pairs : Pairs Value} {start i : Nat} {others : List Nat}
    (ahead : positions oldItem start (pairs.drop start) = i :: others) :
    i < pairs.length ∧ others = positions oldItem (i + 1) (pairs.drop (i + 1)) := by
  induction rest : pairs.drop start generalizing start with
  | nil =>
      rw [rest] at ahead
      cases ahead
  | cons pair back ih =>
      have inside : start < pairs.length := by
        by_contra outside
        rw [List.drop_eq_nil_of_le (by omega)] at rest
        cases rest
      have tail : pairs.drop (start + 1) = back := by
        rw [← List.drop_drop, rest]
        rfl
      rw [rest, positions] at ahead
      split at ahead
      · cases ahead
        exact ⟨inside, by rw [tail]⟩
      · exact ih (tail.symm ▸ ahead) tail

/-- The slots of the values at these positions. -/
def Chain.slots (chain : Chain) (indices : List Nat) : List Pointer :=
  indices.map (fun i => (chain.slot i).add 1)

/-- What one slot after the other and then nothing looks like to `n` calls. -/
def answers {α : Type} : List α → Nat → List (Option α)
  | _, 0 => []
  | slots, n + 1 => slots.head? :: answers slots.tail n

/-- `n` calls of `LUTsearchInLutNextP` or `LUTsearchInLutNextS`. -/
def searchNexts (mem : Memory Value) : Nat → Store → Option (List (Option Pointer) × Store)
  | 0, store => some ([], store)
  | n + 1, store => do
      let (newItemP, store) ← searchNext mem store
      let (others, store) ← searchNexts mem n store
      some (newItemP :: others, store)

/-- Where the static variables point after `extra` calls that found nothing. -/
def Chain.past (chain : Chain) (size extra : Nat) : Pointer :=
  if size % lutSize + extra < lutSize then
    .at (chain (size / lutSize)) (2 * (size % lutSize + extra))
  else .garbage

section Search

variable {mem : Memory Value} {table : Table} {chain : Chain} {pairs : Pairs Value}
  {oldItem : Item}

/-- The result of the loop when `indices` are the positions ahead of it. -/
def Chain.found (chain : Chain) (size : Nat) : List Nat → Option Pointer × Nat × Pointer
  | [] => (none, size, chain.slot size)
  | i :: _ => (some ((chain.slot i).add 1), i, chain.slot i)

theorem search_table_eq (oldItem : Item) (holds : Holds mem table chain pairs)
    {front back : Pairs Value}
    (split : pairs = front ++ back) :
    searchInLUT_ mem oldItem back.length front.length (chain.slot front.length) =
      some (chain.found pairs.length (positions oldItem front.length back)) := by
  induction back generalizing front with
  | nil =>
      rw [List.append_nil] at split
      rw [split]
      rfl
  | cons pair back ih =>
      have here : pairs[front.length]? = some pair := by simp [split]
      have inside := (List.getElem?_eq_some_iff.mp here).1
      have further : pairs = (front ++ [pair]) ++ back := by simp [split]
      have rest := ih further
      rw [List.length_append, List.length_singleton] at rest
      rw [List.length_cons, searchInLUT_, holds.load_key here, positions]
      by_cases equal : isEqual pair.1 oldItem = true
      · simp [equal, Chain.found]
      · simp only [Option.bind_eq_bind, Option.bind_some, equal, holds.hop inside]
        exact rest

/-- A search begins at the first pair. -/
theorem search_init_eq (oldItem : Item) (holds : Holds mem table chain pairs) :
    searchInLUT_ mem oldItem table.size 0 table.first =
      some (chain.found pairs.length (positions oldItem 0 pairs)) := by
  rw [holds.size, holds.first_slot]
  exact search_table_eq oldItem holds (List.nil_append pairs).symm

/-- Behind a position that has been found the search goes on at the next pair. -/
theorem search_next_eq (holds : Holds mem table chain pairs) {i : Nat}
    (inside : i < pairs.length) :
    searchNext mem ⟨oldItem, pairs.length, i, chain.slot i⟩ =
      some ((chain.found pairs.length (positions oldItem (i + 1) (pairs.drop (i + 1)))).1,
        ⟨oldItem, pairs.length,
          (chain.found pairs.length (positions oldItem (i + 1) (pairs.drop (i + 1)))).2.1,
          (chain.found pairs.length (positions oldItem (i + 1) (pairs.drop (i + 1)))).2.2⟩) := by
  have rest := search_table_eq oldItem holds (List.take_append_drop (i + 1) pairs).symm
  rw [List.length_drop, List.length_take, Nat.min_eq_left inside] at rest
  rw [searchNext, holds.hop inside]
  simp only [Option.bind_eq_bind, Option.bind_some, rest]

/-- Behind the last pair: five words at most, then one that was never written. -/
theorem hop_past (holds : Holds mem table chain pairs) {extra : Nat}
    (bound : pairs.length % lutSize + extra < 2 * lutSize) :
    hop mem (pairs.length + extra) ((chain.past pairs.length extra).add 2) =
      if pairs.length % lutSize + (extra + 1) < 2 * lutSize then
        some (chain.past pairs.length (extra + 1))
      else none := by
  have live := holds.live (lastFragment pairs) (Nat.le_refl _)
  have offset := offset_lt pairs.length
  by_cases written : pairs.length % lutSize + extra < lutSize
  · rw [if_pos (by unfold lutSize at *; omega), Chain.past, if_pos written, Pointer.add, hop]
    by_cases full : (pairs.length + extra + 1) % lutSize = 0
    · have ends : 2 * (pairs.length % lutSize + extra) + 2 = 2 * lutSize := by
        unfold lutSize at *
        omega
      have loaded := load_at live (Nat.le_refl (2 * lutSize))
      rw [lastFragment] at loaded
      rw [if_pos full, ends, Memory.loadPointer, loaded, ← lastFragment, holds.unlinked,
        Chain.past, if_neg (by unfold lutSize at *; omega)]
    · rw [if_neg full, Chain.past, if_pos (by unfold lutSize at *; omega)]
      rfl
  · rw [Chain.past, if_neg written, Pointer.add, hop]
    by_cases full : (pairs.length + extra + 1) % lutSize = 0
    · rw [if_pos full, if_neg (by unfold lutSize at *; omega)]
      rfl
    · rw [if_neg full, if_pos (by unfold lutSize at *; omega), Chain.past,
        if_neg (by unfold lutSize at *; omega)]

theorem past_zero : chain.past pairs.length 0 = chain.slot pairs.length :=
  if_pos (offset_lt pairs.length)

theorem nexts_past (oldItem : Item) (holds : Holds mem table chain pairs) (n : Nat) {extra : Nat}
    (bound : pairs.length % lutSize + extra < 2 * lutSize) :
    searchNexts mem n ⟨oldItem, pairs.length, pairs.length + extra,
        chain.past pairs.length extra⟩ =
      if pairs.length % lutSize + (extra + n) < 2 * lutSize then
        some (answers [] n, ⟨oldItem, pairs.length, pairs.length + (extra + n),
          chain.past pairs.length (extra + n)⟩)
      else none := by
  induction n generalizing extra with
  | zero =>
      rw [Nat.add_zero, if_pos bound]
      rfl
  | succ n ih =>
      have step := hop_past holds bound
      rw [searchNexts, searchNext]
      by_cases next : pairs.length % lutSize + (extra + 1) < 2 * lutSize
      · rw [if_pos next] at step
        simp only [Option.bind_eq_bind, Option.bind_some, step,
          show pairs.length - (pairs.length + extra + 1) = 0 by omega, searchInLUT_]
        rw [Nat.add_assoc pairs.length extra 1, ih next, Nat.add_assoc extra 1 n, Nat.add_comm 1 n]
        by_cases all : pairs.length % lutSize + (extra + (n + 1)) < 2 * lutSize
        · rw [if_pos all, if_pos all]
          rfl
        · rw [if_neg all, if_neg all]
          rfl
      · rw [if_neg next] at step
        rw [if_neg (by omega)]
        simp only [Option.bind_eq_bind, step]
        rfl

theorem nexts_end (holds : Holds mem table chain pairs) (n : Nat) :
    (searchNexts mem n ⟨oldItem, pairs.length, pairs.length, chain.slot pairs.length⟩).map
        Prod.fst =
      if n + pairs.length % lutSize < 2 * lutSize then some (answers [] n) else none := by
  have room := offset_lt pairs.length
  have start : pairs.length % lutSize + 0 < 2 * lutSize := by omega
  have all := nexts_past oldItem holds n start
  rw [past_zero, Nat.zero_add, Nat.add_zero] at all
  rw [all, Nat.add_comm n]
  split <;> rfl

theorem nexts_succ {store store' : Store} {newItemP : Option Pointer} (n : Nat)
    (step : searchNext mem store = some (newItemP, store')) :
    (searchNexts mem (n + 1) store).map Prod.fst =
      ((searchNexts mem n store').map Prod.fst).map (newItemP :: ·) := by
  cases rest : searchNexts mem n store' <;> simp [searchNexts, step, rest]

/-- The calls that follow a hit return the other hits and then nothing, as long as the
position has not reached the second link behind the pairs. -/
theorem nexts_found (holds : Holds mem table chain pairs) (n : Nat) {i : Nat}
    (inside : i < pairs.length) :
    (searchNexts mem n ⟨oldItem, pairs.length, i, chain.slot i⟩).map Prod.fst =
      if n - ((positions oldItem (i + 1) (pairs.drop (i + 1))).length + 1) +
          pairs.length % lutSize < 2 * lutSize then
        some (answers (chain.slots (positions oldItem (i + 1) (pairs.drop (i + 1)))) n)
      else none := by
  induction n generalizing i with
  | zero =>
      rw [if_pos (by have := offset_lt pairs.length; omega)]
      rfl
  | succ n ih =>
      rw [nexts_succ n (search_next_eq holds inside)]
      cases ahead : positions oldItem (i + 1) (pairs.drop (i + 1)) with
      | nil =>
          rw [Chain.found, nexts_end holds, List.length_nil, Nat.zero_add, Nat.add_sub_cancel]
          split <;> rfl
      | cons next others =>
          obtain ⟨bound, rest⟩ := positions_cons ahead
          rw [Chain.found, ih bound, ← rest, List.length_cons, Nat.add_sub_add_right]
          split <;> rfl

/-- A search and the calls that continue it. -/
def search (mem : Memory Value) (lut : Lut) (oldItem : Item) (nexts : Nat) :
    Option (List (Option Pointer) × Store) := do
  let (newItemP, store) ← searchInit mem lut oldItem
  let (others, store) ← searchNexts mem nexts store
  some (newItemP :: others, store)

/-- All hits in the order of insertion and then nothing. -/
theorem search_eq {lut : Lut} (holds : Holds mem (lut oldItem.hashKey) chain pairs)
    (nexts : Nat) :
    (search mem lut oldItem nexts).map Prod.fst =
      if nexts - (positions oldItem 0 pairs).length + pairs.length % lutSize < 2 * lutSize then
        some (answers (chain.slots (positions oldItem 0 pairs)) (nexts + 1))
      else none := by
  have start : searchInit mem lut oldItem =
      some ((chain.found pairs.length (positions oldItem 0 pairs)).1,
        ⟨oldItem, pairs.length, (chain.found pairs.length (positions oldItem 0 pairs)).2.1,
          (chain.found pairs.length (positions oldItem 0 pairs)).2.2⟩) := by
    rw [searchInit, search_init_eq oldItem holds, holds.size]
    rfl
  have continued : (search mem lut oldItem nexts).map Prod.fst =
      ((searchNexts mem nexts ⟨oldItem, pairs.length,
        (chain.found pairs.length (positions oldItem 0 pairs)).2.1,
        (chain.found pairs.length (positions oldItem 0 pairs)).2.2⟩).map Prod.fst).map
          ((chain.found pairs.length (positions oldItem 0 pairs)).1 :: ·) := by
    rw [search, start, Option.bind_eq_bind, Option.bind_some]
    dsimp only
    cases searchNexts mem nexts _ <;> rfl
  rw [continued]
  cases hits : positions oldItem 0 pairs with
  | nil =>
      rw [Chain.found, nexts_end holds, List.length_nil, Nat.sub_zero]
      split <;> rfl
  | cons first others =>
      have ahead : positions oldItem 0 (pairs.drop 0) = first :: others := hits
      obtain ⟨bound, rest⟩ := positions_cons ahead
      rw [Chain.found, nexts_found holds nexts bound, ← rest, List.length_cons]
      split <;> rfl

end Search

end Sac2c.LookUpTable
