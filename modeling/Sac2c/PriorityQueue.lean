import Mathlib.Data.List.Infix
import Mathlib.Data.Multiset.AddSub
import Sac2c.DynArrays

/-!
The priority queue of binheap.c on the growing arrays of dynarray.c. The array has room
for three elements after the first insertion, and an insertion into an array that is full
is not defined. A queue that never holds more than three keys is sorted, so that the
smallest key stands in front although insertion and deletion follow different parents.
-/

namespace Sac2c.PriorityQueue
open OwnedBlocks DynArrays

variable {δ : Type}

section Model

abbrev Queue (δ : Type) := DynArray (Elem δ)

/-- The loop of PQinsertElem. -/
def siftUp : Nat → Queue δ → Elem δ → Nat → Option (Queue δ)
  | 0, _, _, _ => none
  | fuel + 1, q, e, i =>
      let mid := i / 2
      (q.elemsPos mid).bind fun parent =>
        if parent.idx ≤ e.idx ∨ i = mid then q.setPos i (some e)
        else
          (q.elemsPos i).bind fun e => (q.setPos i (some parent)).bind fun q =>
            (q.setPos mid (some e)).bind fun q => siftUp fuel q e mid

/-- PQinsertElem. The loop runs at most once for each element. -/
def insertElem (garbage : Nat → Option (Elem δ)) (e : Elem δ) (q : Queue δ) : Option (Queue δ) :=
  (q.addToArray garbage e).bind fun q => siftUp q.totalElems q e (q.totalElems - 1)

/-- The loop of PQdeleteMin. The element that freeElem releases is no longer in the array. -/
def siftDown : Nat → Queue δ → Elem δ → Nat → Option (Queue δ × Nat)
  | 0, _, _, _ => none
  | fuel + 1, q, last, i =>
      if i * 2 + 2 < q.totalElems then
        (q.elemsPos (i * 2 + 2)).bind fun right => (q.elemsPos (i * 2 + 1)).bind fun left =>
          let child := if right.idx < left.idx then i * 2 + 2 else i * 2 + 1
          (q.elemsPos child).bind fun least =>
            if last.idx > least.idx then
              (q.setPos i (some least)).bind fun q => siftDown fuel q last child
            else some (q, i)
      else some (q, i)

/-- PQdeleteMin. -/
def deleteMin (q : Queue δ) : Option (Queue δ) :=
  if 0 < q.totalElems then
    (q.elemsPos (q.totalElems - 1)).bind fun last =>
      (siftDown q.totalElems q last 0).bind fun sifted =>
        (sifted.1.setPos sifted.2 (some last)).bind fun q =>
          { q with totalElems := q.totalElems - 1 }.setPos (q.totalElems - 1) none
  else none

/-- PQgetMinElem. -/
def getMinElem (q : Queue δ) : Option (Elem δ) := if 0 < q.totalElems then q.elemsPos 0 else none

/-- PQgetMin. -/
def getMin (q : Queue δ) : Option Int := (getMinElem q).map Elem.idx

inductive Op (δ : Type) where
  | insert (e : Elem δ)
  | deleteMin
  deriving DecidableEq, Repr

def step (garbage : Nat → Option (Elem δ)) (q : Queue δ) : Op δ → Option (Queue δ)
  | .insert e => insertElem garbage e q
  | .deleteMin => deleteMin q

/-- The operations one after the other, from the empty queue. -/
def run (garbage : Nat → Option (Elem δ)) (ops : List (Op δ)) : Option (Queue δ) :=
  ops.foldlM (step garbage) initDynarray

end Model

section Specification

/-- The keys after some operations: the inserted ones without the deleted ones. A
deletion needs a key. -/
inductive Held : List (Op δ) → Multiset Int → Prop
  | empty : Held [] 0
  | insert {ops keys} (e : Elem δ) : Held ops keys → Held (ops ++ [.insert e]) (e.idx ::ₘ keys)
  | deleteMin {ops keys} {least : Int} : Held ops (least ::ₘ keys) →
      (∀ key ∈ keys, least ≤ key) → Held (ops ++ [.deleteMin]) keys

/-- A queue has exactly some keys, and its minimum is the smallest of them. -/
structure Represents (q : Queue δ) (keys : Multiset Int) : Prop where
  held : ∃ elems : List (Elem δ), q.contents = elems.map some ∧
    ((elems.map Elem.idx : List Int) : Multiset Int) = keys
  least : keys ≠ 0 → ∃ least ∈ keys, getMin q = some least ∧ ∀ key ∈ keys, least ≤ key

/-- The number of keys after some operations. -/
def size (ops : List (Op δ)) : Nat :=
  ops.foldl (fun n op => match op with | .insert _ => n + 1 | .deleteMin => n - 1) 0

end Specification

section SmallQueues

/-- The first insertion makes room for three elements. -/
theorem insert_first (garbage : Nat → Option (Elem δ)) (e : Elem δ) :
    insertElem garbage e initDynarray =
      some ⟨.live [some e, garbage 1, garbage 2], 1, 3⟩ := by
  simp [insertElem, DynArray.addToArray, initDynarray, grow_null, Pointer.malloc, List.range_succ,
    siftUp]

theorem insert_emptied (garbage : Nat → Option (Elem δ)) (e : Elem δ) (x y z : Option (Elem δ)) :
    insertElem garbage e ⟨.live [x, y, z], 0, 3⟩ = some ⟨.live [some e, y, z], 1, 3⟩ := by
  simp [insertElem, DynArray.addToArray, siftUp]

theorem insert_second (garbage : Nat → Option (Elem δ)) (a e : Elem δ) (x y : Option (Elem δ)) :
    insertElem garbage e ⟨.live [some a, x, y], 1, 3⟩ =
      if a.idx ≤ e.idx then some ⟨.live [some a, some e, y], 2, 3⟩
      else some ⟨.live [some e, some a, y], 2, 3⟩ := by
  simp [insertElem, DynArray.addToArray, siftUp]

theorem insert_third (garbage : Nat → Option (Elem δ)) (a b e : Elem δ) (x : Option (Elem δ)) :
    insertElem garbage e ⟨.live [some a, some b, x], 2, 3⟩ =
      if b.idx ≤ e.idx then some ⟨.live [some a, some b, some e], 3, 3⟩
      else if a.idx ≤ e.idx then some ⟨.live [some a, some e, some b], 3, 3⟩
      else some ⟨.live [some e, some a, some b], 3, 3⟩ := by
  simp [insertElem, DynArray.addToArray, siftUp]

theorem delete_last (a : Elem δ) (x y : Option (Elem δ)) :
    deleteMin ⟨.live [some a, x, y], 1, 3⟩ = some ⟨.live [none, x, y], 0, 3⟩ := by
  simp [deleteMin, siftDown]

theorem delete_of_two (a b : Elem δ) (x : Option (Elem δ)) :
    deleteMin ⟨.live [some a, some b, x], 2, 3⟩ = some ⟨.live [some b, none, x], 1, 3⟩ := by
  simp [deleteMin, siftDown]

theorem sift_of_three (a b c : Elem δ) (ordered : b.idx ≤ c.idx) :
    siftDown 3 ⟨.live [some a, some b, some c], 3, 3⟩ c 0 =
      if b.idx < c.idx then some (⟨.live [some b, some b, some c], 3, 3⟩, 1)
      else some (⟨.live [some a, some b, some c], 3, 3⟩, 0) := by
  have least : ¬ c.idx < b.idx := Int.not_lt.mpr ordered
  by_cases greater : b.idx < c.idx <;> simp [siftDown, least, greater]

theorem delete_of_three (a b c : Elem δ) (ordered : b.idx ≤ c.idx) :
    deleteMin ⟨.live [some a, some b, some c], 3, 3⟩ =
      if b.idx < c.idx then some ⟨.live [some b, some c, none], 2, 3⟩
      else some ⟨.live [some c, some b, none], 2, 3⟩ := by
  have sifted := sift_of_three a b c ordered
  have last : (⟨.live [some a, some b, some c], 3, 3⟩ : Queue δ).elemsPos (3 - 1) = some c := rfl
  rw [deleteMin, if_pos (Nat.succ_pos 2), last, Option.bind_some, sifted]
  by_cases greater : b.idx < c.idx
  · rw [if_pos greater, if_pos greater]
    rfl
  · rw [if_neg greater, if_neg greater]
    rfl

/-- A fourth element needs a larger block. -/
theorem insert_fourth (garbage : Nat → Option (Elem δ)) (e : Elem δ) (cells : List (Option (Elem δ))) :
    insertElem garbage e ⟨.live cells, 3, 3⟩ = none := by
  simp [insertElem, DynArray.addToArray, grow_owned]

end SmallQueues

section Invariant

/-- A queue of at most three elements, in order. -/
inductive Sorted : Queue δ → List (Elem δ) → Prop
  | fresh : Sorted initDynarray []
  | emptied (x y z) : Sorted ⟨.live [x, y, z], 0, 3⟩ []
  | one (a : Elem δ) (x y) : Sorted ⟨.live [some a, x, y], 1, 3⟩ [a]
  | two (a b : Elem δ) (x) : a.idx ≤ b.idx → Sorted ⟨.live [some a, some b, x], 2, 3⟩ [a, b]
  | three (a b c : Elem δ) : a.idx ≤ b.idx → b.idx ≤ c.idx →
      Sorted ⟨.live [some a, some b, some c], 3, 3⟩ [a, b, c]

variable {q : Queue δ} {elems : List (Elem δ)}

theorem insert_sorted (garbage : Nat → Option (Elem δ)) (e : Elem δ) (sorted : Sorted q elems)
    (room : elems.length < 3) :
    ∃ q' elems', insertElem garbage e q = some q' ∧ Sorted q' elems' ∧
      elems'.Perm (e :: elems) := by
  cases sorted with
  | fresh => exact ⟨_, _, insert_first garbage e, .one e _ _, .refl _⟩
  | emptied x y z => exact ⟨_, _, insert_emptied garbage e x y z, .one e _ _, .refl _⟩
  | one a x y =>
      rw [insert_second]
      by_cases after : a.idx ≤ e.idx
      · rw [if_pos after]
        exact ⟨_, _, rfl, .two a e y after, .swap e a []⟩
      · rw [if_neg after]
        exact ⟨_, _, rfl, .two e a y (by omega), .refl _⟩
  | two a b x ordered =>
      -- The third element is compared with the second and then with the first.
      rw [insert_third]
      by_cases last : b.idx ≤ e.idx
      · rw [if_pos last]
        exact ⟨_, _, rfl, .three a b e ordered last,
          (List.perm_append_comm : ([a, b] ++ [e]).Perm ([e] ++ [a, b]))⟩
      · rw [if_neg last]
        by_cases middle : a.idx ≤ e.idx
        · rw [if_pos middle]
          exact ⟨_, _, rfl, .three a e b middle (by omega), .swap e a [b]⟩
        · rw [if_neg middle]
          exact ⟨_, _, rfl, .three e a b (by omega) ordered, .refl _⟩
  | three a b c _ _ => simp at room

theorem insert_full (garbage : Nat → Option (Elem δ)) (e : Elem δ) (sorted : Sorted q elems)
    (full : elems.length = 3) : insertElem garbage e q = none := by
  cases sorted with
  | three a b c _ _ => exact insert_fourth garbage e _
  | fresh => simp at full
  | emptied => simp at full
  | one => simp at full
  | two => simp at full

theorem delete_sorted {e : Elem δ} (sorted : Sorted q (e :: elems)) :
    ∃ q' elems', deleteMin q = some q' ∧ Sorted q' elems' ∧
      elems'.map Elem.idx = elems.map Elem.idx := by
  cases sorted with
  | one a x y => exact ⟨_, _, delete_last e x y, .emptied _ _ _, rfl⟩
  | two a b x ordered => exact ⟨_, _, delete_of_two e b x, .one b _ _, rfl⟩
  | three a b c first second =>
      rw [delete_of_three e b c second]
      by_cases strict : b.idx < c.idx
      · rw [if_pos strict]
        exact ⟨_, _, rfl, .two b c none second, rfl⟩
      · rw [if_neg strict]
        have same : c.idx = b.idx := by omega
        exact ⟨_, _, rfl, .two c b none (by omega), by simp [same]⟩

theorem sorted_head {e : Elem δ} (sorted : Sorted q (e :: elems)) :
    ∀ key ∈ elems.map Elem.idx, e.idx ≤ key := by
  cases sorted with
  | one a x y => simp
  | two a b x ordered => simpa using ordered
  | three a b c first second => simpa using ⟨first, Int.le_trans first second⟩

/-- Taking one of the smallest keys away leaves the same keys. -/
theorem smallest_removed {first least : Int} {rest keys : Multiset Int}
    (same : first ::ₘ rest = least ::ₘ keys) (below : ∀ key ∈ rest, first ≤ key)
    (smallest : ∀ key ∈ keys, least ≤ key) : rest = keys := by
  have up : first ≤ least := by
    have member : least ∈ first ::ₘ rest := by simp [same]
    rcases Multiset.mem_cons.mp member with equal | member
    · exact Int.le_of_eq equal.symm
    · exact below least member
  have down : least ≤ first := by
    have member : first ∈ least ::ₘ keys := by simp [← same]
    rcases Multiset.mem_cons.mp member with equal | member
    · exact Int.le_of_eq equal.symm
    · exact smallest first member
  rw [Int.le_antisymm up down] at same
  exact (Multiset.cons_inj_right least).mp same

/-- The first element of a sorted queue is the one that PQgetMin finds. -/
theorem sorted_represents (sorted : Sorted q elems) :
    Represents q ((elems.map Elem.idx : List Int) : Multiset Int) := by
  constructor
  · exact ⟨elems, by cases sorted <;> rfl, rfl⟩
  · intro filled
    cases sorted with
    | fresh => exact absurd rfl filled
    | emptied => exact absurd rfl filled
    | one a x y => exact ⟨a.idx, by simp, rfl, by simp⟩
    | two a b x ordered => exact ⟨a.idx, by simp, rfl, by simp [ordered]⟩
    | three a b c first second =>
        have through : a.idx ≤ c.idx := Int.le_trans first second
        exact ⟨a.idx, by simp, rfl, by simp [first, through]⟩

end Invariant

section Runs

/-- There are never more than three keys. -/
def Small (ops : List (Op δ)) : Prop := ∀ before, before <+: ops → size before ≤ 3

theorem small_snoc (ops : List (Op δ)) (op : Op δ) :
    Small (ops ++ [op]) ↔ Small ops ∧ size (ops ++ [op]) ≤ 3 := by
  simp only [Small, List.prefix_concat_iff]
  constructor
  · intro small
    exact ⟨fun before earlier => small before (.inr earlier), small _ (.inl rfl)⟩
  · rintro ⟨small, last⟩ before (rfl | earlier)
    · exact last
    · exact small before earlier

theorem size_snoc (ops : List (Op δ)) (op : Op δ) :
    size (ops ++ [op]) = match op with | .insert _ => size ops + 1 | .deleteMin => size ops - 1 := by
  cases op <;> simp [size]

theorem run_snoc (garbage : Nat → Option (Elem δ)) (ops : List (Op δ)) (op : Op δ) :
    run garbage (ops ++ [op]) = (run garbage ops).bind fun q => step garbage q op := by
  simp [run, List.foldlM_append]

theorem held_size {ops : List (Op δ)} {keys : Multiset Int} (held : Held ops keys) :
    size ops = Multiset.card keys := by
  induction held with
  | empty => rfl
  | insert e _ ih => simp [size_snoc, ih]
  | deleteMin _ _ ih => simp [size_snoc, ih]

/-- A run is at a sorted queue with the keys of the specification as long as there were
never more than three, and undefined after that. -/
theorem run_outcome (garbage : Nat → Option (Elem δ)) {ops : List (Op δ)} {keys : Multiset Int}
    (held : Held ops keys) :
    (Small ops ∧ ∃ q elems, run garbage ops = some q ∧ Sorted q elems ∧
        ((elems.map Elem.idx : List Int) : Multiset Int) = keys) ∨
      ¬ Small ops ∧ run garbage ops = none := by
  -- A run keeps a sorted queue as long as it is small; once it is stuck it stays stuck.
  induction held with
  | empty =>
      have small : Small ([] : List (Op δ)) := by
        intro before earlier
        simp [List.prefix_nil.mp earlier, size]
      exact .inl ⟨small, _, _, rfl, .fresh, rfl⟩
  | @insert ops keys e held ih =>
      rw [run_snoc, small_snoc]
      rcases ih with ⟨small, q, elems, ran, sorted, same⟩ | ⟨large, stuck⟩
      · have count : size ops = elems.length := by
          rw [held_size held, ← same]
          simp
        rw [ran, size_snoc, count]
        simp only [Option.bind_some, step]
        by_cases room : elems.length < 3
        · obtain ⟨q', elems', inserted, sorted', perm⟩ := insert_sorted garbage e sorted room
          refine .inl ⟨⟨small, room⟩, q', elems', inserted, sorted', ?_⟩
          rw [← same, Multiset.cons_coe]
          exact Multiset.coe_eq_coe.mpr (perm.map Elem.idx)
        · have full : elems.length = 3 := by
            have bound := small ops (List.prefix_refl ops)
            omega
          exact .inr ⟨fun small => by omega, insert_full garbage e sorted full⟩
      · exact .inr ⟨fun small => large small.1, by rw [stuck, Option.bind_none]⟩
  | @deleteMin ops keys least held smallest ih =>
      rw [run_snoc, small_snoc]
      rcases ih with ⟨small, q, elems, ran, sorted, same⟩ | ⟨large, stuck⟩
      · cases elems with
        | nil => exact absurd same (Multiset.zero_ne_cons)
        | cons e elems =>
            obtain ⟨q', elems', deleted, sorted', rest⟩ := delete_sorted sorted
            have fewer : size (ops ++ [.deleteMin]) ≤ 3 := by
              have bound := small ops (List.prefix_refl ops)
              rw [size_snoc]
              exact Nat.le_trans (Nat.sub_le _ _) bound
            rw [List.map_cons, ← Multiset.cons_coe] at same
            have left := smallest_removed same (sorted_head sorted) smallest
            exact .inl ⟨⟨small, fewer⟩, q', elems', by rw [ran]; exact deleted, sorted',
              by rw [rest, left]⟩
      · exact .inr ⟨fun small => large small.1, by rw [stuck, Option.bind_none]⟩

theorem queue_right_iff (garbage : Nat → Option (Elem δ)) {ops : List (Op δ)}
    {keys : Multiset Int} (held : Held ops keys) :
    (∃ q, run garbage ops = some q ∧ Represents q keys) ↔
      ∀ before, before <+: ops → size before ≤ 3 := by
  rcases run_outcome garbage held with ⟨small, q, elems, ran, sorted, same⟩ | ⟨large, stuck⟩
  · exact ⟨fun _ => small, fun _ => ⟨q, ran, same ▸ sorted_represents sorted⟩⟩
  · constructor
    · rintro ⟨q, ran, _⟩
      simp [stuck] at ran
    · intro small
      exact absurd small large

/-- Two insertions and a deletion. -/
def threeOps : List (Op Unit) := [.insert ⟨5, ()⟩, .insert ⟨3, ()⟩, .deleteMin]

theorem three_ops_held : Held threeOps {5} := by
  have inserted : Held _ (3 ::ₘ {5}) := (Held.empty.insert (⟨5, ()⟩ : Elem Unit)).insert ⟨3, ()⟩
  exact inserted.deleteMin (by simp)

theorem three_ops_right :
    (∃ q, run (fun _ => none) threeOps = some q ∧ Represents q {5}) ↔
      ∀ before, before <+: threeOps → size before ≤ 3 :=
  queue_right_iff _ three_ops_held

/-- Four insertions. -/
def fourOps : List (Op Unit) := List.replicate 4 (.insert ⟨0, ()⟩)

theorem four_keys_stuck :
    ¬ ∀ (garbage : Nat → Option (Elem Unit)) (ops : List (Op Unit)) (keys : Multiset Int),
      Held ops keys → ∃ q, run garbage ops = some q ∧ Represents q keys := by
  intro right
  have held : Held fourOps (0 ::ₘ 0 ::ₘ 0 ::ₘ {0}) :=
    (((Held.empty.insert (⟨0, ()⟩ : Elem Unit)).insert ⟨0, ()⟩).insert ⟨0, ()⟩).insert ⟨0, ()⟩
  obtain ⟨q, ran, _⟩ := right (fun _ => none) _ _ held
  have stuck : run (fun _ => none) fourOps = none := by decide
  rw [stuck] at ran
  cases ran

/-- The memory is not all that is wrong: in a block of six elements the two sifts lose
the order, and a 4 stands in front of the 2. -/
example :
    let insert := fun key : Int => Op.insert (⟨key, ()⟩ : Elem Unit)
    let roomy : Queue Unit := ⟨.live (List.replicate 6 none), 0, 6⟩
    ([insert 1, insert 6, insert 2, insert 4, insert 1, .deleteMin, insert 2, insert 4, .deleteMin,
        insert 4, .deleteMin].foldlM (step fun _ => none) roomy).map
      (fun q => (getMin q, q.contents.map fun e => e.map Elem.idx)) =
    some (some 4, [some 4, some 4, some 4, some 6, some 2]) := by decide

end Runs

end Sac2c.PriorityQueue
