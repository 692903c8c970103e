import Mathlib.Algebra.Group.Nat.Defs
import Mathlib.Data.List.Basic
import Sac2c.DynArrays

/-!
merge and sortArray of flexsub/dynarray.c on the pointers of an array, with the block that the
halves are merged into. The bounds are ints: where the sum of `lower` and `upper` leaves their
range, the middle is undefined.
-/

namespace Sac2c.ArraySorting

open DynArrays (Elem)

variable {δ : Type}

section Model

/-- Whether merge takes the left one of two elements. -/
def takesLeft (desc : Int) (left right : Elem δ) : Bool :=
  if left.idx ≤ right.idx then decide (desc = 0) else decide (desc ≠ 0)

/-- The state of merge: the pointers into the array, by their positions, what is left of the
two halves, and the block `result`, of which nothing is written at first. -/
structure Merging (δ : Type) where
  left : Nat
  ll : Nat
  right : Nat
  lr : Nat
  total : Nat
  result : List (Option (Elem δ))

def store {α : Type} (cells : List α) (pos : Nat) (item : α) : Option (List α) :=
  if pos < cells.length then some (cells.set pos item) else none

def takeLeft (elems : List (Elem δ)) (m : Merging δ) : Option (Merging δ) := do
  let item ← elems[m.left]?
  let result ← store m.result m.total (some item)
  some { m with left := m.left + 1, ll := m.ll - 1, total := m.total + 1, result := result }

def takeRight (elems : List (Elem δ)) (m : Merging δ) : Option (Merging δ) := do
  let item ← elems[m.right]?
  let result ← store m.result m.total (some item)
  some { m with right := m.right + 1, lr := m.lr - 1, total := m.total + 1, result := result }

/-- The loop while both halves have elements left; none if it needs more than `rounds`. -/
def compareLoop (elems : List (Elem δ)) (desc : Int) : Nat → Merging δ → Option (Merging δ)
  | 0, _ => none
  | rounds + 1, m =>
      if 0 < m.ll ∧ 0 < m.lr then do
        let first ← elems[m.left]?
        let second ← elems[m.right]?
        let m ← (if takesLeft desc first second then takeLeft elems m else takeRight elems m)
        compareLoop elems desc rounds m
      else some m

/-- A loop that takes all that is left of one half. -/
def drain (take : Merging δ → Option (Merging δ)) : Nat → Merging δ → Option (Merging δ)
  | 0, m => some m
  | left + 1, m => do
      let m ← take m
      drain take left m

/-- A loop that copies `count` elements back, from position `start` of the block on. -/
def copyBack (result : List (Option (Elem δ))) :
    Nat → Nat → Nat → List (Elem δ) → Option (List (Elem δ))
  | 0, _, _, elems => some elems
  | count + 1, pos, start, elems => do
      let item ← result[start]?.join
      let elems ← store elems pos item
      copyBack result count (pos + 1) (start + 1) elems

def merge (elems : List (Elem δ)) (lower upper : Nat) (desc : Int) : Option (List (Elem δ)) :=
  if lower + upper < 2 ^ 31 then
    let mid := (lower + upper) / 2
    let ll := mid - lower + 1
    let lr := upper - mid
    do
      let m ← compareLoop elems desc (ll + lr)
        ⟨lower, ll, mid + 1, lr, 0, List.replicate (ll + lr) none⟩
      let m ← (if 0 < m.ll then drain (takeLeft elems) m.ll m
        else drain (takeRight elems) m.lr m)
      let elems ← copyBack m.result ll lower 0 elems
      copyBack m.result lr (mid + 1) ll elems
  else none

def sortArray (elems : List (Elem δ)) (lower upper : Nat) (desc : Int) : Option (List (Elem δ)) :=
  if lower < upper then
    if upper + lower < 2 ^ 31 then
      let mid := (upper + lower) / 2
      do
        let elems ← sortArray elems lower mid desc
        let elems ← sortArray elems (mid + 1) upper desc
        merge elems lower upper desc
    else none
  else some elems
termination_by upper - lower

end Model

section Meaning

/-- The order that `desc` asks for. -/
def Ordered (desc : Int) (first second : Elem δ) : Prop :=
  if desc = 0 then first.idx ≤ second.idx else second.idx ≤ first.idx

def range (elems : List (Elem δ)) (lower upper : Nat) : List (Elem δ) :=
  (elems.take (upper + 1)).drop lower

/-- sortArray sorts a range and leaves the rest of the array as it is. -/
def Sorts (elems : List (Elem δ)) (lower upper : Nat) (desc : Int) : Prop :=
  ∃ after, sortArray elems lower upper desc = some after ∧
    after.length = elems.length ∧
    (∀ pos, pos < lower ∨ upper < pos → after[pos]? = elems[pos]?) ∧
    (range after lower upper).Perm (range elems lower upper) ∧
    (range after lower upper).Pairwise (Ordered desc)

end Meaning

section Order

theorem Ordered.trans {desc : Int} {first second third : Elem δ} (left : Ordered desc first second)
    (right : Ordered desc second third) : Ordered desc first third := by
  unfold Ordered at left right ⊢
  split at left <;> simp_all <;> omega

theorem takes_left_ordered {desc : Int} {first second : Elem δ}
    (taken : takesLeft desc first second = true) : Ordered desc first second := by
  unfold takesLeft at taken
  unfold Ordered
  split at taken <;> simp_all
  omega

theorem takes_right_ordered {desc : Int} {first second : Elem δ}
    (taken : takesLeft desc first second = false) : Ordered desc second first := by
  unfold takesLeft at taken
  unfold Ordered
  split at taken <;> simp_all
  omega

/-- Two ordered lists are merged into an ordered one, also by a comparison that is not total. -/
theorem merge_ordered {desc : Int} {left right : List (Elem δ)}
    (left_ordered : left.Pairwise (Ordered desc)) (right_ordered : right.Pairwise (Ordered desc)) :
    (List.merge left right (takesLeft desc)).Pairwise (Ordered desc) := by
  induction left generalizing right with
  | nil => simpa using right_ordered
  | cons first left ih_left =>
      induction right with
      | nil => simpa using left_ordered
      | cons second right ih_right =>
          obtain ⟨first_least, left_rest⟩ := List.pairwise_cons.mp left_ordered
          obtain ⟨second_least, right_rest⟩ := List.pairwise_cons.mp right_ordered
          rw [List.cons_merge_cons]
          by_cases taken : takesLeft desc first second
          · have next := takes_left_ordered taken
            rw [if_pos taken, List.pairwise_cons]
            refine ⟨fun item member => ?_, ih_left left_rest right_ordered⟩
            rcases List.mem_merge.mp member with inside | inside
            · exact first_least item inside
            · rcases List.mem_cons.mp inside with rfl | later
              · exact next
              · exact next.trans (second_least item later)
          · have next := takes_right_ordered (Bool.eq_false_iff.mpr taken)
            rw [if_neg taken, List.pairwise_cons]
            refine ⟨fun item member => ?_, ih_right right_rest⟩
            rcases List.mem_merge.mp member with inside | inside
            · rcases List.mem_cons.mp inside with rfl | later
              · exact next
              · exact next.trans (first_least item later)
            · exact second_least item inside

end Order

section Loops

/-- What merge has still to take of the halves, and what it has written. -/
structure Progress (elems left right written : List (Elem δ)) (m : Merging δ) : Prop where
  left_at : left <+: elems.drop m.left
  ll : m.ll = left.length
  right_at : right <+: elems.drop m.right
  lr : m.lr = right.length
  total : m.total = written.length
  result : m.result =
    written.map some ++ List.replicate (left.length + right.length) none

variable {elems left right written : List (Elem δ)} {m : Merging δ} {item : Elem δ}

theorem read_head {α : Type} {cells items : List α} {item : α} {pos : Nat}
    (starts : item :: items <+: cells.drop pos) :
    cells[pos]? = some item ∧ items <+: cells.drop (pos + 1) := by
  obtain ⟨rest, same⟩ := starts
  have head : (cells.drop pos)[0]? = some item := by rw [← same]; rfl
  have tail : (cells.drop pos).drop 1 = items ++ rest := by rw [← same]; rfl
  rw [List.getElem?_drop] at head
  rw [List.drop_drop] at tail
  exact ⟨head, rest, tail.symm⟩

theorem store_next {count : Nat} :
    store (written.map some ++ List.replicate (count + 1) none) written.length (some item) =
      some ((written ++ [item]).map some ++ List.replicate count none) := by
  unfold store
  rw [if_pos (by simp), List.set_append_right _ _ (by simp)]
  simp [List.replicate_succ]

theorem take_left (progress : Progress elems (item :: left) right written m) :
    ∃ next, takeLeft elems m = some next ∧ Progress elems left right (written ++ [item]) next := by
  obtain ⟨read, rest⟩ := read_head progress.left_at
  have ll := progress.ll
  have room : (item :: left).length + right.length = left.length + right.length + 1 := by
    simp only [List.length_cons]
    omega
  have stored := @store_next _ written item (left.length + right.length)
  rw [← room, ← progress.result, ← progress.total] at stored
  refine ⟨_, by simp only [takeLeft, read, stored, Option.bind_eq_bind, Option.bind_some]; rfl, ?_⟩
  exact
    { left_at := rest
      ll := by simp [ll]
      right_at := progress.right_at
      lr := progress.lr
      total := by simp [progress.total]
      result := rfl }

theorem take_right (progress : Progress elems left (item :: right) written m) :
    ∃ next, takeRight elems m = some next ∧ Progress elems left right (written ++ [item]) next := by
  obtain ⟨read, rest⟩ := read_head progress.right_at
  have lr := progress.lr
  have room : left.length + (item :: right).length = left.length + right.length + 1 := by
    simp only [List.length_cons]
    omega
  have stored := @store_next _ written item (left.length + right.length)
  rw [← room, ← progress.result, ← progress.total] at stored
  refine ⟨_, by simp only [takeRight, read, stored, Option.bind_eq_bind, Option.bind_some]; rfl, ?_⟩
  exact
    { left_at := progress.left_at
      ll := progress.ll
      right_at := rest
      lr := by simp [lr]
      total := by simp [progress.total]
      result := rfl }

/-- The loop ends when one half is used up, with the other half still to be taken. -/
theorem compare_loop (desc : Int) {rounds : Nat} (some_ : 0 < rounds)
    (enough : left.length + right.length ≤ rounds)
    (progress : Progress elems left right written m) :
    ∃ next left' right' written', compareLoop elems desc rounds m = some next ∧
      Progress elems left' right' written' next ∧ (left' = [] ∨ right' = []) ∧
      written' ++ (left' ++ right') = written ++ List.merge left right (takesLeft desc) := by
  induction rounds generalizing left right written m with
  | zero => omega
  | succ rounds ih =>
      cases left with
      | nil =>
          exact ⟨m, [], right, written, by simp [compareLoop, progress.ll], progress, .inl rfl,
            by simp⟩
      | cons first left =>
          cases right with
          | nil =>
              exact ⟨m, first :: left, [], written, by simp [compareLoop, progress.lr], progress,
                .inr rfl, by simp⟩
          | cons second right =>
              have inside : 0 < m.ll ∧ 0 < m.lr := by simp [progress.ll, progress.lr]
              obtain ⟨read_first, -⟩ := read_head progress.left_at
              obtain ⟨read_second, -⟩ := read_head progress.right_at
              simp only [List.length_cons] at enough
              simp only [compareLoop, inside, and_self, if_true, read_first, read_second,
                Option.bind_eq_bind, Option.bind_some]
              rw [List.cons_merge_cons]
              by_cases taken : takesLeft desc first second
              · obtain ⟨next, step, kept⟩ := take_left progress
                obtain ⟨last, left', right', written', run, ends, empty, same⟩ :=
                  ih (by omega) (by simp only [List.length_cons]; omega) kept
                refine ⟨last, left', right', written', ?_, ends, empty, ?_⟩
                · rw [if_pos taken, step, Option.bind_some, run]
                · rw [same, if_pos taken, List.append_assoc]
                  rfl
              · obtain ⟨next, step, kept⟩ := take_right progress
                obtain ⟨last, left', right', written', run, ends, empty, same⟩ :=
                  ih (by omega) (by simp only [List.length_cons]; omega) kept
                refine ⟨last, left', right', written', ?_, ends, empty, ?_⟩
                · rw [if_neg taken, step, Option.bind_some, run]
                · rw [same, if_neg taken, List.append_assoc]
                  rfl

theorem drain_left (progress : Progress elems left [] written m) :
    ∃ next, drain (takeLeft elems) left.length m = some next ∧
      next.result = (written ++ left).map some := by
  induction left generalizing written m with
  | nil => exact ⟨m, rfl, by simpa using progress.result⟩
  | cons item left ih =>
      obtain ⟨next, step, kept⟩ := take_left progress
      obtain ⟨last, run, result⟩ := ih kept
      refine ⟨last, ?_, by simpa using result⟩
      simp only [List.length_cons, drain, step, Option.bind_eq_bind, Option.bind_some, run]

theorem drain_right (progress : Progress elems [] right written m) :
    ∃ next, drain (takeRight elems) right.length m = some next ∧
      next.result = (written ++ right).map some := by
  induction right generalizing written m with
  | nil => exact ⟨m, rfl, by simpa using progress.result⟩
  | cons item right ih =>
      obtain ⟨next, step, kept⟩ := take_right progress
      obtain ⟨last, run, result⟩ := ih kept
      refine ⟨last, ?_, by simpa using result⟩
      simp only [List.length_cons, drain, step, Option.bind_eq_bind, Option.bind_some, run]

/-- The copy loop replaces what stood at its positions. -/
theorem copy_back {result : List (Option (Elem δ))} {start : Nat}
    (items old front rest : List (Elem δ)) (same : items.length = old.length)
    (reads : items.map some <+: result.drop start) :
    copyBack result items.length front.length start (front ++ (old ++ rest)) =
      some (front ++ (items ++ rest)) := by
  induction items generalizing old front start with
  | nil =>
      have empty : old = [] := List.length_eq_zero_iff.mp same.symm
      simp [copyBack, empty]
  | cons item items ih =>
      cases old with
      | nil => simp at same
      | cons first old =>
          obtain ⟨read, later⟩ := read_head reads
          have stored : store (front ++ (first :: old ++ rest)) front.length item =
              some ((front ++ [item]) ++ (old ++ rest)) := by
            simp [store]
          have copied := ih old (front ++ [item]) (by simpa using same) later
          simp only [List.length_append, List.length_singleton] at copied
          simp only [List.length_cons, copyBack, read, Option.join_some, Option.bind_eq_bind,
            Option.bind_some, stored, copied]
          simp

end Loops

section Sorting

variable {front left right rest : List (Elem δ)} {lower upper : Nat} {desc : Int}

/-- The block of merge holds the merged halves when they are copied back. -/
theorem halves_merged {elems : List (Elem δ)} {m : Merging δ} {rounds : Nat} (some_ : 0 < rounds)
    (enough : left.length + right.length ≤ rounds) (progress : Progress elems left right [] m) :
    ∃ next last, compareLoop elems desc rounds m = some next ∧
      (if 0 < next.ll then drain (takeLeft elems) next.ll next
        else drain (takeRight elems) next.lr next) = some last ∧
      last.result = (List.merge left right (takesLeft desc)).map some := by
  obtain ⟨next, left', right', written, run, ends, empty, same⟩ :=
    compare_loop desc some_ enough progress
  rw [List.nil_append] at same
  -- One half is used up; the loop over the left one is taken if any of it is left.
  rcases empty with rfl | rfl
  · obtain ⟨last, drained, result⟩ := drain_right ends
    refine ⟨next, last, run, ?_, by rw [result, ← same, List.nil_append]⟩
    rw [if_neg (by simp [ends.ll]), ends.lr]
    exact drained
  · cases left' with
    | nil =>
        obtain ⟨last, drained, result⟩ := drain_right ends
        refine ⟨next, last, run, ?_, by rw [result, ← same, List.nil_append]⟩
        rw [if_neg (by simp [ends.ll]), ends.lr]
        exact drained
    | cons item left' =>
        obtain ⟨last, drained, result⟩ := drain_left ends
        refine ⟨next, last, run, ?_, by rw [result, ← same, List.append_nil]⟩
        rw [if_pos (by simp [ends.ll]), ends.ll]
        exact drained

/-- merge replaces two neighbouring halves by their merged elements. -/
theorem merge_halves (fits : lower + upper < 2 ^ 31) (starts : front.length = lower)
    (first : left.length = (lower + upper) / 2 - lower + 1)
    (second : right.length = upper - (lower + upper) / 2) (more : lower < upper) :
    merge (front ++ (left ++ (right ++ rest))) lower upper desc =
      some (front ++ (List.merge left right (takesLeft desc) ++ rest)) := by
  have middle : (lower + upper) / 2 + 1 = (front ++ left).length := by
    rw [List.length_append]
    omega
  have progress : Progress (front ++ (left ++ (right ++ rest))) left right []
      ⟨lower, left.length, (front ++ left).length, right.length, 0,
        List.replicate (left.length + right.length) none⟩ :=
    { left_at := ⟨right ++ rest, by simp [← starts]⟩
      ll := rfl
      right_at := ⟨rest, by rw [← List.append_assoc front, List.drop_left]⟩
      lr := rfl
      total := rfl
      result := rfl }
  obtain ⟨next, last, run, drained, result⟩ :=
    @halves_merged δ left right desc _ _ (left.length + right.length) (by omega) (by omega) progress
  have length : (List.merge left right (takesLeft desc)).length = left.length + right.length := by
    simp
  -- The result is copied back by two loops, one as long as each half was.
  obtain ⟨items, others, cut, items_length⟩ :
      ∃ items others, List.merge left right (takesLeft desc) = items ++ others ∧
        items.length = left.length :=
    ⟨_, _, (List.take_append_drop left.length _).symm, by simp⟩
  have others_length : others.length = right.length := by
    rw [cut, List.length_append] at length
    omega
  have copied_left : copyBack last.result left.length lower 0 (front ++ (left ++ (right ++ rest))) =
      some (front ++ (items ++ (right ++ rest))) := by
    rw [← items_length, ← starts]
    exact copy_back items left front (right ++ rest) items_length
      ⟨others.map some, by simp [result, cut]⟩
  have copied_right : copyBack last.result right.length (front ++ left).length left.length
      (front ++ (items ++ (right ++ rest))) = some (front ++ (items ++ (others ++ rest))) := by
    rw [List.length_append, ← items_length, ← others_length, ← List.length_append,
      ← List.append_assoc front, ← List.append_assoc front]
    exact copy_back others right (front ++ items) rest others_length ⟨[], by simp [result, cut]⟩
  unfold merge
  simp only [fits, if_true, ← first, ← second, middle, run, drained, copied_left, copied_right,
    Option.bind_eq_bind, Option.bind_some, cut, List.append_assoc]

/-- The two halves of a range, as sortArray cuts it. -/
theorem split_middle {range : List (Elem δ)}
    (ends : front.length + range.length = upper + 1) (more : front.length < upper) :
    ∃ left right, range = left ++ right ∧
      front.length + left.length = (front.length + upper) / 2 + 1 ∧
      right.length = upper - (front.length + upper) / 2 ∧ 0 < left.length ∧ 0 < right.length := by
  let count := (front.length + upper) / 2 - front.length + 1
  have left_length : (range.take count).length = count := by
    rw [List.length_take, Nat.min_eq_left (by omega)]
  have right_length : (range.drop count).length = range.length - count := List.length_drop
  exact ⟨_, _, (List.take_append_drop count range).symm, by omega, by omega, by omega, by omega⟩

/-- The last step of sortArray, behind the sorting of both halves. -/
theorem merge_sorted {left_sorted right_sorted : List (Elem δ)} (more : front.length < upper)
    (fits : upper ≤ 2 ^ 30)
    (left_ends : front.length + left.length = (front.length + upper) / 2 + 1)
    (right_length : right.length = upper - (front.length + upper) / 2)
    (left_perm : left_sorted.Perm left) (right_perm : right_sorted.Perm right) :
    (front ++ left_sorted).length = (front.length + upper) / 2 + 1 ∧
      merge (front ++ (left_sorted ++ (right_sorted ++ rest))) front.length upper desc =
        some (front ++ (List.merge left_sorted right_sorted (takesLeft desc) ++ rest)) := by
  have left_same := left_perm.length_eq
  have right_same := right_perm.length_eq
  refine ⟨?_, merge_halves (by omega) rfl (by omega) (by omega) more⟩
  rw [List.length_append]
  omega

/-- sortArray sorts the range from the end of `front` to the beginning of `rest`. -/
theorem sort_array_sorted (desc : Int) (front range rest : List (Elem δ)) (upper : Nat)
    (ends : front.length + range.length = upper + 1) (some_ : 0 < range.length)
    (fits : upper ≤ 2 ^ 30) :
    ∃ sorted, sortArray (front ++ (range ++ rest)) front.length upper desc =
        some (front ++ (sorted ++ rest)) ∧
      sorted.Perm range ∧ sorted.Pairwise (Ordered desc) := by
  -- The halves are shorter than the range; the right one starts behind the sorted left one.
  induction length : range.length using Nat.strongRecOn
    generalizing front range rest upper with
  | _ count ih =>
      by_cases more : front.length < upper
      · have sum : upper + front.length < 2 ^ 31 := by omega
        obtain ⟨left, right, rfl, left_ends, right_length, left_some, right_some⟩ :=
          split_middle ends more
        rw [List.length_append] at length
        obtain ⟨left_sorted, left_run, left_perm, left_order⟩ :=
          ih left.length (by omega) front left (right ++ rest) ((front.length + upper) / 2)
            (by omega) (by omega) (by omega) rfl
        have left_same := left_perm.length_eq
        obtain ⟨right_sorted, right_run, right_perm, right_order⟩ :=
          ih right.length (by omega) (front ++ left_sorted) right rest upper
            (by rw [List.length_append]; omega) (by omega) fits rfl
        obtain ⟨middle, merged⟩ :=
          @merge_sorted _ front left right rest _ desc _ _ more fits left_ends right_length
            left_perm right_perm
        refine ⟨_, ?_, ?_, merge_ordered left_order right_order⟩
        · rw [sortArray, if_pos more, if_pos sum, Nat.add_comm upper]
          simp only [List.append_assoc] at left_run right_run ⊢
          simp only [left_run, ← middle, right_run, merged, Option.bind_eq_bind, Option.bind_some]
        · exact (List.merge_perm_append _).trans (left_perm.append right_perm)
      · have single : range.length = 1 := by omega
        refine ⟨range, ?_, .refl _, ?_⟩
        · rw [sortArray, if_neg more]
        · obtain ⟨item, rfl⟩ := List.length_eq_one_iff.mp single
          exact List.pairwise_singleton _ _

end Sorting

section Ranges

variable {elems : List (Elem δ)} {lower upper : Nat} {desc : Int}

/-- The sum overflows at the latest for the last two or three elements of the range. -/
theorem sort_overflows (desc : Int) (elems : List (Elem δ)) (more : lower < upper)
    (large : 2 ^ 30 < upper) : sortArray elems lower upper desc = none := by
  induction length : upper - lower using Nat.strongRecOn generalizing elems lower with
  | _ count ih =>
      rw [sortArray, if_pos more]
      by_cases fits : upper + lower < 2 ^ 31
      · -- the right half ends at the same position, whatever the left one has become
        have right (elems : List (Elem δ)) :
            sortArray elems ((upper + lower) / 2 + 1) upper desc = none :=
          ih (upper - ((upper + lower) / 2 + 1)) (by omega) elems (by omega) rfl
        simp only [fits, if_true, Option.bind_eq_bind, right, Option.bind_none,
          Option.bind_fun_none]
      · rw [if_neg fits]

theorem range_between (front range' rest : List (Elem δ)) (starts : front.length = lower)
    (ends : front.length + range'.length = upper + 1) :
    range (front ++ (range' ++ rest)) lower upper = range' := by
  unfold range
  rw [← ends, ← starts, ← List.append_assoc, ← List.length_append, List.take_left, List.drop_left]

theorem split_range (ordered : lower ≤ upper) (inside : upper < elems.length) :
    ∃ front rest, elems = front ++ (range elems lower upper ++ rest) ∧ front.length = lower ∧
      front.length + (range elems lower upper).length = upper + 1 := by
  refine ⟨elems.take lower, elems.drop (upper + 1), ?_, ?_, ?_⟩
  · have front : (elems.take (upper + 1)).take lower = elems.take lower := by
      rw [List.take_take, Nat.min_eq_left (by omega)]
    rw [range, ← List.append_assoc, ← front, List.take_append_drop, List.take_append_drop]
  · rw [List.length_take, Nat.min_eq_left (by omega)]
  · rw [range, List.length_drop, List.length_take, List.length_take]
    omega

/-- Where the sums of the bounds fit in an int, sortArray sorts the range and nothing else. -/
theorem sorts_small (desc : Int) (ordered : lower ≤ upper) (inside : upper < elems.length)
    (small : upper ≤ 2 ^ 30) : Sorts elems lower upper desc := by
  obtain ⟨front, rest, cut, starts, ends⟩ := split_range ordered inside
  obtain ⟨sorted, run, perm, order⟩ :=
    sort_array_sorted desc front (range elems lower upper) rest upper ends (by omega) small
  rw [← cut, starts] at run
  have same_range := range_between front sorted rest starts (by rw [perm.length_eq, ends])
  refine ⟨_, run, ?_, fun pos outside => ?_, ?_, ?_⟩
  · rw [cut]
    simp [perm.length_eq]
  · rw [cut]
    rcases outside with before | behind
    · rw [List.getElem?_append_left (by omega), List.getElem?_append_left (by omega)]
    · have same := perm.length_eq
      rw [List.getElem?_append_right (by omega), List.getElem?_append_right (by omega),
        List.getElem?_append_right (by omega), List.getElem?_append_right (by omega), same]
  · rw [same_range]
    exact perm
  · rw [same_range]
    exact order

/-- sortArray sorts a range exactly if it has one element only or ends at position 2^30 at the
latest, so that no sum of two bounds leaves the range of an int. -/
theorem sorts_iff (elems : List (Elem δ)) (desc : Int) (ordered : lower ≤ upper)
    (inside : upper < elems.length) :
    Sorts elems lower upper desc ↔ lower = upper ∨ upper ≤ 2 ^ 30 := by
  constructor
  · rintro ⟨after, run, -⟩
    by_contra large
    rw [sort_overflows desc elems (by omega) (by omega)] at run
    cases run
  · rintro (rfl | small)
    · have run : sortArray elems lower lower desc = some elems := by
        rw [sortArray, if_neg (Nat.lt_irrefl lower)]
      refine ⟨elems, run, rfl, fun _ _ => rfl, .refl _, ?_⟩
      obtain ⟨front, rest, -, starts, ends⟩ := split_range ordered inside
      obtain ⟨item, single⟩ := List.length_eq_one_iff.mp
        (show (range elems lower lower).length = 1 by omega)
      rw [single]
      exact List.pairwise_singleton _ _
    · exact sorts_small desc ordered inside small

/-- Four elements, the last three of them sorted downwards. -/
theorem sorts_iff_four :
    Sorts [⟨5, 'a'⟩, ⟨1, 'b'⟩, ⟨2, 'c'⟩, ⟨1, 'd'⟩] 1 3 1 ↔ 1 = 3 ∨ 3 ≤ 2 ^ 30 :=
  sorts_iff _ 1 (by decide) (by decide)

/-- The last two of 2^30 + 2 elements: the sum of their positions is not an int. -/
theorem sum_overflows :
    2 ^ 30 ≤ 2 ^ 30 + 1 ∧ 2 ^ 30 + 1 < (List.replicate (2 ^ 30 + 2) (⟨0, ()⟩ : Elem Unit)).length ∧
      ¬ Sorts (List.replicate (2 ^ 30 + 2) (⟨0, ()⟩ : Elem Unit)) (2 ^ 30) (2 ^ 30 + 1) 0 := by
  refine ⟨by omega, by rw [List.length_replicate]; omega, ?_⟩
  rintro ⟨after, run, -⟩
  rw [sort_overflows 0 _ (by omega) (by omega)] at run
  cases run

end Ranges

section Cells

variable {elems left right : List (Elem δ)} {lower upper : Nat}

theorem merge_halves_cells (desc : Int) (left right : List (Elem δ)) :
    DynArrays.mergeHalves (decide (desc ≠ 0)) (left.map some) (right.map some) =
      some ((List.merge left right (takesLeft desc)).map some) := by
  induction left generalizing right with
  | nil => simp [DynArrays.mergeHalves]
  | cons first left ih_left =>
      induction right with
      | nil => simp [DynArrays.mergeHalves]
      | cons second right ih_right =>
          have taken : (if first.idx ≤ second.idx then !decide (desc ≠ 0) else decide (desc ≠ 0)) =
              takesLeft desc first second := by
            simp [takesLeft]
          rw [List.cons_merge_cons, List.map_cons, List.map_cons, DynArrays.mergeHalves, taken]
          by_cases takes : takesLeft desc first second
          · have later := ih_left (second :: right)
            rw [List.map_cons] at later
            rw [if_pos takes, if_pos takes, later]
            rfl
          · rw [List.map_cons] at ih_right
            rw [if_neg takes, if_neg takes, ih_right]
            rfl

theorem sort_cells_between (desc : Int) (front range rest : List (Elem δ)) (upper fuel : Nat)
    (ends : front.length + range.length = upper + 1) (some_ : 0 < range.length)
    (fits : upper ≤ 2 ^ 30) (enough : range.length ≤ fuel) :
    DynArrays.sortCells (decide (desc ≠ 0)) fuel ((front ++ (range ++ rest)).map some)
        front.length upper =
      (sortArray (front ++ (range ++ rest)) front.length upper desc).map (·.map some) := by
  induction fuel generalizing front range rest upper with
  | zero => omega
  | succ fuel ih =>
      by_cases more : front.length < upper
      · obtain ⟨left, right, rfl, left_ends, right_length, left_some, right_some⟩ :=
          split_middle ends more
        rw [List.length_append] at enough
        obtain ⟨left_sorted, left_run, left_perm, -⟩ :=
          sort_array_sorted desc front left (right ++ rest) _ left_ends left_some (by omega)
        have left_cells := ih front left (right ++ rest) _ left_ends left_some (by omega) (by omega)
        have left_length := left_perm.length_eq
        have right_ends : (front ++ left_sorted).length + right.length = upper + 1 := by
          rw [List.length_append]
          omega
        obtain ⟨right_sorted, right_run, right_perm, -⟩ :=
          sort_array_sorted desc (front ++ left_sorted) right rest upper right_ends right_some fits
        have right_cells := ih (front ++ left_sorted) right rest upper right_ends right_some fits
          (by omega)
        obtain ⟨middle, merged⟩ :=
          @merge_sorted _ front left right rest _ desc _ _ more fits left_ends right_length
            left_perm right_perm
        rw [left_run] at left_cells
        rw [right_run, middle] at right_cells
        rw [middle] at right_run
        simp only [List.append_assoc, Option.map_some] at left_cells right_cells left_run right_run
        have left_part := range_between front left_sorted (right_sorted ++ rest) rfl
          (by rw [left_length, left_ends])
        have right_part : range (front ++ left_sorted ++ (right_sorted ++ rest))
            ((front.length + upper) / 2 + 1) upper = right_sorted :=
          range_between _ _ _ middle (by rw [middle, right_perm.length_eq]; omega)
        have behind :
            (front ++ (left_sorted ++ (right_sorted ++ rest))).drop (upper + 1) = rest := by
          have same : upper + 1 = (front ++ left_sorted ++ right_sorted).length := by
            rw [List.length_append, middle, right_perm.length_eq]
            omega
          rw [same, ← List.append_assoc, ← List.append_assoc, List.drop_left]
        rw [List.append_assoc] at right_part
        rw [DynArrays.sortCells, sortArray, if_pos more, if_pos more, if_pos (by omega),
          List.append_assoc left]
        simp only [Nat.add_comm upper front.length, left_cells, right_cells, left_run, right_run,
          merged, Option.bind_eq_bind, Option.bind_some, Option.map_some]
        simp only [range] at left_part right_part
        simp only [← List.map_take, ← List.map_drop, left_part, right_part, merge_halves_cells,
          List.take_left, behind, Option.map_some]
        simp only [List.append_assoc, List.map_append]
      · rw [DynArrays.sortCells, sortArray, if_neg more, if_neg more]
        rfl

/-- The sorting of arrays with null pointers, without bounds on the positions, agrees with
sortArray where the sums of the bounds fit in an int. -/
theorem sort_cells_refined (desc : Int) (fuel : Nat) (ordered : lower ≤ upper)
    (inside : upper < elems.length) (fits : upper ≤ 2 ^ 30) (enough : upper < lower + fuel) :
    DynArrays.sortCells (decide (desc ≠ 0)) fuel (elems.map some) lower upper =
      (sortArray elems lower upper desc).map (·.map some) := by
  obtain ⟨front, rest, cut, starts, ends⟩ := split_range ordered inside
  have same := sort_cells_between desc front (range elems lower upper) rest upper fuel ends
    (by omega) fits (by omega)
  rwa [← cut, starts] at same

end Cells

end Sac2c.ArraySorting
