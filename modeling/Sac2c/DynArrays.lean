import Sac2c.OwnedBlocks

/-!
The growing arrays of dynarray.c. An array that is full gets a larger block from
MEMrealloc, and the pointer to the old block is then given to MEMfree; that is defined
for the first block only, when the old pointer is null.
-/

namespace Sac2c.DynArrays
open OwnedBlocks

section Model

/-- The struct ELEM. -/
structure Elem (δ : Type) where
  idx : Int
  data : δ
  deriving DecidableEq, Repr

/-- The struct DYNARRAY, of pointers that may be null. -/
structure DynArray (α : Type) where
  elems : Pointer (Option α)
  totalElems : Nat
  allocElems : Nat
  deriving DecidableEq, Repr

variable {α : Type}

/-- initDynarray. -/
def initDynarray : DynArray α := ⟨.null, 0, 0⟩

namespace DynArray

/-- DYNARRAY_ELEMS_POS, as an element that is no null pointer. -/
def elemsPos (arrayd : DynArray α) (pos : Nat) : Option α := (arrayd.elems.load pos).join

/-- An assignment to DYNARRAY_ELEMS_POS. -/
def setPos (arrayd : DynArray α) (pos : Nat) (item : Option α) : Option (DynArray α) :=
  (arrayd.elems.store pos item).map fun elems => { arrayd with elems := elems }

/-- The assignment of DYNARRAY_ALLOCELEMS, MEMrealloc and MEMfree. -/
def grow (garbage : Nat → Option α) (arrayd : DynArray α) (size : Nat) : Option (DynArray α) :=
  ((arrayd.elems.realloc garbage size).bind fun moved => moved.2.free.map fun _ => moved.1).map
    fun elems => { arrayd with elems := elems, allocElems := size }

/-- addToArray. -/
def addToArray (garbage : Nat → Option α) (arrayd : DynArray α) (item : α) :
    Option (DynArray α) :=
  (if arrayd.totalElems = arrayd.allocElems then arrayd.grow garbage (arrayd.allocElems + 3)
    else some arrayd).bind fun arrayd =>
      { arrayd with totalElems := arrayd.totalElems + 1 }.setPos arrayd.totalElems (some item)

/-- addToArrayAtPos. -/
def addToArrayAtPos (garbage : Nat → Option α) (arrayd : DynArray α) (item : Option α)
    (pos : Nat) : Option (DynArray α) :=
  (if arrayd.allocElems ≤ pos then arrayd.grow garbage (pos + 1) else some arrayd).bind
    fun arrayd => { arrayd with totalElems := arrayd.allocElems }.setPos pos item

/-- The elements in use. -/
def contents (arrayd : DynArray α) : List (Option α) :=
  match arrayd.elems with
  | .live cells => cells.take arrayd.totalElems
  | _ => []

end DynArray

/-- indexExistsInArray. -/
def indexExistsInArray {δ : Type} (arrayd : DynArray (Elem δ)) (idx : Int) : Option Bool :=
  (List.range arrayd.totalElems).foldlM
    (fun found i => if found then some true else (arrayd.elemsPos i).map fun e => idx == e.idx)
    false

/-- The loops of merge, on the two halves. -/
def mergeHalves {δ : Type} (desc : Bool) :
    List (Option (Elem δ)) → List (Option (Elem δ)) → Option (List (Option (Elem δ)))
  | [], right => some right
  | left, [] => some left
  | some x :: left, some y :: right =>
      if (if x.idx ≤ y.idx then !desc else desc) then
        (mergeHalves desc left (some y :: right)).map (some x :: ·)
      else (mergeHalves desc (some x :: left) right).map (some y :: ·)
  | _, _ => none

/-- sortArray from `lower` to `upper`. The depth of the recursion is less than the length. -/
def sortCells {δ : Type} (desc : Bool) :
    Nat → List (Option (Elem δ)) → Nat → Nat → Option (List (Option (Elem δ)))
  | 0, _, _, _ => none
  | fuel + 1, cells, lower, upper =>
      if lower < upper then
        let mid := (upper + lower) / 2
        (sortCells desc fuel cells lower mid).bind fun cells =>
          (sortCells desc fuel cells (mid + 1) upper).bind fun cells =>
            (mergeHalves desc ((cells.take (mid + 1)).drop lower)
              ((cells.take (upper + 1)).drop (mid + 1))).map fun result =>
                cells.take lower ++ result ++ cells.drop (upper + 1)
      else some cells

/-- sortArray on the elements in use; it aborts if there is no block. -/
def sortArray {δ : Type} (arrayd : DynArray (Elem δ)) (desc : Bool) :
    Option (DynArray (Elem δ)) :=
  match arrayd.elems with
  | .live cells =>
      (sortCells desc (arrayd.totalElems + 1) cells 0 (arrayd.totalElems - 1)).map fun cells =>
        { arrayd with elems := .live cells }
  | _ => none

end Model

section Growth

variable {α : Type}

theorem grow_null (garbage : Nat → Option α) (total alloc size : Nat) :
    (⟨.null, total, alloc⟩ : DynArray α).grow garbage size =
      some ⟨.malloc garbage size, total, size⟩ := rfl

/-- An array that has a block cannot grow. -/
theorem grow_owned (garbage : Nat → Option α) {arrayd : DynArray α} (owned : arrayd.elems ≠ .null)
    (size : Nat) : arrayd.grow garbage size = none := by
  rw [DynArray.grow, Pointer.freed_after_realloc garbage size owned, Option.map_none]

end Growth

section Access

variable {α : Type} (cells : List (Option α)) (total alloc : Nat)

@[simp] theorem elems_pos_live (pos : Nat) :
    (⟨.live cells, total, alloc⟩ : DynArray α).elemsPos pos = cells[pos]?.join := rfl

@[simp] theorem set_pos_live {pos : Nat} (inside : pos < cells.length) (item : Option α) :
    (⟨.live cells, total, alloc⟩ : DynArray α).setPos pos item =
      some ⟨.live (cells.set pos item), total, alloc⟩ := by
  simp [DynArray.setPos, Pointer.store, inside]

@[simp] theorem contents_live :
    (⟨.live cells, total, alloc⟩ : DynArray α).contents = cells.take total := rfl

/-- What an assignment to a position changes. -/
theorem elems_pos_set {arrayd after : DynArray α} {j : Nat} {item : Option α}
    (stored : arrayd.setPos j item = some after) (i : Nat) :
    after.elemsPos i = if i = j then item else arrayd.elemsPos i := by
  obtain ⟨elems, written, rfl⟩ := Option.map_eq_some_iff.mp stored
  by_cases same : i = j
  · subst same
    simp [DynArray.elemsPos, Pointer.load_stored written]
  · simp [DynArray.elemsPos, Pointer.load_stored_other same written, same]

end Access

end Sac2c.DynArrays
