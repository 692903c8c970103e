import Sac2c.DynArrays

/-!
The growing matrices of dynmatrix.c: an array of pointers to growing arrays, one for
each row. A matrix of one row and one column cannot grow.
-/

namespace Sac2c.DynMatrices
open OwnedBlocks DynArrays

section Model

/-- The struct MATRIX. -/
structure Matrix (α : Type) where
  array2D : Pointer (Option (DynArray α))
  totalRows : Nat
  totalCols : Nat
  deriving DecidableEq, Repr

variable {α : Type}

/-- What fresh blocks of rows and of elements happen to hold. -/
structure Garbage (α : Type) where
  rows : Nat → Option (DynArray α)
  elems : Nat → Option α

/-- initMatrix. -/
def initMatrix : Matrix α := ⟨.null, 0, 0⟩

namespace Matrix

/-- MATRIX_ARRAY2D( m)[i], as a row that is no null pointer. -/
def row (m : Matrix α) (i : Nat) : Option (DynArray α) := (m.array2D.load i).join

def setRow (m : Matrix α) (i : Nat) (arrayd : DynArray α) : Option (Matrix α) :=
  (m.array2D.store i (some arrayd)).map fun array2D => { m with array2D := array2D }

/-- addToArrayAtPos on a row. -/
def addToRow (garbage : Garbage α) (m : Matrix α) (i : Nat) (element : Option α) (pos : Nat) :
    Option (Matrix α) :=
  (m.row i).bind fun arrayd =>
    (arrayd.addToArrayAtPos garbage.elems element pos).bind fun arrayd => m.setRow i arrayd

/-- The assignment of MATRIX_TOTALROWS, MEMrealloc and MEMfree. -/
def growRows (garbage : Garbage α) (m : Matrix α) (rows : Nat) : Option (Matrix α) :=
  ((m.array2D.realloc garbage.rows rows).bind fun moved => moved.2.free.map fun _ => moved.1).map
    fun array2D => { m with array2D := array2D, totalRows := rows }

/-- setMatrixElem. -/
def setElem (garbage : Garbage α) (m : Matrix α) (x y : Nat) (element : Option α) :
    Option (Matrix α) :=
  let oldlength := m.totalRows
  (if m.totalCols < y + 1 then
      (List.range m.totalRows).foldlM (fun m i => m.addToRow garbage i none (m.totalCols - 1))
        { m with totalCols := y + 1 }
    else some m).bind fun m =>
  (if m.totalRows < x + 1 then m.growRows garbage (x + 1) else some m).bind fun m =>
  ((List.range' oldlength (m.totalRows - oldlength)).foldlM
    (fun (m : Matrix α) i => (m.setRow i initDynarray).bind fun m =>
      m.addToRow garbage i none (m.totalCols - 1)) m).bind fun m =>
  m.addToRow garbage x element y

/-- getMatrixElem. -/
def getElem (m : Matrix α) (x y : Nat) : Option (Option α) :=
  (m.row x).bind fun arrayd => arrayd.elems.load y

end Matrix

variable {δ : Type}

/-- setMatrixValue, with the null pointer for the data. -/
def Matrix.setValue (garbage : Garbage (Elem δ)) (null : δ) (m : Matrix (Elem δ)) (x y : Nat)
    (value : Int) : Option (Matrix (Elem δ)) :=
  m.setElem garbage x y (some ⟨value, null⟩)

/-- getMatrixValue. -/
def Matrix.getValue (m : Matrix (Elem δ)) (x y : Nat) : Option Int :=
  (m.getElem x y).map fun e => match e with
    | some e => e.idx
    | none => -1

end Model

section Rows

variable {α : Type} (garbage : Garbage α)

/-- A matrix that has a row cannot get more rows. -/
theorem grow_rows_owned {m : Matrix α} (owned : m.array2D ≠ .null)
    (rows : Nat) : m.growRows garbage rows = none := by
  rw [Matrix.growRows, Pointer.freed_after_realloc garbage.rows rows owned, Option.map_none]

theorem add_to_row_live {m after : Matrix α} {i pos : Nat} {element : Option α}
    (ran : m.addToRow garbage i element pos = some after) :
    after.array2D ≠ .null ∧ after.totalRows = m.totalRows := by
  simp only [Matrix.addToRow, Matrix.setRow, Option.bind_eq_some_iff,
    Option.map_eq_some_iff] at ran
  obtain ⟨_, _, _, _, array2D, stored, rfl⟩ := ran
  exact ⟨Pointer.stored_owned stored, rfl⟩

/-- The loops that make rows longer keep their number. -/
theorem longer_rows_keep {m after : Matrix α} {element : Option α} {pos : Matrix α → Nat}
    {l : List Nat} (owned : m.array2D ≠ .null)
    (ran : l.foldlM (fun m i => m.addToRow garbage i element (pos m)) m = some after) :
    after.array2D ≠ .null ∧ after.totalRows = m.totalRows := by
  refine loop_keeps (P := fun m' => m'.array2D ≠ .null ∧ m'.totalRows = m.totalRows)
    ⟨owned, rfl⟩ ?_ ran
  intro i _ s s' holds step
  have kept := add_to_row_live garbage step
  exact ⟨kept.1, kept.2.trans holds.2⟩

theorem set_keeps_rows {m after : Matrix α} (owned : m.array2D ≠ .null) {x y : Nat}
    (inside : x < m.totalRows) {element : Option α}
    (ran : m.setElem garbage x y element = some after) :
    after.array2D ≠ .null ∧ after.totalRows = m.totalRows := by
  simp only [Matrix.setElem, Option.bind_eq_some_iff] at ran
  obtain ⟨wide, widened, grown, grew, filled, fill, last⟩ := ran
  have kept : wide.array2D ≠ .null ∧ wide.totalRows = m.totalRows := by
    split at widened
    · exact longer_rows_keep garbage (m := { m with totalCols := y + 1 }) owned widened
    · cases widened
      exact ⟨owned, rfl⟩
  rw [if_neg (by omega)] at grew
  cases grew
  rw [kept.2, Nat.sub_self] at fill
  cases fill
  have last := add_to_row_live garbage last
  exact ⟨last.1, last.2.trans kept.2⟩

/-- A matrix that has a row cannot get another one. -/
theorem set_new_row {m : Matrix α} (owned : m.array2D ≠ .null) {x : Nat} (new : m.totalRows ≤ x)
    (y : Nat) (element : Option α) : m.setElem garbage x y element = none := by
  have stuck : ∀ after : Matrix α, after.array2D ≠ .null ∧ after.totalRows = m.totalRows →
      (if after.totalRows < x + 1 then after.growRows garbage (x + 1) else some after) = none := by
    intro after kept
    rw [if_pos (by omega)]
    exact grow_rows_owned garbage kept.1 (x + 1)
  -- The rows may be made longer first, which does not change their number.
  rw [Matrix.setElem]
  split
  · cases longer : (List.range m.totalRows).foldlM
        (fun m i => m.addToRow garbage i none (m.totalCols - 1))
        { m with totalCols := y + 1 } with
    | none => rfl
    | some after =>
        have kept := longer_rows_keep garbage (m := { m with totalCols := y + 1 }) owned longer
        rw [Option.bind_some, stuck after kept, Option.bind_none]
  · rw [Option.bind_some, stuck m ⟨owned, rfl⟩, Option.bind_none]

theorem add_to_row_unassigned (p : Unassigned (Option (DynArray α))) {m : Matrix α}
    (unassigned : m.array2D = p.pointer) (i : Nat) (element : Option α) (pos : Nat) :
    m.addToRow garbage i element pos = none := by
  rw [Matrix.addToRow, Matrix.row, unassigned, unassigned_load, Option.join_none, Option.bind_none]

theorem grown_rows {m after : Matrix α} {rows : Nat}
    (ran : m.growRows garbage rows = some after) :
    after.array2D ≠ .null ∧ after.totalRows = rows := by
  by_cases held : m.array2D = .null
  · simp only [Matrix.growRows, held, Pointer.realloc, Pointer.free, Option.bind_some,
      Option.map_some, Option.some.injEq] at ran
    subst after
    exact ⟨nofun, rfl⟩
  · rw [grow_rows_owned garbage held] at ran
    cases ran

/-- Rows that there happen to be before any is assigned cannot be used. -/
theorem set_stray_rows (p : Unassigned (Option (DynArray α))) {rows cols x : Nat}
    (inside : x < rows) (y : Nat) (element : Option α) :
    (⟨p.pointer, rows, cols⟩ : Matrix α).setElem garbage x y element = none := by
  rw [Matrix.setElem]
  split
  · rw [loop_stuck (P := fun m => m.array2D = p.pointer) rfl ?_
      (List.mem_range.mpr (Nat.lt_of_le_of_lt (Nat.zero_le x) inside)) ?_, Option.bind_none]
    · intro i _ s s' unassigned step
      rw [add_to_row_unassigned garbage p unassigned] at step
      cases step
    · intro s unassigned
      exact add_to_row_unassigned garbage p unassigned 0 none _
  · rw [Option.bind_some, if_neg (by dsimp only; omega), Option.bind_some]
    dsimp only
    rw [Nat.sub_self]
    exact add_to_row_unassigned garbage p rfl x element y

/-- The loop that initialises rows keeps their number as well. -/
theorem new_rows_keep {m after : Matrix α} {l : List Nat} (owned : m.array2D ≠ .null)
    (ran : l.foldlM (fun (m : Matrix α) i => (m.setRow i initDynarray).bind fun m =>
      m.addToRow garbage i none (m.totalCols - 1)) m = some after) :
    after.array2D ≠ .null ∧ after.totalRows = m.totalRows := by
  refine loop_keeps (P := fun m' => m'.array2D ≠ .null ∧ m'.totalRows = m.totalRows)
    ⟨owned, rfl⟩ ?_ ran
  intro i _ s s' holds step
  obtain ⟨initialised, stored, step⟩ := Option.bind_eq_some_iff.mp step
  have same : initialised.totalRows = s.totalRows := by
    obtain ⟨_, _, rfl⟩ := Option.map_eq_some_iff.mp stored
    rfl
  have kept := add_to_row_live garbage step
  exact ⟨kept.1, kept.2.trans (same.trans holds.2)⟩

/-- The first assignment to a matrix that has not been initialised works only if there
happen to be no rows. -/
theorem set_unassigned (p : Unassigned (Option (DynArray α))) {rows cols y : Nat}
    {element : Option α} {after : Matrix α}
    (ran : (⟨p.pointer, rows, cols⟩ : Matrix α).setElem garbage 0 y element = some after) :
    after.array2D ≠ .null ∧ after.totalRows = 1 := by
  cases rows with
  | zero =>
      simp only [Matrix.setElem, Option.bind_eq_some_iff] at ran
      obtain ⟨wide, widened, grown, grew, filled, fill, last⟩ := ran
      have none_yet : wide.totalRows = 0 := by
        split at widened <;> cases widened <;> rfl
      rw [if_pos (by omega)] at grew
      have rows := grown_rows garbage grew
      have kept := new_rows_keep garbage rows.1 fill
      have kept_last := add_to_row_live garbage last
      exact ⟨kept_last.1, kept_last.2.trans (kept.2.trans rows.2)⟩
  | succ rows =>
      rw [set_stray_rows garbage p (Nat.succ_pos rows)] at ran
      cases ran

end Rows

section SingleCell

variable {α : Type}

/-- The matrix of one row and one column. -/
def single (element : α) : Matrix α :=
  ⟨.live [some ⟨.live [some element], 1, 1⟩], 1, 1⟩

theorem set_first (garbage : Garbage α) (element : α) :
    initMatrix.setElem garbage 0 0 (some element) = some (single element) := by
  rfl

theorem set_again (garbage : Garbage α) (old element : α) :
    (single old).setElem garbage 0 0 (some element) = some (single element) := by
  rfl

/-- Any other cell needs a larger row, or more rows. -/
theorem set_other (garbage : Garbage α) (old element : α) {x y : Nat} (other : 0 < x ∨ 0 < y) :
    (single old).setElem garbage x y (some element) = none := by
  by_cases column : 0 < y
  · have outside : 1 ≤ y := column
    simp [Matrix.setElem, single, column, List.range_succ, Matrix.addToRow, Matrix.row,
      Pointer.load, DynArray.addToArrayAtPos, outside, grow_owned]
  · have row : 0 < x := by omega
    have rows : (single old).totalRows ≤ x := row
    exact set_new_row garbage (by simp [single]) rows y (some element)

end SingleCell

end Sac2c.DynMatrices
