import Mathlib.LinearAlgebra.Matrix.RowCol
import Sac2c.RowReduction

/-!
The rank of an integer matrix in support/int_matrix.c: Gauss-Jordan elimination in which a
pivot row is divided by its pivot as ints are. The elimination is defined for any ring with any
division, so that the one of the rationals can be set beside it.
-/

namespace Sac2c.IntMatrix
open RowReduction

variable {R : Type} {rows cols : Nat}

section Model
variable [CommRing R] [DecidableEq R]

/-- MatrixMulAndAddRows. -/
def matrixMulAndAddRows (m : Matrix (Fin rows) (Fin cols) R) (ixrdest ixrsrc : Fin rows) (mplr : R) :
    Matrix (Fin rows) (Fin cols) R :=
  m.updateRow ixrdest fun ix => m ixrdest ix + mplr * m ixrsrc ix

/-- MatrixSwapRows. -/
def matrixSwapRows (m : Matrix (Fin rows) (Fin cols) R) (rix1 rix2 : Fin rows) :
    Matrix (Fin rows) (Fin cols) R :=
  if rix1 = rix2 then m else (m.updateRow rix1 (m rix2)).updateRow rix2 (m rix1)

/-- MatrixNormalizeRow. -/
def matrixNormalizeRow (div : R → R → R) (m : Matrix (Fin rows) (Fin cols) R) (rix : Fin rows)
    (lead : Fin cols) : Matrix (Fin rows) (Fin cols) R :=
  m.updateRow rix fun ix => div (m rix ix) (m rix lead)

/-- The while loop of MatrixToReducedREForm, for some number of rounds at most: the row and the
column of the next pivot. -/
def findPivot (m : Matrix (Fin rows) (Fin cols) R) (rix : Fin rows) :
    Nat → Fin rows → Fin cols → Option (Fin rows × Fin cols)
  | 0, _, _ => none
  | rounds + 1, iix, lead =>
      if m iix lead = 0 then
        if below : iix.val + 1 < rows then findPivot m rix rounds ⟨iix + 1, below⟩ lead
        else if right : lead.val + 1 < cols then findPivot m rix rounds rix ⟨lead + 1, right⟩
        else none
      else some (iix, lead)

/-- The inner for loop of MatrixToReducedREForm, over some rows. -/
def clearRows (rix : Fin rows) (lead : Fin cols) :
    List (Fin rows) → Matrix (Fin rows) (Fin cols) R → Matrix (Fin rows) (Fin cols) R
  | [], m => m
  | iix :: rest, m =>
      clearRows rix lead rest
        (if iix ≠ rix then matrixMulAndAddRows m iix rix (-m iix lead) else m)

/-- The body of the outer for loop behind the search for the pivot. -/
def pivotStep (div : R → R → R) (m : Matrix (Fin rows) (Fin cols) R) (rix iix : Fin rows)
    (lead : Fin cols) : Matrix (Fin rows) (Fin cols) R :=
  clearRows rix lead (List.finRange rows)
    (matrixNormalizeRow div (matrixSwapRows m iix rix) rix lead)

/-- The outer for loop of MatrixToReducedREForm, for some number of rounds at most. -/
def reduceFrom (div : R → R → R) :
    Nat → Nat → Nat → Matrix (Fin rows) (Fin cols) R → Matrix (Fin rows) (Fin cols) R
  | 0, _, _, m => m
  | rounds + 1, rix, lead, m =>
      if inside : rix < rows ∧ lead < cols then
        match findPivot m ⟨rix, inside.1⟩ (rows * cols) ⟨rix, inside.1⟩ ⟨lead, inside.2⟩ with
        | none => m
        | some (iix, lead) =>
            reduceFrom div rounds (rix + 1) (lead + 1) (pivotStep div m ⟨rix, inside.1⟩ iix lead)
      else m

/-- MatrixToReducedREForm. -/
def matrixToReducedREForm (div : R → R → R) (m : Matrix (Fin rows) (Fin cols) R) :
    Matrix (Fin rows) (Fin cols) R := reduceFrom div rows 0 0 m

/-- NumOfZeroRows. -/
def numOfZeroRows (m : Matrix (Fin rows) (Fin cols) R) : Nat :=
  (List.finRange rows).countP fun i => (List.finRange cols).all fun j => m i j = 0

/-- MatrixRank. -/
def matrixRank (m : Matrix (Fin rows) (Fin cols) Int) : Nat :=
  rows - numOfZeroRows (matrixToReducedREForm Int.tdiv m)

end Model

section Steps
variable {m : Matrix (Fin rows) (Fin cols) R} {div : R → R → R}

theorem swap_rows (rix1 rix2 i : Fin rows) :
    matrixSwapRows m rix1 rix2 i = m (Equiv.swap rix1 rix2 i) := by
  rw [matrixSwapRows]
  split
  · next same => rw [same, Equiv.swap_self, Equiv.refl_apply]
  · by_cases second : i = rix2
    · rw [second, Matrix.updateRow_self, Equiv.swap_apply_right]
    · rw [Matrix.updateRow_ne second]
      by_cases first : i = rix1
      · rw [first, Matrix.updateRow_self, Equiv.swap_apply_left]
      · rw [Matrix.updateRow_ne first, Equiv.swap_apply_of_ne_of_ne first second]

variable [CommRing R]

/-- Every row of the loop is cleared once. -/
theorem rows_cleared {rix : Fin rows} (lead : Fin cols) {todo : List (Fin rows)}
    (once : todo.Nodup) (i : Fin rows) (j : Fin cols) :
    clearRows rix lead todo m i j =
      if i ∈ todo ∧ i ≠ rix then m i j - m i lead * m rix j else m i j := by
  induction todo generalizing m with
  | nil => simp [clearRows]
  | cons iix rest ih =>
      obtain ⟨fresh, once⟩ := List.nodup_cons.mp once
      rw [clearRows, ih once]
      by_cases pivot : iix = rix
      · subst pivot
        rw [if_neg (not_not.mpr rfl)]
        by_cases here : i = iix
        · simp [here]
        · simp [here]
      · have source : (matrixMulAndAddRows m iix rix (-m iix lead)) rix = m rix := by
          rw [matrixMulAndAddRows, Matrix.updateRow_ne (Ne.symm pivot)]
        rw [if_pos pivot, source]
        by_cases here : i = iix
        · subst here
          rw [if_neg fun both => fresh both.1, if_pos ⟨List.mem_cons_self, pivot⟩,
            matrixMulAndAddRows, Matrix.updateRow_self]
          ring
        · have frame : (matrixMulAndAddRows m iix rix (-m iix lead)) i = m i := by
            rw [matrixMulAndAddRows, Matrix.updateRow_ne here]
          simp [frame, here]

/-- What a pivot step makes of the pivot row. -/
theorem pivot_row (rix iix : Fin rows) (lead : Fin cols) (j : Fin cols) :
    pivotStep div m rix iix lead rix j = div (m iix j) (m iix lead) := by
  rw [pivotStep, rows_cleared lead (List.nodup_finRange rows), if_neg (by simp),
    matrixNormalizeRow, Matrix.updateRow_self, swap_rows, Equiv.swap_apply_right]

/-- What it makes of the other rows. -/
theorem other_row {rix i : Fin rows} (apart : i ≠ rix) (iix : Fin rows) (lead j : Fin cols) :
    pivotStep div m rix iix lead i j =
      m (Equiv.swap iix rix i) j -
        m (Equiv.swap iix rix i) lead * pivotStep div m rix iix lead rix j := by
  rw [pivot_row, pivotStep, rows_cleared lead (List.nodup_finRange rows),
    if_pos ⟨List.mem_finRange i, apart⟩, matrixNormalizeRow, Matrix.updateRow_self,
    Matrix.updateRow_ne apart, swap_rows, swap_rows, Equiv.swap_apply_right]

/-- A column of zeros more. -/
theorem zeros_upto {rix : Fin rows} {lead : Fin cols}
    (left : ∀ i, rix ≤ i → ∀ j, j < lead → m i j = 0) (column : ∀ i, rix ≤ i → m i lead = 0) :
    ∀ i, rix ≤ i → ∀ j, j ≤ lead → m i j = 0 := by
  intro i more j upto
  rcases lt_or_eq_of_le upto with less | last
  · exact left i more j less
  · exact last ▸ column i more

variable [DecidableEq R]

/-- The search ends with the first pivot, or with nothing but zeros. -/
theorem pivot_found {rix iix : Fin rows} {lead : Fin cols} {rounds : Nat} (from_row : rix ≤ iix)
    (left : ∀ i, rix ≤ i → ∀ j, j < lead → m i j = 0)
    (above : ∀ i, rix ≤ i → i < iix → m i lead = 0)
    (enough : (cols - lead) * rows ≤ rounds + iix) :
    match findPivot m rix rounds iix lead with
    | none => ∀ i, rix ≤ i → ∀ j, m i j = 0
    | some (p, l) => rix ≤ p ∧ m p l ≠ 0 ∧ (∀ i, rix ≤ i → ∀ j, j < l → m i j = 0) ∧
        ∀ i, rix ≤ i → i < p → m i l = 0 := by
  -- The search goes down a column, and on to the next one if that is all zeros.
  induction rounds generalizing iix lead with
  | zero =>
      have column : rows ≤ (cols - lead) * rows := Nat.le_mul_of_pos_left rows (by omega)
      omega
  | succ rounds ih =>
      rw [findPivot]
      by_cases zero : m iix lead = 0
      · have upto : ∀ i, rix ≤ i → i ≤ iix → m i lead = 0 := fun i more less =>
          (lt_or_eq_of_le less).elim (above i more) fun same => same ▸ zero
        rw [if_pos zero]
        by_cases below : iix.val + 1 < rows
        · rw [dif_pos below]
          refine ih (Fin.le_def.mpr ?_) left (fun i more less => upto i more ?_) ?_
          · exact Nat.le_succ_of_le from_row
          · exact Fin.le_def.mpr (Nat.le_of_lt_succ less)
          · dsimp only
            omega
        · have column : ∀ i, rix ≤ i → m i lead = 0 := fun i more =>
            upto i more (Fin.le_def.mpr (by omega))
          rw [dif_neg below]
          have zeros := zeros_upto left column
          by_cases right : lead.val + 1 < cols
          · have turned : (cols - (lead + 1)) * rows + rows = (cols - lead) * rows := by
              rw [← Nat.succ_mul]
              congr 1
              omega
            rw [dif_pos right]
            refine ih (le_refl rix) (fun i more j less => zeros i more j ?_)
              (fun i more less => absurd more (not_le.mpr less)) ?_
            · exact Fin.le_def.mpr (Nat.le_of_lt_succ less)
            · dsimp only
              omega
          · rw [dif_neg right]
            exact fun i more j => zeros i more j (Fin.le_def.mpr (by omega))
      · rw [if_neg zero]
        exact ⟨from_row, zero, left, above⟩

end Steps

section Reduction

/-- What an elimination needs of a division. -/
structure Division [Zero R] [One R] (div : R → R → R) : Prop where
  zero : ∀ y, div 0 y = 0
  self : ∀ x, x ≠ 0 → div x x = 1

/-- The state of the outer loop: the rows above have columns of their own, and the others are
zero on the left. -/
structure Reduced [Zero R] [One R] (rix lead : Nat) (m : Matrix (Fin rows) (Fin cols) R) : Prop where
  own : ∀ i, i.val < rix → ∃ j, j.val < lead ∧ m i j = 1 ∧ ∀ i', i' ≠ i → m i' j = 0
  below : ∀ i, rix ≤ i.val → ∀ j, j.val < lead → m i j = 0

theorem swap_below {rix p i : Fin rows} (from_row : rix ≤ p) (more : rix ≤ i) :
    rix ≤ Equiv.swap p rix i := by
  by_cases first : i = p
  · rw [first, Equiv.swap_apply_left]
  · by_cases second : i = rix
    · rw [second, Equiv.swap_apply_right]
      exact from_row
    · rwa [Equiv.swap_apply_of_ne_of_ne first second]

variable [CommRing R] {m : Matrix (Fin rows) (Fin cols) R} {div : R → R → R}

/-- A pivot step gives the pivot row a column of its own. -/
theorem step_reduced (division : Division div) {rix p : Fin rows} {l : Fin cols} {lead : Nat}
    (reduced : Reduced rix lead m) (from_row : rix ≤ p) (from_column : lead ≤ l)
    (nonzero : m p l ≠ 0) (left : ∀ i, rix ≤ i → ∀ j, j < l → m i j = 0) :
    Reduced (rix + 1) (l + 1) (pivotStep div m rix p l) := by
  have one : pivotStep div m rix p l rix l = 1 := by rw [pivot_row, division.self _ nonzero]
  have zero : ∀ j, m p j = 0 → pivotStep div m rix p l rix j = 0 := fun j none => by
    rw [pivot_row, none, division.zero]
  have cleared : ∀ i, i ≠ rix → pivotStep div m rix p l i l = 0 := fun i apart => by
    rw [other_row apart, one, mul_one, sub_self]
  constructor
  · intro i less
    by_cases here : i = rix
    · rw [here]
      exact ⟨l, Nat.lt_succ_self l, one, cleared⟩
    -- The pivot row is zero in the column of a row above, which is left as it is.
    · have before : i < rix := Fin.lt_def.mpr (by
        have apart := Fin.val_ne_of_ne here
        omega)
      obtain ⟨j, inside, isOne, alone⟩ := reduced.own i before
      have aside : i ≠ p := fun same => absurd (same ▸ from_row) (not_le.mpr before)
      have stays : Equiv.swap p rix i = i := Equiv.swap_apply_of_ne_of_ne aside here
      have untouched := zero j (alone p (Ne.symm aside))
      refine ⟨j, by omega, ?_, fun i' apart => ?_⟩
      · rw [other_row here, stays, untouched, mul_zero, sub_zero, isOne]
      · by_cases pivot : i' = rix
        · rw [pivot, untouched]
        · have moved : Equiv.swap p rix i' ≠ i := fun same =>
            apart ((Equiv.swap p rix).injective (same.trans stays.symm))
          rw [other_row pivot, untouched, mul_zero, sub_zero, alone _ moved]
  · intro i more j inside
    have apart : i ≠ rix := fun same => by rw [same] at more; omega
    by_cases last : j = l
    · rw [last, cleared i apart]
    · have before : j < l := Fin.lt_def.mpr (by
        have other := Fin.val_ne_of_ne last
        omega)
      have behind : rix ≤ i := Fin.le_def.mpr (by omega)
      rw [other_row apart, zero j (left p from_row j before), mul_zero, sub_zero,
        left _ (swap_below from_row behind) j before]

theorem start_reduced : Reduced 0 0 m :=
  ⟨fun _ less => absurd less (Nat.not_lt_zero _), fun _ _ _ less => absurd less (Nat.not_lt_zero _)⟩

/-- The elimination is done when the rows that are left are zero. -/
theorem own_columns_done {rix lead : Nat} (reduced : Reduced rix lead m)
    (zeros : ∀ i : Fin rows, rix ≤ i → ∀ j, m i j = 0) : OwnColumns m := by
  intro i
  by_cases before : i.val < rix
  · obtain ⟨j, _, one, alone⟩ := reduced.own i before
    exact Or.inr ⟨j, one, alone⟩
  · exact Or.inl (zeros i (not_lt.mp before))

variable [DecidableEq R]

/-- The search of a round, from what has been cleared on. -/
theorem round_search {rix lead : Nat} (inside : rix < rows ∧ lead < cols)
    (reduced : Reduced rix lead m) :
    match findPivot m ⟨rix, inside.1⟩ (rows * cols) ⟨rix, inside.1⟩ ⟨lead, inside.2⟩ with
    | none => ∀ i, ⟨rix, inside.1⟩ ≤ i → ∀ j, m i j = 0
    | some (p, l) => ⟨rix, inside.1⟩ ≤ p ∧ m p l ≠ 0 ∧
        (∀ i, ⟨rix, inside.1⟩ ≤ i → ∀ j, j < l → m i j = 0) ∧
          ∀ i, ⟨rix, inside.1⟩ ≤ i → i < p → m i l = 0 := by
  refine pivot_found (le_refl _) (fun i more j less => reduced.below i more j less)
    (fun i more less => absurd more (not_le.mpr less)) ?_
  calc (cols - lead) * rows ≤ cols * rows := Nat.mul_le_mul_right _ (Nat.sub_le _ _)
    _ = rows * cols := Nat.mul_comm _ _
    _ ≤ rows * cols + rix := Nat.le_add_right _ _

/-- A round with a pivot. -/
theorem round_reduced (division : Division div) {rix lead : Nat} (inside : rix < rows ∧ lead < cols)
    (reduced : Reduced rix lead m) {p : Fin rows} {l : Fin cols}
    (found : findPivot m ⟨rix, inside.1⟩ (rows * cols) ⟨rix, inside.1⟩ ⟨lead, inside.2⟩ =
      some (p, l)) :
    m p l ≠ 0 ∧ Reduced (rix + 1) (l + 1) (pivotStep div m ⟨rix, inside.1⟩ p l) := by
  have search := round_search inside reduced
  rw [found] at search
  obtain ⟨from_row, nonzero, left, _⟩ := search
  have from_column : lead ≤ l := by
    by_contra less
    exact nonzero (reduced.below p from_row l (by omega))
  exact ⟨nonzero, step_reduced division reduced from_row from_column nonzero left⟩

/-- At the end every row that is not zero has a column of its own. -/
theorem reduced_own (division : Division div) {rounds rix lead : Nat} (enough : rows ≤ rounds + rix)
    (reduced : Reduced rix lead m) : OwnColumns (reduceFrom div rounds rix lead m) := by
  -- Each round has one row more that is finished.
  induction rounds generalizing rix lead m with
  | zero => exact own_columns_done reduced fun i more => absurd i.isLt (by omega)
  | succ rounds ih =>
      rw [reduceFrom]
      split
      · next inside =>
          have search := round_search inside reduced
          split
          · next missing =>
              rw [missing] at search
              exact own_columns_done reduced fun i more => search i (Fin.le_def.mpr more)
          · next p l found =>
              exact ih (by omega) (round_reduced division inside reduced found).2
      · next outside =>
          refine own_columns_done reduced fun i more j => reduced.below i more j ?_
          omega

end Reduction

section Rank

/-- The rows that are counted are those that are not zero. -/
theorem zero_rows_counted [CommRing R] [DecidableEq R] (m : Matrix (Fin rows) (Fin cols) R) :
    ∃ filled : Finset (Fin rows), (∀ i, i ∈ filled ↔ ¬ ∀ j, m i j = 0) ∧
      rows - numOfZeroRows m = filled.card := by
  let zero : Fin rows → Bool := fun i => (List.finRange cols).all fun j => m i j = 0
  have zeros : numOfZeroRows m = (Finset.univ.filter fun i => zero i = true).card := by
    rw [numOfZeroRows, List.countP_eq_length_filter, Fin.univ_def]
    simp only [Finset.filter, Finset.card, Multiset.filter_coe, Multiset.coe_card, Bool.decide_eq_true]
    rfl
  have total := Finset.card_filter_add_card_filter_not (s := Finset.univ) fun i => zero i = true
  rw [Finset.card_univ, Fintype.card_fin, ← zeros] at total
  refine ⟨Finset.univ.filter fun i => ¬ zero i = true, fun i => ?_, by omega⟩
  simp [zero]

theorem division_tdiv : Division Int.tdiv :=
  ⟨Int.zero_tdiv, fun _ nonzero => Int.tdiv_self nonzero⟩

theorem own_cast {m : Matrix (Fin rows) (Fin cols) Int} (own : OwnColumns m) :
    OwnColumns (m.map (Int.cast : Int → Rat)) := by
  intro i
  rcases own i with zero | ⟨j, one, alone⟩
  · exact Or.inl fun j => by rw [Matrix.map_apply, zero j, Int.cast_zero]
  · refine Or.inr ⟨j, by rw [Matrix.map_apply, one, Int.cast_one], fun i' apart => ?_⟩
    rw [Matrix.map_apply, alone i' apart, Int.cast_zero]

/-- The rank that is computed is that of what the elimination leaves. -/
theorem matrix_rank_reduced (m : Matrix (Fin rows) (Fin cols) Int) :
    matrixRank m = ((matrixToReducedREForm Int.tdiv m).map (Int.cast : Int → Rat)).rank := by
  have own : OwnColumns (matrixToReducedREForm Int.tdiv m) :=
    reduced_own division_tdiv (Nat.le_refl rows) start_reduced
  obtain ⟨filled, listed, count⟩ := zero_rows_counted (matrixToReducedREForm Int.tdiv m)
  rw [matrixRank, count]
  refine (rank_own_columns (own_cast own) filled fun i => (listed i).trans ?_).symm
  simp [Matrix.map_apply]

end Rank

section Divisibility

/-- The pivot rows that the elimination meets, with the columns of their pivots. -/
def pivotRows [CommRing R] [DecidableEq R] (div : R → R → R) :
    Nat → Nat → Nat → Matrix (Fin rows) (Fin cols) R → List ((Fin cols → R) × Fin cols)
  | 0, _, _, _ => []
  | rounds + 1, rix, lead, m =>
      if inside : rix < rows ∧ lead < cols then
        match findPivot m ⟨rix, inside.1⟩ (rows * cols) ⟨rix, inside.1⟩ ⟨lead, inside.2⟩ with
        | none => []
        | some (iix, lead) =>
            (m iix, lead) ::
              pivotRows div rounds (rix + 1) (lead + 1) (pivotStep div m ⟨rix, inside.1⟩ iix lead)
      else []

/-- A matrix of integers as one of rationals. -/
def rational (m : Matrix (Fin rows) (Fin cols) Int) : Matrix (Fin rows) (Fin cols) Rat :=
  m.map Int.cast

/-- Elimination over the rationals only meets pivots whose quotients are integers. -/
def PivotsDivide (m : Matrix (Fin rows) (Fin cols) Int) : Prop :=
  ∀ pivot ∈ pivotRows (fun x y : Rat => x / y) rows 0 0 (rational m),
    ∀ j, ∃ quotient : Int, pivot.1 j / pivot.1 pivot.2 = quotient

variable {m : Matrix (Fin rows) (Fin cols) Int}

@[simp] theorem rational_apply (i : Fin rows) (j : Fin cols) : rational m i j = (m i j : Rat) := rfl

theorem find_rational (rix iix : Fin rows) (lead : Fin cols) (rounds : Nat) :
    findPivot (rational m) rix rounds iix lead = findPivot m rix rounds iix lead := by
  induction rounds generalizing iix lead with
  | zero => rfl
  | succ rounds ih =>
      have zero : rational m iix lead = 0 ↔ m iix lead = 0 := Int.cast_eq_zero
      simp only [findPivot, zero, ih]

/-- A step that does not truncate is one over the rationals. -/
theorem step_rational (rix : Fin rows) {p : Fin rows} {l : Fin cols}
    (divides : ∀ j, m p l ∣ m p j) :
    rational (pivotStep Int.tdiv m rix p l) =
      pivotStep (fun x y : Rat => x / y) (rational m) rix p l := by
  have row : ∀ j, rational (pivotStep Int.tdiv m rix p l) rix j =
      pivotStep (fun x y : Rat => x / y) (rational m) rix p l rix j := by
    intro j
    rw [pivot_row, rational_apply, pivot_row, Int.tdiv_eq_ediv_of_dvd (divides j)]
    exact Int.cast_div_charZero (divides j)
  ext i j
  by_cases here : i = rix
  · rw [here, row]
  · rw [other_row here, ← row, rational_apply, other_row here, Int.cast_sub, Int.cast_mul]
    rfl

theorem divides_iff {p : Fin rows} {l : Fin cols} (nonzero : m p l ≠ 0) :
    (∀ j, ∃ quotient : Int, rational m p j / rational m p l = quotient) ↔ ∀ j, m p l ∣ m p j := by
  have nonzero' : (m p l : Rat) ≠ 0 := Int.cast_ne_zero.mpr nonzero
  refine forall_congr' fun j => exists_congr fun quotient => ?_
  rw [rational_apply, rational_apply, div_eq_iff nonzero', mul_comm]
  exact_mod_cast Iff.rfl

/-- A step that does not truncate leaves the rank as it is. -/
theorem step_rank (rix : Fin rows) {p : Fin rows} {l : Fin cols} (nonzero : m p l ≠ 0)
    (divides : ∀ j, m p l ∣ m p j) :
    (rational (pivotStep Int.tdiv m rix p l)).rank = (rational m).rank := by
  refine rank_pivot (Equiv.swap p rix) rix (m p l)
    (fun i => rational m (Equiv.swap p rix i) l) (Int.cast_ne_zero.mpr nonzero) ?_ fun i apart => ?_
  · funext j
    rw [Equiv.swap_apply_right, Pi.smul_apply, rational_apply, rational_apply, pivot_row, smul_eq_mul,
      ← Int.cast_mul, Int.mul_tdiv_cancel' (divides j)]
  · funext j
    rw [Pi.sub_apply, Pi.smul_apply, smul_eq_mul, rational_apply, other_row apart, Int.cast_sub,
      Int.cast_mul]
    rfl

/-- Both eliminations meet the same pivots as long as no division truncates. -/
theorem pivots_divide {rounds rix lead : Nat} (reduced : Reduced rix lead m) :
    (∀ pivot ∈ pivotRows (fun x y : Rat => x / y) rounds rix lead (rational m),
      ∀ j, ∃ quotient : Int, pivot.1 j / pivot.1 pivot.2 = quotient) ↔
    ∀ pivot ∈ pivotRows Int.tdiv rounds rix lead m, ∀ j, pivot.1 pivot.2 ∣ pivot.1 j := by
  induction rounds generalizing rix lead m with
  | zero => exact iff_of_true (fun _ absent => (nomatch absent)) fun _ absent => (nomatch absent)
  | succ rounds ih =>
      rw [pivotRows, pivotRows]
      by_cases inside : rix < rows ∧ lead < cols
      · rw [dif_pos inside, dif_pos inside, find_rational]
        cases found : findPivot m ⟨rix, inside.1⟩ (rows * cols) ⟨rix, inside.1⟩ ⟨lead, inside.2⟩ with
        | none => exact iff_of_true (fun _ absent => (nomatch absent)) fun _ absent => (nomatch absent)
        | some pivot =>
            obtain ⟨p, l⟩ := pivot
            obtain ⟨nonzero, next⟩ := round_reduced division_tdiv inside reduced found
            dsimp only
            rw [List.forall_mem_cons, List.forall_mem_cons, divides_iff nonzero]
            refine and_congr_right fun divides => ?_
            rw [← step_rational _ divides]
            exact ih next
      · rw [dif_neg inside, dif_neg inside]
        exact iff_of_true (fun _ absent => (nomatch absent)) fun _ absent => (nomatch absent)

/-- The rank that is left where no division truncates. -/
theorem rounds_rank {rounds rix lead : Nat} (reduced : Reduced rix lead m)
    (divide : ∀ pivot ∈ pivotRows Int.tdiv rounds rix lead m, ∀ j, pivot.1 pivot.2 ∣ pivot.1 j) :
    (rational (reduceFrom Int.tdiv rounds rix lead m)).rank = (rational m).rank := by
  induction rounds generalizing rix lead m with
  | zero => rfl
  | succ rounds ih =>
      rw [reduceFrom]
      rw [pivotRows] at divide
      by_cases inside : rix < rows ∧ lead < cols
      · rw [dif_pos inside] at divide ⊢
        cases found : findPivot m ⟨rix, inside.1⟩ (rows * cols) ⟨rix, inside.1⟩ ⟨lead, inside.2⟩ with
        | none => rfl
        | some pivot =>
            obtain ⟨p, l⟩ := pivot
            obtain ⟨nonzero, next⟩ := round_reduced division_tdiv inside reduced found
            rw [found] at divide
            obtain ⟨divides, rest⟩ := List.forall_mem_cons.mp divide
            exact (ih next rest).trans (step_rank _ nonzero divides)
      · rw [dif_neg inside]

/-- MatrixRank is the rank over the rationals if no division truncates. -/
theorem rank_of_divided (m : Matrix (Fin rows) (Fin cols) Int) (divide : PivotsDivide m) :
    matrixRank m = (rational m).rank := by
  rw [matrix_rank_reduced]
  exact rounds_rank start_reduced ((pivots_divide start_reduced).mp divide)

end Divisibility

section Truncation

variable {row : Fin cols → Int} {lead : Fin cols}

/-- A row, and behind it what normalising it makes of it. -/
def truncated (row : Fin cols → Int) (lead : Fin cols) : Matrix (Fin 2) (Fin cols) Int :=
  Matrix.of ![row, fun j => (row j).tdiv (row lead)]

/-- The first pivot of the two rows. -/
theorem truncated_pivot (zeros : ∀ j, j < lead → row j = 0) (nonzero : row lead ≠ 0)
    (inside : 0 < 2 ∧ 0 < cols) :
    findPivot (truncated row lead) ⟨0, inside.1⟩ (2 * cols) ⟨0, inside.1⟩ ⟨0, inside.2⟩ =
      some (0, lead) := by
  have empty : ∀ i j, j < lead → truncated row lead i j = 0 := by
    intro i j less
    match i with
    | 0 => exact zeros j less
    | 1 => exact (congrArg (fun x => Int.tdiv x (row lead)) (zeros j less)).trans (Int.zero_tdiv _)
  have search := round_search (m := truncated row lead) inside start_reduced
  cases found : findPivot (truncated row lead) ⟨0, inside.1⟩ (2 * cols) ⟨0, inside.1⟩
      ⟨0, inside.2⟩ with
  | none =>
      rw [found] at search
      exact absurd (search 0 (le_refl _) lead) nonzero
  | some pivot =>
      obtain ⟨p, l⟩ := pivot
      rw [found] at search
      obtain ⟨_, isPivot, left, above⟩ := search
      -- The columns before `lead` are zero, and the row itself is not zero at `lead`.
      have notRight : ¬ lead < l := fun less => nonzero (left 0 (le_refl _) lead less)
      have notLeft : ¬ l < lead := fun less => isPivot (empty p l less)
      have column : l = lead := le_antisymm (not_lt.mp notRight) (not_lt.mp notLeft)
      subst column
      match p with
      | 0 => rfl
      | 1 => exact absurd (above 0 (le_refl _) (by decide)) nonzero

/-- A round that is left with a row of zeros only. -/
theorem last_round {m : Matrix (Fin 2) (Fin cols) Int} {l : Nat} (reduced : Reduced 1 l m)
    (zero : ∀ j, m 1 j = 0) :
    reduceFrom Int.tdiv 1 1 l m = m ∧ pivotRows Int.tdiv 1 1 l m = [] := by
  rw [reduceFrom, pivotRows]
  by_cases inside : 1 < 2 ∧ l < cols
  · rw [dif_pos inside, dif_pos inside]
    have search := round_search inside reduced
    cases found : findPivot m ⟨1, inside.1⟩ (2 * cols) ⟨1, inside.1⟩ ⟨l, inside.2⟩ with
    | none => exact ⟨rfl, rfl⟩
    | some pivot =>
        obtain ⟨p, l'⟩ := pivot
        rw [found] at search
        obtain ⟨from_row, isPivot, _⟩ := search
        match p with
        | 0 => exact absurd (Fin.le_def.mp from_row) (Nat.not_succ_le_zero 0)
        | 1 => exact absurd (zero l') isPivot
  · rw [dif_neg inside, dif_neg inside]
    exact ⟨rfl, rfl⟩

/-- The second row is cleared with the truncated one. -/
theorem truncated_reduced (zeros : ∀ j, j < lead → row j = 0) (nonzero : row lead ≠ 0) :
    (∀ j, matrixToReducedREForm Int.tdiv (truncated row lead) 1 j = 0) ∧
      pivotRows Int.tdiv 2 0 0 (truncated row lead) = [(row, lead)] := by
  have inside : 0 < 2 ∧ 0 < cols := ⟨by decide, Nat.zero_lt_of_lt lead.2⟩
  have second : ∀ j, pivotStep Int.tdiv (truncated row lead) 0 0 lead 1 j = 0 := by
    intro j
    have one : (row lead).tdiv (row lead) = 1 := Int.tdiv_self nonzero
    rw [other_row (by decide), pivot_row, Equiv.swap_self, Equiv.refl_apply]
    change (row j).tdiv (row lead) - (row lead).tdiv (row lead) * (row j).tdiv (row lead) = 0
    rw [one, one_mul, sub_self]
  have found := truncated_pivot zeros nonzero inside
  obtain ⟨_, reduced⟩ := round_reduced division_tdiv inside start_reduced found
  obtain ⟨same, none⟩ := last_round reduced second
  rw [matrixToReducedREForm, reduceFrom, dif_pos inside, pivotRows, dif_pos inside]
  simp only [found]
  exact ⟨fun j => (congrFun (congrFun same 1) j).trans (second j), congrArg _ none⟩

theorem truncated_rank (nonzero : row lead ≠ 0) (truncates : ¬ ∀ j, row lead ∣ row j) :
    (rational (truncated row lead)).rank = 2 := by
  have one : (row lead).tdiv (row lead) = 1 := Int.tdiv_self nonzero
  have independent : LinearIndependent Rat (rational (truncated row lead)).row := by
    rw [linearIndependent_fin2]
    constructor
    · intro zero
      have entry : (((row lead).tdiv (row lead) : Int) : Rat) = 0 := congrFun zero lead
      rw [one, Int.cast_one] at entry
      exact one_ne_zero entry
    · intro scale same
      apply truncates
      have entries : ∀ j, scale * (((row j).tdiv (row lead) : Int) : Rat) = row j :=
        fun j => congrFun same j
      have isLead : scale = row lead := by
        have entry := entries lead
        rwa [one, Int.cast_one, mul_one] at entry
      intro j
      have entry := entries j
      rw [isLead] at entry
      exact ⟨_, (by exact_mod_cast entry : row lead * (row j).tdiv (row lead) = row j).symm⟩
  rw [independent.rank_matrix, Fintype.card_fin]

/-- A row that its pivot does not divide is part of a matrix whose rank goes wrong. -/
theorem truncated_row_wrong (zeros : ∀ j, j < lead → row j = 0) (nonzero : row lead ≠ 0)
    (truncates : ¬ ∀ j, row lead ∣ row j) :
    matrixRank (truncated row lead) ≠ (rational (truncated row lead)).rank := by
  obtain ⟨filled, listed, count⟩ :=
    zero_rows_counted (matrixToReducedREForm Int.tdiv (truncated row lead))
  have only : filled ⊆ {0} := by
    intro i member
    match i with
    | 0 => exact Finset.mem_singleton_self 0
    | 1 => exact absurd (truncated_reduced zeros nonzero).1 ((listed 1).mp member)
  have few := Finset.card_le_card only
  rw [Finset.card_singleton] at few
  rw [truncated_rank nonzero truncates, matrixRank, count]
  omega

/-- MatrixRank is right where every pivot divides its row, and no weaker condition on a single
pivot row will do. -/
theorem matrix_rank_right (cols : Nat) :
    (∀ (rows : Nat) (m : Matrix (Fin rows) (Fin cols) Int), PivotsDivide m →
      matrixRank m = (rational m).rank) ∧
    ∀ (row : Fin cols → Int) (lead : Fin cols), (∀ j, j < lead → row j = 0) → row lead ≠ 0 →
      (¬ ∀ j, row lead ∣ row j) →
        ∃ m : Matrix (Fin 2) (Fin cols) Int, pivotRows Int.tdiv 2 0 0 m = [(row, lead)] ∧
          matrixRank m ≠ (rational m).rank :=
  ⟨fun _ m divide => rank_of_divided m divide, fun row lead zeros nonzero truncates =>
    ⟨truncated row lead, (truncated_reduced zeros nonzero).2,
      truncated_row_wrong zeros nonzero truncates⟩⟩

theorem unit_pivots_right : matrixRank (Matrix.of ![![2, 4], ![1, 3]]) =
    (rational (Matrix.of ![![2, 4], ![1, 3]])).rank := by
  refine (matrix_rank_right 2).1 2 _ ((pivots_divide start_reduced).mpr ?_)
  decide

/-- The rows [2, 3] and [1, 1]. -/
theorem truncation_wrong :
    ¬ ∀ (rows cols : Nat) (m : Matrix (Fin rows) (Fin cols) Int),
      matrixRank m = (rational m).rank := by
  intro right
  have zeros : ∀ j : Fin 2, j < 0 → (![2, 3] : Fin 2 → Int) j = 0 := by decide
  exact truncated_row_wrong zeros (by decide) (by decide) (right _ _ (truncated ![2, 3] 0))

end Truncation

end Sac2c.IntMatrix
