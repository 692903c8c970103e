import Mathlib.LinearAlgebra.Matrix.Rank

/-!
The rank of a matrix over a field by row reduction: a pivot step leaves the span of the rows as
it is, and where every row that is not zero has a column of its own these rows can be counted.
-/

namespace Sac2c.RowReduction

variable {K m n : Type} [Field K] {A B : Matrix m n K}

/-- Every row is zero or has a column in which it alone is not zero. -/
def OwnColumns {R : Type} [Zero R] [One R] (A : Matrix m n R) : Prop :=
  ∀ i, (∀ j, A i j = 0) ∨ ∃ j, A i j = 1 ∧ ∀ i', i' ≠ i → A i' j = 0

theorem rows_independent (own : OwnColumns A) (rows : Finset m)
    (filled : ∀ i ∈ rows, ¬ ∀ j, A i j = 0) : LinearIndependent K fun i : rows => A i := by
  rw [Fintype.linearIndependent_iff]
  intro weight zero i
  obtain ⟨j, one, alone⟩ := (own i).resolve_left (filled i i.2)
  have column := congrFun zero j
  rw [Finset.sum_apply, Pi.zero_apply, Finset.sum_eq_single i] at column
  · simpa [one] using column
  · intro other _ apart
    rw [Pi.smul_apply, alone other (fun same => apart (Subtype.ext same)), smul_zero]
  · exact fun absent => absurd (Finset.mem_univ i) absent

variable [Fintype m] [Fintype n]

theorem rank_own_columns (own : OwnColumns A) (rows : Finset m)
    (filled : ∀ i, i ∈ rows ↔ ¬ ∀ j, A i j = 0) : A.rank = rows.card := by
  have spans : Submodule.span K (Set.range A.row) =
      Submodule.span K (Set.range fun i : rows => A i) := by
    apply le_antisymm
    · rw [Submodule.span_le]
      rintro _ ⟨i, rfl⟩
      by_cases member : i ∈ rows
      · exact Submodule.subset_span ⟨⟨i, member⟩, rfl⟩
      · have zero : A.row i = 0 := funext (not_not.mp fun nonzero => member ((filled i).mpr nonzero))
        rw [zero]
        exact Submodule.zero_mem _
    · exact Submodule.span_mono (by rintro _ ⟨i, rfl⟩; exact ⟨i, rfl⟩)
  rw [Matrix.rank_eq_finrank_span_row, spans,
    finrank_span_eq_card (rows_independent own rows fun i => (filled i).mp), Fintype.card_coe]

theorem rank_le_of_rows (within : ∀ i, B i ∈ Submodule.span K (Set.range A)) : B.rank ≤ A.rank := by
  rw [Matrix.rank_eq_finrank_span_row, Matrix.rank_eq_finrank_span_row]
  apply Submodule.finrank_mono
  rw [Submodule.span_le]
  rintro _ ⟨i, rfl⟩
  exact within i

/-- A pivot step: rows are exchanged, one is scaled, and multiples of it are taken from the
others. -/
theorem rank_pivot (order : Equiv.Perm m) (r : m) (scale : K) (weight : m → K) (nonzero : scale ≠ 0)
    (pivot : A (order r) = scale • B r)
    (others : ∀ i, i ≠ r → B i = A (order i) - weight i • B r) : B.rank = A.rank := by
  have row : ∀ i, A i ∈ Submodule.span K (Set.range A) := fun i => Submodule.subset_span ⟨i, rfl⟩
  have row' : ∀ i, B i ∈ Submodule.span K (Set.range B) := fun i => Submodule.subset_span ⟨i, rfl⟩
  -- The rows of each matrix are combinations of the rows of the other one.
  apply Nat.le_antisymm
  · have first : B r ∈ Submodule.span K (Set.range A) := by
      have inverse : B r = scale⁻¹ • A (order r) := by rw [pivot, inv_smul_smul₀ nonzero]
      rw [inverse]
      exact Submodule.smul_mem _ _ (row _)
    apply rank_le_of_rows
    intro i
    by_cases same : i = r
    · exact same ▸ first
    · rw [others i same]
      exact Submodule.sub_mem _ (row _) (Submodule.smul_mem _ _ first)
  · apply rank_le_of_rows
    intro k
    obtain ⟨i, rfl⟩ := order.surjective k
    by_cases same : i = r
    · rw [same, pivot]
      exact Submodule.smul_mem _ _ (row' r)
    · have back : A (order i) = B i + weight i • B r := by rw [others i same, sub_add_cancel]
      rw [back]
      exact Submodule.add_mem _ (row' i) (Submodule.smul_mem _ _ (row' r))

end Sac2c.RowReduction
