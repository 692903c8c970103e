import Mathlib.Data.List.Pairwise
import Sac2c.BlockTrees
import Sac2c.StrideNormalisation

/-!
CheckDisjointness of wltransform/wltransform.c: whether the strides of a with-loop are
pairwise disjoint. In one dimension the indexes of one lcm of the steps decide.
-/

namespace Sac2c.StrideDisjointness

open BlockTrees RunSets StrideNormalisation

section Model

/-- N_wlstride with its only grid, whose attributes count unless the stride is dynamic. -/
structure WlStride where
  isDynamic : Bool
  attrs : Stride1
  deriving DecidableEq

/-- The loop of StridesDisjointOneDim, from `iv` on. -/
def disjointFrom (lb1 step1 width1 lb2 step2 width2 : Int) : Nat → Int → Bool
  | 0, _ => true
  | rounds + 1, iv =>
      if (iv - lb1).tmod step1 < width1 ∧ (iv - lb2).tmod step2 < width2 then false
      else disjointFrom lb1 step1 width1 lb2 step2 width2 rounds (iv + 1)

/-- StridesDisjointOneDim. -/
def stridesDisjointOneDim (lb1 ub1 step1 width1 lb2 ub2 step2 width2 : Int) : Bool :=
  let lb := max lb1 lb2
  let ub := min ub1 ub2
  let step := mathLcm step1 step2
  let ub := min ub (lb + step)
  disjointFrom lb1 step1 width1 lb2 step2 width2 (ub - lb).toNat lb

/-- StridesDisjointAllDims, along WLGRID_NEXTDIM; none if an assertion fails. -/
def stridesDisjointAllDims : List WlStride → List WlStride → Option Bool
  | [], _ => some false
  | _ :: _, [] => none
  | stride1 :: inner1, stride2 :: inner2 =>
      if stride1.isDynamic || stride2.isDynamic then some true
      else
        let s := stride1.attrs
        let t := stride2.attrs
        if stridesDisjointOneDim (s.bound1 + s.gridB1) s.bound2 s.step (s.gridB2 - s.gridB1)
            (t.bound1 + t.gridB1) t.bound2 t.step (t.gridB2 - t.gridB1) then some true
        else stridesDisjointAllDims inner1 inner2

/-- The inner loop of CheckDisjointness. -/
def disjointFromAll (stride1 : List WlStride) : List (List WlStride) → Option Bool
  | [] => some true
  | stride2 :: next => do
      if ← stridesDisjointAllDims stride1 stride2 then disjointFromAll stride1 next
      else some false

/-- CheckDisjointness. -/
def checkDisjointness : List (List WlStride) → Option Bool
  | [] => some true
  | stride :: next => do
      if ← disjointFromAll stride next then checkDisjointness next else some false

end Model

section OneDimension

variable {lb1 ub1 step1 width1 lb2 ub2 step2 width2 : Int}

theorem disjoint_from_iff (rounds : Nat) (iv : Int) :
    disjointFrom lb1 step1 width1 lb2 step2 width2 rounds iv = true ↔
      ∀ i, iv ≤ i → i < iv + rounds →
        ¬ ((i - lb1).tmod step1 < width1 ∧ (i - lb2).tmod step2 < width2) := by
  induction rounds generalizing iv with
  | zero =>
      simp only [disjointFrom, true_iff]
      intro i above below
      omega
  | succ rounds ih =>
      simp only [disjointFrom]
      split
      · next hit =>
          simp only [Bool.false_eq_true, false_iff]
          intro misses
          exact misses iv (Int.le_refl _) (by omega) hit
      · next miss =>
          rw [ih]
          constructor
          · intro misses i above below
            by_cases here : i = iv
            · rwa [here]
            · exact misses i (by omega) (by omega)
          · intro misses i above below
            exact misses i (by omega) (by omega)

/-- The runs of a stride that starts with a run. -/
abbrev phased (lb ub step width : Int) : RunSet := ⟨lb, width, step, ub⟩

/-- The search from the larger lower bound over one lcm of the steps decides for all indexes. -/
theorem disjoint_one_dim_iff (positive1 : 1 ≤ step1) (positive2 : 1 ≤ step2) :
    stridesDisjointOneDim lb1 ub1 step1 width1 lb2 ub2 step2 width2 = true ↔
      ¬ ∃ i, (phased lb1 ub1 step1 width1).Has i ∧ (phased lb2 ub2 step2 width2).Has i := by
  have common : 0 < mathLcm step1 step2 := by
    have nonzero := Int.lcm_ne_zero (show step1 ≠ 0 by omega) (show step2 ≠ 0 by omega)
    simp only [mathLcm]
    omega
  simp only [stridesDisjointOneDim, disjoint_from_iff]
  constructor
  · rintro misses ⟨i, has1, has2⟩
    obtain ⟨j, above, below, early1, early2⟩ :=
      meets_early common (Int.dvd_lcm_left ..) (Int.dvd_lcm_right ..) has1 has2
    simp only [RunSet.Has] at above below early1 early2
    refine misses j above (by omega) ⟨?_, ?_⟩
    · rw [Int.tmod_eq_emod_of_nonneg (by omega)]
      exact early1.2.2
    · rw [Int.tmod_eq_emod_of_nonneg (by omega)]
      exact early2.2.2
  · rintro apart i above below ⟨inside1, inside2⟩
    rw [Int.tmod_eq_emod_of_nonneg (by omega)] at inside1 inside2
    exact apart ⟨i, ⟨by dsimp only; omega, by dsimp only; omega, inside1⟩,
      ⟨by dsimp only; omega, by dsimp only; omega, inside2⟩⟩

end OneDimension

section AllDimensions

/-- A dimension of a constant stride, whose grid lies within one step. -/
structure ConstantDim (dim : WlStride) : Prop where
  constant : dim.isDynamic = false
  lower : 0 ≤ dim.attrs.gridB1
  wide : dim.attrs.gridB1 < dim.attrs.gridB2
  fits : dim.attrs.gridB2 ≤ dim.attrs.step

/-- A constant stride of `n` dimensions with one grid in each. -/
structure ConstantStride (n : Nat) where
  dims : List WlStride
  rank : dims.length = n
  constant : ∀ dim ∈ dims, ConstantDim dim

/-- The index vectors of the dimensions. -/
def InDims (dims : List WlStride) (iv : List Int) : Prop :=
  List.Forall₂ (fun dim i => Indexes dim.attrs i) dims iv

/-- The vectors of two strides are products, so they meet if the strides meet in each dimension. -/
theorem meets_cons (dim1 dim2 : WlStride) (inner1 inner2 : List WlStride) :
    (∃ iv, InDims (dim1 :: inner1) iv ∧ InDims (dim2 :: inner2) iv) ↔
      (∃ i, Indexes dim1.attrs i ∧ Indexes dim2.attrs i) ∧
        ∃ iv, InDims inner1 iv ∧ InDims inner2 iv := by
  constructor
  · rintro ⟨iv, first1, first2⟩
    cases first1 with
    | cons here1 rest1 =>
        cases first2 with
        | cons here2 rest2 => exact ⟨⟨_, here1, here2⟩, _, rest1, rest2⟩
  · rintro ⟨⟨i, here1, here2⟩, iv, rest1, rest2⟩
    exact ⟨i :: iv, .cons here1 rest1, .cons here2 rest2⟩

/-- The test of one dimension, as the loop calls it. -/
theorem disjoint_dim_iff {dim1 dim2 : WlStride} (constant1 : ConstantDim dim1)
    (constant2 : ConstantDim dim2) :
    stridesDisjointOneDim (dim1.attrs.bound1 + dim1.attrs.gridB1) dim1.attrs.bound2
        dim1.attrs.step (dim1.attrs.gridB2 - dim1.attrs.gridB1)
        (dim2.attrs.bound1 + dim2.attrs.gridB1) dim2.attrs.bound2 dim2.attrs.step
        (dim2.attrs.gridB2 - dim2.attrs.gridB1) = true ↔
      ¬ ∃ i, Indexes dim1.attrs i ∧ Indexes dim2.attrs i := by
  obtain ⟨_, lower1, wide1, fits1⟩ := constant1
  obtain ⟨_, lower2, wide2, fits2⟩ := constant2
  rw [disjoint_one_dim_iff (by omega) (by omega)]
  simp only [grid_runs lower1 wide1 fits1, grid_runs lower2 wide2 fits2]
  rfl

theorem disjoint_dims_spec (dims1 dims2 : List WlStride) (ranks : dims1.length = dims2.length)
    (constant1 : ∀ dim ∈ dims1, ConstantDim dim) (constant2 : ∀ dim ∈ dims2, ConstantDim dim) :
    ∃ disjoint, stridesDisjointAllDims dims1 dims2 = some disjoint ∧
      (disjoint = true ↔ ¬ ∃ iv, InDims dims1 iv ∧ InDims dims2 iv) := by
  induction dims1 generalizing dims2 with
  | nil =>
      obtain rfl := List.length_eq_zero_iff.mp ranks.symm
      refine ⟨false, rfl, ?_⟩
      simp only [Bool.false_eq_true, false_iff, not_not]
      exact ⟨[], .nil, .nil⟩
  | cons dim1 inner1 ih =>
      cases dims2 with
      | nil => exact nomatch ranks
      | cons dim2 inner2 =>
          obtain ⟨here1, later1⟩ := List.forall_mem_cons.mp constant1
          obtain ⟨here2, later2⟩ := List.forall_mem_cons.mp constant2
          simp only [stridesDisjointAllDims, here1.constant, here2.constant, Bool.or_self,
            Bool.false_eq_true, if_false, meets_cons]
          split
          · next apart =>
              exact ⟨true, rfl, by simp [(disjoint_dim_iff here1 here2).mp apart]⟩
          · next together =>
              rw [disjoint_dim_iff here1 here2, not_not] at together
              obtain ⟨disjoint, done, vectors⟩ := ih inner2 (Nat.succ.inj ranks) later1 later2
              exact ⟨disjoint, done, by rw [vectors, and_iff_right together]⟩

theorem disjoint_all_dims_spec {n : Nat} (stride1 stride2 : ConstantStride n) :
    ∃ disjoint, stridesDisjointAllDims stride1.dims stride2.dims = some disjoint ∧
      (disjoint = true ↔ ¬ ∃ iv, InDims stride1.dims iv ∧ InDims stride2.dims iv) :=
  disjoint_dims_spec stride1.dims stride2.dims (stride1.rank.trans stride2.rank.symm)
    stride1.constant stride2.constant

end AllDimensions

section Chains

variable {n : Nat}

/-- No index vector belongs to both strides. -/
def Apart (stride1 stride2 : ConstantStride n) : Prop :=
  ¬ ∃ iv, InDims stride1.dims iv ∧ InDims stride2.dims iv

theorem disjoint_from_all_spec (stride : ConstantStride n) (chain : List (ConstantStride n)) :
    ∃ disjoint, disjointFromAll stride.dims (chain.map ConstantStride.dims) = some disjoint ∧
      (disjoint = true ↔ ∀ other ∈ chain, Apart stride other) := by
  induction chain with
  | nil => exact ⟨true, rfl, by simp⟩
  | cons other chain ih =>
      obtain ⟨rest, checked, all⟩ := ih
      obtain ⟨disjoint, verdict, apart⟩ := disjoint_all_dims_spec stride other
      simp only [List.map_cons, disjointFromAll, verdict, Option.bind_eq_bind, Option.bind_some]
      cases disjoint with
      | false =>
          simp only [Bool.false_eq_true, false_iff, not_not] at apart
          refine ⟨false, rfl, ?_⟩
          simp only [Bool.false_eq_true, false_iff]
          exact fun every => every other List.mem_cons_self apart
      | true =>
          refine ⟨rest, checked, ?_⟩
          rw [all, List.forall_mem_cons]
          exact (and_iff_right (apart.mp rfl)).symm

end Chains

end Sac2c.StrideDisjointness
