import Mathlib.Data.List.FinRange
import Mathlib.Data.List.Count
import Mathlib.Logic.Function.Basic
import Mathlib.Algebra.Order.Group.Unbundled.Int
import Mathlib.Tactic.Common

/-!
Partitions of with-loops are made full (flatten/WLPartitionGeneration.c): boxes
fill the frame around the generator, and if the generator is a grid, further
grids fill its holes. The bounds are computed at run time by functions of the
prelude (libsacprelude/sacprelude.sac).
-/

namespace Sac2c.PartitionGeneration

variable {n : Nat}

/-- `int[n]`. -/
abbrev Vect (n : Nat) := Fin n → Int

/-- The generator of an N_part. -/
structure Part (n : Nat) where
  bound1 : Vect n
  bound2 : Vect n
  step : Option (Vect n)
  width : Option (Vect n)

def ones (n : Nat) : Vect n := fun _ => 1

/-- A missing step or width is 1 in all dimensions. -/
def Part.CoversAt (part : Part n) (iv : Vect n) (d : Fin n) : Prop :=
  part.bound1 d ≤ iv d ∧ iv d < part.bound2 d ∧
    (iv d - part.bound1 d) % part.step.getD (ones n) d < part.width.getD (ones n) d

def Part.Covers (part : Part n) (iv : Vect n) : Prop := ∀ d, part.CoversAt iv d

instance (part : Part n) (iv : Vect n) (d : Fin n) : Decidable (part.CoversAt iv d) :=
  inferInstanceAs (Decidable (_ ∧ _))

instance (part : Part n) (iv : Vect n) : Decidable (part.Covers iv) :=
  inferInstanceAs (Decidable (∀ _, _))

/-- `max_lower`, `min_upper`, `new_min` and `new_max`. -/
def partitionSlicer (min max : Vect n) (axis : Fin n) (lb ub : Vect n) :
    Vect n × Vect n × Vect n × Vect n :=
  let lbI := lb axis
  let ubI := Max.max lbI (ub axis)
  (Function.update max axis lbI, Function.update min axis ubI,
    Function.update min axis lbI, Function.update max axis ubI)

/-- `nlb`, `nwidth` and `nmaxwidth`. -/
def gridFiller (lb ub wdth : Vect n) (dim : Fin n) (maxwidth : Vect n) :
    Vect n × Vect n × Vect n :=
  let lDim := min (lb dim + wdth dim) (ub dim)
  let wDim := max (maxwidth dim - wdth dim) 0
  (Function.update lb dim lDim, Function.update maxwidth dim wDim,
    Function.update maxwidth dim (wdth dim))

/-- The loop over the axes; `min` and `max` advance to the inner box. -/
def cutSlices (lb ub : Vect n) : List (Fin n) → Vect n → Vect n → List (Part n)
  | [], _, _ => []
  | axis :: axes, min, max =>
      let (lmax, umin, nmin, nmax) := partitionSlicer min max axis lb ub
      ⟨umin, max, none, none⟩ :: ⟨min, lmax, none, none⟩ :: cutSlices lb ub axes nmin nmax

def completeGrid (lb ub step width : Vect n) : List (Fin n) → Vect n → List (Part n)
  | [], _ => []
  | axis :: axes, maxwidth =>
      let (nlb, nwidth, nmaxwidth) := gridFiller lb ub width axis maxwidth
      ⟨nlb, ub, some step, some nwidth⟩ :: completeGrid lb ub step width axes nmaxwidth

/-- The parts added to `part`; `shp` is the shape of the frame. -/
def createFullPartition (shp : Vect n) (part : Part n) : List (Part n) :=
  let newParts := cutSlices part.bound1 part.bound2 (List.finRange n) (fun _ => 0) shp
  match part.step with
  | none => newParts
  | some step =>
      completeGrid part.bound1 part.bound2 step (part.width.getD (ones n)) (List.finRange n)
        step ++ newParts

/-- Bounds, step and width as the flattening phase leaves them. -/
structure Legal (shp : Vect n) (part : Part n) : Prop where
  lower : ∀ d, 0 ≤ part.bound1 d ∧ part.bound1 d ≤ shp d
  upper : ∀ d, part.bound2 d ≤ shp d
  grid : ∀ step, part.step = some step →
    ∀ d, 1 ≤ part.width.getD (ones n) d ∧ part.width.getD (ones n) d ≤ step d
  dense : part.step = none → part.width = none

def tally (iv : Vect n) (part : Part n) : Nat := if part.Covers iv then 1 else 0

/-- How many of the parts cover `iv`. -/
def coverings (iv : Vect n) (parts : List (Part n)) : Nat :=
  parts.countP (fun part => part.Covers iv)

theorem coverings_cons (iv : Vect n) (part : Part n) (parts : List (Part n)) :
    coverings iv (part :: parts) = coverings iv parts + tally iv part := by
  simp only [coverings, List.countP_cons, decide_eq_true_eq, tally]

theorem coverings_append (iv : Vect n) (front back : List (Part n)) :
    coverings iv (front ++ back) = coverings iv front + coverings iv back :=
  List.countP_append

theorem tally_congr {iv : Vect n} {first second : Part n}
    (same : first.Covers iv ↔ second.Covers iv) : tally iv first = tally iv second :=
  if_congr same rfl rfl

section Axis

variable {iv : Vect n} {axis : Fin n} {piece whole : Part n}

theorem covers_along (axis : Fin n) : piece.Covers iv ↔
    piece.CoversAt iv axis ∧ ∀ d, d ≠ axis → piece.CoversAt iv d := by
  constructor
  · exact fun covers => ⟨covers axis, fun d _ => covers d⟩
  · rintro ⟨here, elsewhere⟩ d
    by_cases same : d = axis
    · exact same ▸ here
    · exact elsewhere d same

/-- A piece that differs from the whole along one axis only. -/
theorem tally_piece (same : ∀ d, d ≠ axis → (piece.CoversAt iv d ↔ whole.CoversAt iv d)) :
    tally iv piece =
      if piece.CoversAt iv axis ∧ ∀ d, d ≠ axis → whole.CoversAt iv d then 1 else 0 := by
  refine if_congr ?_ rfl rfl
  rw [covers_along axis]
  exact and_congr_right (fun _ => forall₂_congr same)

end Axis

/-- An update along the head of a list of axes joins the updates along the rest. -/
theorem update_listed (axis : Fin n) (axes : List (Fin n)) (old new : Vect n) :
    (fun d => if d ∈ axes then new d else Function.update old axis (new axis) d) =
      fun d => if d ∈ axis :: axes then new d else old d := by
  funext d
  by_cases same : d = axis
  · subst same
    simp
  · simp [same]

section Slices

variable {lb ub min max iv : Vect n}

theorem box_at (d : Fin n) : (⟨min, max, none, none⟩ : Part n).CoversAt iv d ↔
    min d ≤ iv d ∧ iv d < max d := by
  simp [Part.CoversAt, ones]

/-- Three boxes along one axis make up a box. -/
theorem slices_of_box (iv : Vect n) (axis : Fin n) {low high : Int} (lower : min axis ≤ low)
    (ordered : low ≤ high) (upper : high ≤ max axis) :
    tally iv ⟨Function.update min axis low, Function.update max axis high, none, none⟩ +
      tally iv ⟨min, Function.update max axis low, none, none⟩ +
      tally iv ⟨Function.update min axis high, max, none, none⟩ =
    tally iv ⟨min, max, none, none⟩ := by
  have inner : ∀ d, d ≠ axis →
      ((⟨Function.update min axis low, Function.update max axis high, none, none⟩ :
        Part n).CoversAt iv d ↔ (⟨min, max, none, none⟩ : Part n).CoversAt iv d) := by
    intro d differ
    rw [box_at, box_at, Function.update_of_ne differ, Function.update_of_ne differ]
  have below : ∀ d, d ≠ axis → ((⟨min, Function.update max axis low, none, none⟩ :
      Part n).CoversAt iv d ↔ (⟨min, max, none, none⟩ : Part n).CoversAt iv d) := by
    intro d differ
    rw [box_at, box_at, Function.update_of_ne differ]
  have above : ∀ d, d ≠ axis → ((⟨Function.update min axis high, max, none, none⟩ :
      Part n).CoversAt iv d ↔ (⟨min, max, none, none⟩ : Part n).CoversAt iv d) := by
    intro d differ
    rw [box_at, box_at, Function.update_of_ne differ]
  rw [tally_piece inner, tally_piece below, tally_piece above,
    tally_piece (fun d _ => Iff.rfl : ∀ d, d ≠ axis → _)]
  by_cases elsewhere : ∀ d, d ≠ axis → (⟨min, max, none, none⟩ : Part n).CoversAt iv d
  · simp only [and_iff_left elsewhere]
    simp only [box_at, Function.update_self]
    split_ifs <;> omega
  · simp only [elsewhere, and_false, if_false]

/-- What the slices along `axes` leave is as wide as the generator there. -/
theorem cut_slices_cover (iv : Vect n) (axes : List (Fin n)) (lower : ∀ d, min d ≤ lb d)
    (upper : ∀ d, Max.max (lb d) (ub d) ≤ max d) :
    coverings iv (cutSlices lb ub axes min max) +
      tally iv ⟨fun d => if d ∈ axes then lb d else min d,
        fun d => if d ∈ axes then Max.max (lb d) (ub d) else max d, none, none⟩ =
    tally iv ⟨min, max, none, none⟩ := by
  induction axes generalizing min max with
  | nil => simp [cutSlices, coverings]
  | cons axis axes ih =>
      have split := slices_of_box iv axis (lower axis) (le_max_left (lb axis) (ub axis))
        (upper axis)
      have lower' : ∀ d, Function.update min axis (lb axis) d ≤ lb d := by
        intro d
        by_cases same : d = axis
        · rw [same, Function.update_self]
        · rw [Function.update_of_ne same]
          exact lower d
      have upper' : ∀ d, Max.max (lb d) (ub d) ≤
          Function.update max axis (Max.max (lb axis) (ub axis)) d := by
        intro d
        by_cases same : d = axis
        · rw [same, Function.update_self]
        · rw [Function.update_of_ne same]
          exact upper d
      have rest := ih lower' upper'
      rw [update_listed, update_listed] at rest
      simp only [cutSlices, partitionSlicer, coverings_cons]
      omega

end Slices

section Grid

variable {lb ub step width maxwidth iv : Vect n}

theorem grid_at (d : Fin n) :
    (⟨lb, ub, some step, some width⟩ : Part n).CoversAt iv d ↔
      lb d ≤ iv d ∧ iv d < ub d ∧ (iv d - lb d) % step d < width d := Iff.rfl

/-- Behind the first `width` indices of each period, the rest of the period. -/
theorem period_rest {lb ub index step width : Int} (positive : 1 ≤ width) (fits : width ≤ step) :
    (min (lb + width) ub ≤ index ∧ index < ub ∧
      (index - min (lb + width) ub) % step < max (step - width) 0) ↔
    lb ≤ index ∧ index < ub ∧ ¬ (index - lb) % step < width := by
  rw [max_eq_left (by omega)]
  have split := Int.emod_add_mul_ediv (index - lb) step
  have low := Int.emod_nonneg (index - lb) (by omega : step ≠ 0)
  have high := Int.emod_lt_of_pos (index - lb) (by omega : 0 < step)
  by_cases short : ub < lb + width
  · rw [min_eq_right (le_of_lt short)]
    constructor
    · omega
    · rintro ⟨above, below, outside⟩
      rw [Int.emod_eq_of_lt (by omega) (by omega)] at outside
      omega
  · rw [min_eq_left (not_lt.mp short)]
    have shifted : index - (lb + width) = (index - lb) % step - width +
        step * ((index - lb) / step) := by omega
    by_cases inside : (index - lb) % step < width
    · have wrapped : (index - (lb + width)) % step = (index - lb) % step - width + step := by
        rw [shifted, Int.add_mul_emod_self_left, ← Int.add_emod_right]
        exact Int.emod_eq_of_lt (by omega) (by omega)
      rw [wrapped]
      omega
    · have kept : (index - (lb + width)) % step = (index - lb) % step - width := by
        rw [shifted, Int.add_mul_emod_self_left]
        exact Int.emod_eq_of_lt (by omega) (by omega)
      rw [kept]
      have reached : lb ≤ index → lb + width ≤ index := by
        intro above
        have periods : 0 ≤ step * ((index - lb) / step) :=
          Int.mul_nonneg (by omega) (Int.ediv_nonneg (by omega) (by omega))
        omega
      omega

/-- The grid of full width along one axis is a grid and its filling. -/
theorem filling_of_grid (iv lb ub : Vect n) (axis : Fin n) (positive : 1 ≤ width axis)
    (fits : width axis ≤ step axis) (full : maxwidth axis = step axis) :
    tally iv ⟨Function.update lb axis (min (lb axis + width axis) (ub axis)), ub, some step,
        some (Function.update maxwidth axis (max (maxwidth axis - width axis) 0))⟩ +
      tally iv ⟨lb, ub, some step, some (Function.update maxwidth axis (width axis))⟩ =
    tally iv ⟨lb, ub, some step, some maxwidth⟩ := by
  have filling : ∀ d, d ≠ axis →
      ((⟨Function.update lb axis (min (lb axis + width axis) (ub axis)), ub, some step,
        some (Function.update maxwidth axis (max (maxwidth axis - width axis) 0))⟩ :
        Part n).CoversAt iv d ↔ (⟨lb, ub, some step, some maxwidth⟩ : Part n).CoversAt iv d) := by
    intro d differ
    rw [grid_at, grid_at, Function.update_of_ne differ, Function.update_of_ne differ]
  have narrow : ∀ d, d ≠ axis →
      ((⟨lb, ub, some step, some (Function.update maxwidth axis (width axis))⟩ :
        Part n).CoversAt iv d ↔ (⟨lb, ub, some step, some maxwidth⟩ : Part n).CoversAt iv d) := by
    intro d differ
    rw [grid_at, grid_at, Function.update_of_ne differ]
  rw [tally_piece filling, tally_piece narrow,
    tally_piece (fun d _ => Iff.rfl : ∀ d, d ≠ axis → _)]
  by_cases elsewhere : ∀ d, d ≠ axis →
      (⟨lb, ub, some step, some maxwidth⟩ : Part n).CoversAt iv d
  · simp only [and_iff_left elsewhere]
    simp only [grid_at, Function.update_self, full, period_rest positive fits]
    have inside := Int.emod_lt_of_pos (iv axis - lb axis) (by omega : 0 < step axis)
    split_ifs <;> omega
  · simp only [elsewhere, and_false, if_false]

theorem complete_grid_cover (iv lb ub : Vect n) (axes : List (Fin n)) (distinct : axes.Nodup)
    (legal : ∀ d, 1 ≤ width d ∧ width d ≤ step d)
    (full : ∀ d, d ∈ axes → maxwidth d = step d) :
    coverings iv (completeGrid lb ub step width axes maxwidth) +
      tally iv ⟨lb, ub, some step, some (fun d => if d ∈ axes then width d else maxwidth d)⟩ =
    tally iv ⟨lb, ub, some step, some maxwidth⟩ := by
  induction axes generalizing maxwidth with
  | nil => simp [completeGrid, coverings]
  | cons axis axes ih =>
      obtain ⟨unlisted, distinct⟩ := List.nodup_cons.mp distinct
      have split := filling_of_grid iv lb ub axis (legal axis).1
        (legal axis).2 (full axis (List.mem_cons_self ..))
      have left : ∀ d, d ∈ axes → Function.update maxwidth axis (width axis) d = step d := by
        intro d member
        have differ : d ≠ axis := fun same => unlisted (same ▸ member)
        rw [Function.update_of_ne differ]
        exact full d (List.mem_cons_of_mem axis member)
      have rest := ih distinct left
      rw [update_listed] at rest
      simp only [completeGrid, gridFiller, coverings_cons]
      omega

end Grid

theorem listed_everywhere (new old : Vect n) :
    (fun d => if d ∈ List.finRange n then new d else old d) = new := by
  funext d
  rw [if_pos (List.mem_finRange d)]

end Sac2c.PartitionGeneration
