import Mathlib.Algebra.Order.Ring.Int
import Mathlib.Algebra.Order.Group.Unbundled.Int
import Mathlib.Tactic.Common
import Mathlib.Tactic.Linarith
import Mathlib.Tactic.Ring

/-!
LinearTransformationsHelp of arrayopt/SSAWLF.c: with-loop folding replaces a generator by the
generators of the indices that a linear function maps into it. Bounds and constants are ints
without overflow, `/` and `%` truncate.
-/

namespace Sac2c.LinearTransformations

section Model

/-- The primitive functions F_add_SxS, F_sub_SxS, F_mul_SxS and F_div_SxS. -/
inductive Prf where
  | add
  | sub
  | mul
  | div
  deriving DecidableEq

/-- `step` and `width`, which are both there or both NULL. -/
structure Grid (shape : Nat) where
  step : Fin shape → Int
  width : Fin shape → Int

/-- intern_gen without the link; `code` is the address of the N_code node. -/
structure InternGen (shape : Nat) where
  l : Fin shape → Int
  u : Fin shape → Int
  grid : Option (Grid shape)
  code : Int

variable {shape : Nat}

/-- WLFcopyInternGen. -/
def copyInternGen (source : InternGen shape) : InternGen shape :=
  { l := source.l
    u := source.u
    grid := source.grid.map fun grid => { step := grid.step, width := grid.width }
    code := source.code }

def InternGen.setBounds (ig : InternGen shape) (dim : Fin shape) (l u : Int) : InternGen shape :=
  { ig with l := Function.update ig.l dim l, u := Function.update ig.u dim u }

def InternGen.setWidth (ig : InternGen shape) (dim : Fin shape) (width : Int) : InternGen shape :=
  { ig with grid := ig.grid.map fun grid =>
      { grid with width := Function.update grid.width dim width } }

/-- `scalar - index`. -/
def subFromScalar (ig : InternGen shape) (dim : Fin shape) (constval : Int) :
    InternGen shape × Option (InternGen shape) :=
  let lbuf := constval - ig.u dim + 1
  let ubuf := constval - ig.l dim + 1
  match ig.grid with
  | none => (ig.setBounds dim lbuf ubuf, none)
  | some grid =>
      let cut := (ig.u dim - ig.l dim).tmod (grid.step dim)
      if cut = 0 then
        (ig.setBounds dim (lbuf + (grid.step dim - grid.width dim)) ubuf, none)
      else if grid.width dim < cut then
        (ig.setBounds dim (lbuf + (cut - grid.width dim)) ubuf, none)
      else if cut < grid.width dim then
        let width := grid.width dim - cut
        let newig := ((copyInternGen ig).setBounds dim (ig.l dim + cut) (ig.u dim)).setWidth dim width
        let ig := (ig.setWidth dim cut).setBounds dim lbuf ubuf
        if newig.u dim ≤ newig.l dim then (ig, none)
        else
          let buf := constval - newig.u dim + 1 + grid.step dim - width
          (ig, some (newig.setBounds dim buf (constval - newig.l dim + 1)))
      else (ig.setBounds dim lbuf ubuf, none)

def mulBounds (l u constval : Int) : Int × Int :=
  if constval > 0 then
    (if l.tmod constval = 0 ∨ l < 0 then l.tdiv constval else l.tdiv constval + 1,
      if u.tmod constval = 0 ∨ u < 0 then u.tdiv constval else u.tdiv constval + 1)
  else if constval < 0 then
    let l := if u.tmod constval = 0 ∨ u < 0 then u.tdiv constval + 1 else u.tdiv constval
    -- the lower bound is the new one here
    let u := if l.tmod constval = 0 ∨ l < 0 then l.tdiv constval + 1 else l.tdiv constval
    (l, u)
  else (l, u)

def divBounds (l u constval : Int) : Int × Int :=
  if constval > 0 then (l * constval, u * constval)
  else if constval < 0 then
    let l := u * constval + 1
    let u := l * constval + 1
    (l, u)
  else (l, u)

/-- The generator that is left in place and the one that is returned; none where the program
stops with an error. -/
def linearTransformationsHelp (ig : InternGen shape) (dim : Fin shape) (prf : Prf) (argNo : Nat)
    (constval : Int) : Option (InternGen shape × Option (InternGen shape)) :=
  if argNo = 1 ∨ argNo = 2 then
    match prf with
    | .add => some (ig.setBounds dim (ig.l dim - constval) (ig.u dim - constval), none)
    | .sub =>
        if argNo = 2 then
          some (ig.setBounds dim (ig.l dim + constval) (ig.u dim + constval), none)
        else some (subFromScalar ig dim constval)
    | .mul =>
        let (l, u) := mulBounds (ig.l dim) (ig.u dim) constval
        if ig.grid.isSome then none else some (ig.setBounds dim l u, none)
    | .div =>
        let (l, u) := divBounds (ig.l dim) (ig.u dim) constval
        if argNo ≠ 2 ∨ ig.grid.isSome then none else some (ig.setBounds dim l u, none)
  else none

end Model

section Meaning

variable {shape : Nat}

def InGrid (l u step width i : Int) : Prop := l ≤ i ∧ i < u ∧ (i - l) % step < width

/-- The integers of a generator in one dimension. -/
def InternGen.Has (ig : InternGen shape) (dim : Fin shape) (i : Int) : Prop :=
  match ig.grid with
  | none => ig.l dim ≤ i ∧ i < ig.u dim
  | some grid => InGrid (ig.l dim) (ig.u dim) (grid.step dim) (grid.width dim) i

def InternGen.Contains (ig : InternGen shape) (iv : Fin shape → Int) : Prop :=
  ∀ dim, ig.Has dim (iv dim)

/-- What the index is mapped to. -/
def transformed (prf : Prf) (argNo : Nat) (constval i : Int) : Int :=
  match prf with
  | .add => i + constval
  | .sub => if argNo = 2 then i - constval else constval - i
  | .mul => i * constval
  | .div => i.tdiv constval

/-- The two generators have just the indices that `f` maps into `ig`, none of them twice. The
other dimensions are as before. -/
structure Preimage (f : Int → Int) (ig : InternGen shape) (dim : Fin shape)
    (left : InternGen shape) (returned : Option (InternGen shape)) : Prop where
  exact : ∀ i, ig.Has dim (f i) ↔ left.Has dim i ∨ ∃ newig, returned = some newig ∧ newig.Has dim i
  disjoint : ∀ i newig, returned = some newig → left.Has dim i → ¬ newig.Has dim i
  elsewhere : ∀ other i, other ≠ dim → (left.Has other i ↔ ig.Has other i) ∧
    ∀ newig, returned = some newig → (newig.Has other i ↔ ig.Has other i)
  code : left.code = ig.code ∧ ∀ newig, returned = some newig → newig.code = ig.code

/-- The transformation has a result, and it is the preimage. -/
def ComputesPreimage (ig : InternGen shape) (dim : Fin shape) (prf : Prf) (argNo : Nat)
    (constval : Int) : Prop :=
  ∃ left returned, linearTransformationsHelp ig dim prf argNo constval = some (left, returned) ∧
    Preimage (transformed prf argNo constval) ig dim left returned

/-- A generator that a transformation may be applied to: a step of at least the width, and only
for sums and differences. -/
def Legal (ig : InternGen shape) (prf : Prf) : Prop :=
  ∀ grid, ig.grid = some grid →
    (prf = .add ∨ prf = .sub) ∧ ∀ dim, 1 ≤ grid.width dim ∧ grid.width dim ≤ grid.step dim

/-- Where the bounds that are computed for products and quotients are the right ones. -/
def BoundsExact (prf : Prf) (l u constval : Int) : Prop :=
  match prf with
  | .add => True
  | .sub => True
  | .mul => 0 < constval ∨ -l / |constval| + -u / (constval * constval) = -1 ∨
      u ≤ 0 ∧ ∀ i, ¬ (l ≤ i * constval ∧ i * constval < u)
  | .div => 0 < constval ∧ (u ≤ l ∨ constval = 1 ∨ 1 ≤ l) ∨
      constval < 0 ∧ (u ≤ l ∧ u ≤ 0 ∨ constval = -1 ∧ l + u = 1)

end Meaning

section Mirror

/-- The residue of what is counted from the other end. -/
theorem mirror_residue (n j step : Int) (positive : 0 < step) :
    (n - 1 - j) % step =
      if j % step < n % step then n % step - 1 - j % step
      else n % step - 1 - j % step + step := by
  have fromN := Int.emod_add_mul_ediv n step
  have fromJ := Int.emod_add_mul_ediv j step
  have boundN := Int.emod_lt_of_pos n positive
  have boundJ := Int.emod_lt_of_pos j positive
  have signN := Int.emod_nonneg n positive.ne'
  have signJ := Int.emod_nonneg j positive.ne'
  by_cases below : j % step < n % step
  · rw [if_pos below]
    have same : n - 1 - j = (n % step - 1 - j % step) + step * (n / step - j / step) := by
      rw [mul_sub]
      omega
    rw [same, Int.add_mul_emod_self_left]
    exact Int.emod_eq_of_lt (by omega) (by omega)
  · rw [if_neg below]
    have same : n - 1 - j =
        (n % step - 1 - j % step + step) + step * (n / step - j / step - 1) := by
      rw [mul_sub, mul_sub, mul_one]
      omega
    rw [same, Int.add_mul_emod_self_left]
    exact Int.emod_eq_of_lt (by omega) (by omega)

/-- The residue of what is counted from a later start. -/
theorem shift_residue (j offset step : Int) (positive : 0 < step) (nonneg : 0 ≤ offset)
    (short : offset < step) :
    (j - offset) % step =
      if offset ≤ j % step then j % step - offset else j % step - offset + step := by
  have fromJ := Int.emod_add_mul_ediv j step
  have boundJ := Int.emod_lt_of_pos j positive
  have signJ := Int.emod_nonneg j positive.ne'
  by_cases above : offset ≤ j % step
  · rw [if_pos above]
    have same : j - offset = (j % step - offset) + step * (j / step) := by omega
    rw [same, Int.add_mul_emod_self_left]
    exact Int.emod_eq_of_lt (by omega) (by omega)
  · rw [if_neg above]
    have same : j - offset = (j % step - offset + step) + step * (j / step - 1) := by
      rw [mul_sub, mul_one]
      omega
    rw [same, Int.add_mul_emod_self_left]
    exact Int.emod_eq_of_lt (by omega) (by omega)

theorem residue_le {j step : Int} (nonneg : 0 ≤ j) (positive : 0 < step) : j % step ≤ j := by
  have fromJ := Int.emod_add_mul_ediv j step
  have := Int.mul_nonneg positive.le (Int.ediv_nonneg nonneg positive.le)
  omega

/-- Behind the cut of the last period there are smaller residues only. -/
theorem below_cut {n j step : Int} (positive : 0 < step) (below : j < n)
    (late : n % step ≤ j % step) : j < n - n % step := by
  by_contra behind
  have fromN := Int.emod_add_mul_ediv n step
  have boundN := Int.emod_lt_of_pos n positive
  have residue : j % step = j - step * (n / step) := by
    have same : j = (j - step * (n / step)) + step * (n / step) := by omega
    rw [same, Int.add_mul_emod_self_left]
    rw [Int.emod_eq_of_lt (by omega) (by omega)]
    omega
  omega

variable {l u step width : Int}

/-- The residue of the mirrored index, told from that of the index counted from the new start. -/
theorem counted_back (l u : Int) (positive : 0 < step) (c i : Int) :
    (c - i - l) % step =
        (if (i - (c - u + 1)) % step < (u - l) % step then
          (u - l) % step - 1 - (i - (c - u + 1)) % step
        else (u - l) % step - 1 - (i - (c - u + 1)) % step + step) ∧
      0 ≤ (i - (c - u + 1)) % step ∧ (i - (c - u + 1)) % step < step ∧
      (0 ≤ i - (c - u + 1) → (i - (c - u + 1)) % step ≤ i - (c - u + 1)) := by
  refine ⟨?_, Int.emod_nonneg _ positive.ne', Int.emod_lt_of_pos _ positive,
    fun nonneg => residue_le nonneg positive⟩
  rw [← mirror_residue _ _ step positive]
  congr 1
  ring

/-- A whole number of periods. -/
theorem mirror_whole (wide : 1 ≤ width) (narrow : width ≤ step) (cut : (u - l) % step = 0)
    (c i : Int) :
    InGrid l u step width (c - i) ↔
      InGrid (c - u + 1 + (step - width)) (c - l + 1) step width i := by
  have positive : 0 < step := by omega
  obtain ⟨reversed, sign, bound, small⟩ := counted_back l u positive c i
  have shifted := shift_residue (i - (c - u + 1)) (step - width) step positive (by omega) (by omega)
  rw [cut] at reversed
  rw [sub_sub] at shifted
  simp only [InGrid, reversed, shifted]
  generalize (i - (c - u + 1)) % step = t at *
  split <;> split <;> omega

/-- The last period is cut behind the width, or just there. -/
theorem mirror_long (wide : 1 ≤ width) (narrow : width ≤ step) (cut : width ≤ (u - l) % step)
    (c i : Int) :
    InGrid l u step width (c - i) ↔
      InGrid (c - u + 1 + ((u - l) % step - width)) (c - l + 1) step width i := by
  have positive : 0 < step := by omega
  have period := Int.emod_lt_of_pos (u - l) positive
  obtain ⟨reversed, sign, bound, small⟩ := counted_back l u positive c i
  have shifted := shift_residue (i - (c - u + 1)) ((u - l) % step - width) step positive
    (by omega) (by omega)
  rw [sub_sub] at shifted
  simp only [InGrid, reversed, shifted]
  generalize (i - (c - u + 1)) % step = t at *
  generalize (u - l) % step = n at *
  split <;> split <;> omega

/-- The last period is cut within the width: its rest is a grid of its own. -/
theorem mirror_short (narrow : width ≤ step) (some : 0 < (u - l) % step)
    (cut : (u - l) % step < width) (c i : Int) :
    InGrid l u step width (c - i) ↔
      InGrid (c - u + 1) (c - l + 1) step ((u - l) % step) i ∨
        InGrid (c - u + 1 + step - (width - (u - l) % step)) (c - (l + (u - l) % step) + 1) step
          (width - (u - l) % step) i := by
  have positive : 0 < step := by omega
  obtain ⟨reversed, sign, bound, small⟩ := counted_back l u positive c i
  have shifted := shift_residue (i - (c - u + 1)) (step - (width - (u - l) % step)) step positive
    (by omega) (by omega)
  have early : i - (c - u + 1) < u - l → _ := fun below => below_cut positive below
  rw [sub_sub, ← add_sub_assoc] at shifted
  simp only [InGrid, reversed, shifted]
  generalize (i - (c - u + 1)) % step = t at *
  generalize (u - l) % step = n at *
  split <;> split <;> omega

theorem short_disjoint (narrow : width ≤ step) (some : 0 < (u - l) % step)
    (cut : (u - l) % step < width) (c i : Int)
    (first : InGrid (c - u + 1) (c - l + 1) step ((u - l) % step) i) :
    ¬ InGrid (c - u + 1 + step - (width - (u - l) % step)) (c - (l + (u - l) % step) + 1) step
        (width - (u - l) % step) i := by
  have positive : 0 < step := by omega
  have shifted := shift_residue (i - (c - u + 1)) (step - (width - (u - l) % step)) step positive
    (by omega) (by omega)
  rw [sub_sub, ← add_sub_assoc] at shifted
  obtain ⟨_, _, low⟩ := first
  rintro ⟨_, _, high⟩
  rw [shifted] at high
  have sign := Int.emod_nonneg (i - (c - u + 1)) positive.ne'
  split at high <;> omega

end Mirror

section Bounds

/-- Two intervals have the same integers if they have the same bounds or are empty both. -/
theorem same_interval_iff (a b a' b' : Int) :
    (∀ i, a ≤ i ∧ i < b ↔ a' ≤ i ∧ i < b') ↔ a = a' ∧ b = b' ∨ b ≤ a ∧ b' ≤ a' := by
  constructor
  · intro same
    have lower := same a
    have upper := same (b - 1)
    have lower' := same a'
    have upper' := same (b' - 1)
    omega
  · rintro (⟨rfl, rfl⟩ | empty) i
    · exact Iff.rfl
    · omega

/-- The new bound for a factor above zero: the quotient rounded up. -/
theorem mul_bound {c : Int} (positive : 0 < c) (x i : Int) :
    x ≤ i * c ↔ (if x.tmod c = 0 ∨ x < 0 then x.tdiv c else x.tdiv c + 1) ≤ i := by
  have split := Int.tmod_add_mul_tdiv x c
  have least : ∀ y r : Int, x = r + c * y → -c < r → r ≤ 0 → (x ≤ i * c ↔ y ≤ i) := by
    rintro y r rfl above below
    constructor
    · intro inside
      by_contra less
      nlinarith
    · intro inside
      nlinarith
  by_cases negative : x < 0
  · have remainder : x.tmod c ≤ 0 := by
      have := Int.tmod_nonneg c (by omega : 0 ≤ -x)
      rw [Int.neg_tmod] at this
      omega
    have bound := Int.lt_tmod_of_pos x positive
    rw [if_pos (Or.inr negative)]
    exact least _ _ split.symm bound remainder
  · have remainder := Int.tmod_nonneg c (not_lt.mp negative)
    have bound := Int.tmod_lt_of_pos x positive
    by_cases exact : x.tmod c = 0
    · rw [if_pos (Or.inl exact)]
      exact least _ _ split.symm (by omega) (by omega)
    · rw [if_neg (by tauto)]
      refine least _ (x.tmod c - c) ?_ (by omega) (by omega)
      rw [mul_add, mul_one]
      omega

theorem neg_pred_ediv (x : Int) {c : Int} (positive : 0 < c) :
    -(x + 1) / c = -(x / c) - 1 := by
  have division := Int.emod_add_mul_ediv x c
  have rest := Int.emod_nonneg x positive.ne'
  have short := Int.emod_lt_of_pos x positive
  have same : -(x + 1) = (c - 1 - x % c) + c * (-(x / c) - 1) := by
    rw [mul_sub, mul_neg, mul_one]
    omega
  rw [same, Int.add_mul_ediv_left _ _ positive.ne', Int.ediv_eq_zero_of_lt (by omega) (by omega)]
  omega

/-- The bound for a factor below zero. -/
theorem mul_bound_negative {c : Int} (negative : c < 0) (x : Int) :
    (if x.tmod c = 0 ∨ x < 0 then x.tdiv c + 1 else x.tdiv c) = -x / -c + 1 := by
  have positive : 0 < -c := by omega
  have up := mul_bound positive x
  simp only [Int.tmod_neg, Int.tdiv_neg] at up
  have below := up (-(-x / -c))
  have above := up (-(-x / -c) - 1)
  have division := Int.emod_add_mul_ediv (-x) (-c)
  have rest := Int.emod_nonneg (-x) positive.ne'
  have short := Int.emod_lt_of_pos (-x) positive
  have first : x ≤ -(-x / -c) * -c := by linarith [mul_comm (-c) (-x / -c)]
  have second : ¬ x ≤ (-(-x / -c) - 1) * -c := by
    rw [sub_mul, one_mul]
    linarith [mul_comm (-c) (-x / -c)]
  rw [below] at first
  rw [above] at second
  split at first <;> omega

/-- The new bound for a divisor above zero, by truncating division. -/
def divBound (c x : Int) : Int := if 1 ≤ x then x * c else (x - 1) * c + 1

theorem div_bound {c : Int} (positive : 0 < c) (x i : Int) :
    x ≤ i.tdiv c ↔ divBound c x ≤ i := by
  unfold divBound
  rcases Int.le_total 0 i with nonneg | nonpos
  · rw [Int.tdiv_eq_ediv_of_nonneg nonneg]
    split
    · exact Int.le_ediv_iff_mul_le positive
    · have quotient := Int.ediv_nonneg nonneg positive.le
      have product : (x - 1) * c ≤ -1 * c := Int.mul_le_mul_of_nonneg_right (by omega) positive.le
      omega
  · have reflect : i.tdiv c = -(-i / c) := by
      rw [← Int.tdiv_eq_ediv_of_nonneg (by omega : 0 ≤ -i), Int.neg_tdiv, neg_neg]
    rw [reflect, le_neg, ← Int.lt_add_one_iff, Int.ediv_lt_iff_lt_mul positive]
    split
    · have product : 1 * c ≤ x * c := Int.mul_le_mul_of_nonneg_right (by omega) positive.le
      have flipped : (-x + 1) * c = c - x * c := by ring
      omega
    · have flipped : (-x + 1) * c = -((x - 1) * c) := by ring
      omega

/-- Both bounds are right for a factor above zero; for one below zero the upper bound is, if it
is the one that the new lower bound gives. -/
theorem mul_bounds_iff (l u c : Int) (nonzero : c ≠ 0) :
    (∀ i, l ≤ i * c ∧ i * c < u ↔ (mulBounds l u c).1 ≤ i ∧ i < (mulBounds l u c).2) ↔
      BoundsExact .mul l u c := by
  unfold mulBounds BoundsExact
  rcases Int.lt_or_gt_of_ne nonzero with negative | positive
  · have size : |c| = -c := abs_of_neg negative
    have apart : ∀ x i : Int, x ≤ i * c ↔ i < -x / -c + 1 := by
      intro x i
      rw [Int.lt_add_one_iff, Int.le_ediv_iff_mul_le (by omega), mul_neg]
      omega
    have exact : ∀ i, l ≤ i * c ∧ i * c < u ↔ -u / -c + 1 ≤ i ∧ i < -l / -c + 1 := by
      intro i
      have lower := apart l i
      have upper := apart u i
      omega
    have nested : -(-u / -c + 1) / -c = -(-u / (c * c)) - 1 := by
      rw [neg_pred_ediv (-u / -c) (by omega), Int.ediv_ediv_of_nonneg (by omega), neg_mul_neg]
    have sign : 0 < u ∧ -u / -c < 0 ∧ -u / (c * c) < 0 ∨ u ≤ 0 ∧ 0 ≤ -u / -c ∧ 0 ≤ -u / (c * c) := by
      have square : 0 < c * c := mul_pos_of_neg_of_neg negative negative
      rcases Int.lt_or_le 0 u with above | below
      · exact Or.inl ⟨above, Int.ediv_neg_of_neg_of_pos (by omega) (by omega),
          Int.ediv_neg_of_neg_of_pos (by omega) square⟩
      · exact Or.inr ⟨below, Int.ediv_nonneg (by omega) (by omega),
          Int.ediv_nonneg (by omega) square.le⟩
    have barren : (∀ i, ¬ (l ≤ i * c ∧ i * c < u)) ↔ -l / -c + 1 ≤ -u / -c + 1 := by
      simp only [exact]
      constructor
      · intro none
        have := none (-u / -c + 1)
        omega
      · intro empty i
        omega
    simp only [if_neg (not_lt.mpr negative.le), gt_iff_lt, if_pos negative,
      mul_bound_negative negative, size, nested]
    rw [forall_congr' fun i => iff_congr (exact i) Iff.rfl, same_interval_iff, barren]
    omega
  · simp only [gt_iff_lt, if_pos positive]
    refine iff_of_true (fun i => ?_) (Or.inl positive)
    rw [← mul_bound positive l i, ← not_le, mul_bound positive u i, not_le]

theorem div_bound_one (x : Int) : divBound 1 x = x := by
  unfold divBound
  split <;> omega

theorem div_bound_eq_iff (c x : Int) :
    divBound c x = x * c ↔ c = 1 ∨ 1 ≤ x := by
  unfold divBound
  rw [sub_mul, one_mul]
  split <;> omega

theorem div_bound_le_iff {c : Int} (positive : 0 < c) (x y : Int) :
    divBound c x ≤ divBound c y ↔ x ≤ y := by
  have grows : ∀ a b : Int, a < b → divBound c a < divBound c b := by
    intro a b less
    have product : (a + 1) * c ≤ b * c := Int.mul_le_mul_of_nonneg_right less positive.le
    simp only [divBound, sub_mul, add_mul, one_mul] at product ⊢
    split <;> split <;> omega
  constructor
  · intro below
    by_contra less
    exact absurd (grows y x (not_le.mp less)) (not_lt.mpr below)
  · intro below
    rcases below.lt_or_eq with less | rfl
    · exact (grows x y less).le
    · exact le_rfl

/-- The bounds for a divisor below zero coincide by accident only. -/
theorem div_negative_iff (l u : Int) {d : Int} (positive : 0 < d) :
    divBound d (1 - u) = 1 - u * d ∧ divBound d (1 - l) = 1 - (1 - u * d) * d ↔
      d = 1 ∧ l + u = 1 := by
  by_cases unit : d = 1
  · subst unit
    rw [div_bound_one, div_bound_one]
    omega
  · have wide : 2 ≤ d := by omega
    refine iff_of_false ?_ (fun both => unit both.1)
    rintro ⟨lower, upper⟩
    have above : 1 ≤ u := by
      by_contra below
      rw [divBound, if_pos (by omega), sub_mul, one_mul] at lower
      omega
    unfold divBound at upper
    have product : 1 * d ≤ u * d := Int.mul_le_mul_of_nonneg_right above positive.le
    split at upper
    · have divides : d ∣ 1 := ⟨2 - l - u * d, by linarith [upper]⟩
      have := Int.le_of_dvd one_pos divides
      omega
    · have factor : (1 - l - u * d) * d = 0 := by linarith [upper]
      have := (mul_eq_zero.mp factor).resolve_right positive.ne'
      omega

/-- For a divisor above zero the truncation shows for values below one. -/
theorem div_bounds_iff (l u c : Int) (nonzero : c ≠ 0) :
    (∀ i : Int, l ≤ i.tdiv c ∧ i.tdiv c < u ↔ (divBounds l u c).1 ≤ i ∧ i < (divBounds l u c).2) ↔
      BoundsExact .div l u c := by
  unfold divBounds BoundsExact
  rcases Int.lt_or_gt_of_ne nonzero with negative | positive
  · have exact : ∀ i : Int, l ≤ i.tdiv c ∧ i.tdiv c < u ↔
        divBound (-c) (1 - u) ≤ i ∧ i < divBound (-c) (1 - l) := by
      intro i
      have upper := div_bound (by omega : 0 < -c) (1 - u) i
      have lower := div_bound (by omega : 0 < -c) (1 - l) i
      rw [Int.tdiv_neg] at upper lower
      omega
    simp only [if_neg (not_lt.mpr negative.le), gt_iff_lt, if_pos negative]
    rw [forall_congr' fun i => iff_congr (exact i) Iff.rfl, same_interval_iff,
      div_bound_le_iff (by omega)]
    have coincide := div_negative_iff l u (by omega : 0 < -c)
    have empty : (u * c + 1) * c + 1 ≤ u * c + 1 ↔ u ≤ 0 := by
      constructor
      · intro crossed
        by_contra above
        have lower : u * c ≤ 1 * c := mul_le_mul_of_nonpos_right (by omega) negative.le
        have upper := mul_nonneg_of_nonpos_of_nonpos (by omega : u * c + 1 ≤ 0) negative.le
        omega
      · intro below
        have lower := mul_nonneg_of_nonpos_of_nonpos below negative.le
        have upper : (u * c + 1) * c ≤ 1 * c :=
          mul_le_mul_of_nonpos_right (by omega) negative.le
        omega
    simp only [mul_neg, sub_neg_eq_add] at coincide
    rw [show 1 + u * c = u * c + 1 by ring, show 1 + (u * c + 1) * c = (u * c + 1) * c + 1 by ring]
      at coincide
    rw [coincide, empty]
    omega
  · have exact : ∀ i : Int, l ≤ i.tdiv c ∧ i.tdiv c < u ↔ divBound c l ≤ i ∧ i < divBound c u := by
      intro i
      rw [div_bound positive l i, ← not_le, div_bound positive u i, not_le]
    simp only [gt_iff_lt, if_pos positive]
    rw [forall_congr' fun i => iff_congr (exact i) Iff.rfl, same_interval_iff,
      div_bound_le_iff positive, div_bound_eq_iff, div_bound_eq_iff,
      Int.mul_le_mul_right positive]
    omega

end Bounds

section Results

variable {shape : Nat} {ig : InternGen shape} {dim : Fin shape} {constval : Int}

theorem has_bounds (l u i : Int) :
    (ig.setBounds dim l u).Has dim i ↔
      match ig.grid with
      | none => l ≤ i ∧ i < u
      | some grid => InGrid l u (grid.step dim) (grid.width dim) i := by
  unfold InternGen.Has InternGen.setBounds
  cases ig.grid <;> simp

theorem has_elsewhere {other : Fin shape} (differ : other ≠ dim) (l u i : Int) :
    (ig.setBounds dim l u).Has other i ↔ ig.Has other i := by
  unfold InternGen.Has InternGen.setBounds
  cases ig.grid <;> simp [differ]

theorem width_elsewhere {other : Fin shape} (differ : other ≠ dim) (width i : Int) :
    (ig.setWidth dim width).Has other i ↔ ig.Has other i := by
  unfold InternGen.Has InternGen.setWidth
  cases ig.grid <;> simp [differ]

@[simp] theorem set_bounds_l (l u : Int) : (ig.setBounds dim l u).l dim = l :=
  Function.update_self ..

@[simp] theorem set_bounds_u (l u : Int) : (ig.setBounds dim l u).u dim = u :=
  Function.update_self ..

@[simp] theorem set_width_l (width : Int) : (ig.setWidth dim width).l = ig.l := rfl

@[simp] theorem set_width_u (width : Int) : (ig.setWidth dim width).u = ig.u := rfl

/-- A returned generator without indices need not be returned. -/
theorem Preimage.without {f : Int → Int} {left newig : InternGen shape}
    (preimage : Preimage f ig dim left (some newig)) (empty : ∀ i, ¬ newig.Has dim i) :
    Preimage f ig dim left none where
  exact i := by simpa [empty] using preimage.exact i
  disjoint := by simp
  elsewhere other i differ := ⟨(preimage.elsewhere other i differ).1, by simp⟩
  code := ⟨preimage.code.1, by simp⟩

/-- If only the bounds are changed, the new bounds decide. -/
theorem bounds_preimage (f : Int → Int) (l u : Int) :
    Preimage f ig dim (ig.setBounds dim l u) none ↔
      ∀ i, ig.Has dim (f i) ↔ (ig.setBounds dim l u).Has dim i := by
  constructor
  · intro preimage i
    simpa using preimage.exact i
  · intro exact
    refine ⟨fun i => by simpa using exact i, by simp, ?_, by simp [InternGen.setBounds]⟩
    intro other i differ
    exact ⟨has_elsewhere differ l u i, by simp⟩

theorem has_width {grid : Grid shape} (gridded : ig.grid = some grid) (width l u i : Int) :
    ((ig.setWidth dim width).setBounds dim l u).Has dim i ↔ InGrid l u (grid.step dim) width i := by
  rw [has_bounds]
  simp [InternGen.setWidth, gridded]

/-- Nothing is left of an empty generator. -/
theorem empty_preimage {grid : Grid shape} (gridded : ig.grid = some grid) (f : Int → Int)
    (width l u : Int) (empty : ig.u dim ≤ ig.l dim) (crossed : u ≤ l) :
    Preimage f ig dim ((ig.setWidth dim width).setBounds dim l u) none := by
  refine ⟨?_, by simp, ?_, by simp [InternGen.setBounds, InternGen.setWidth]⟩
  · intro i
    have none : ¬ ig.Has dim (f i) := by
      simp only [InternGen.Has, gridded, InGrid]
      omega
    have neither : ¬ InGrid l u (grid.step dim) width i := by
      simp only [InGrid]
      omega
    simp [none, has_width gridded, neither]
  · intro other i differ
    exact ⟨(has_elsewhere differ l u i).trans (width_elsewhere differ width i), by simp⟩

theorem has_part {grid : Grid shape} (gridded : ig.grid = some grid) (low width l u i : Int) :
    ((((copyInternGen ig).setBounds dim low (ig.u dim)).setWidth dim width).setBounds dim l u).Has
      dim i ↔ InGrid l u (grid.step dim) width i := by
  have copied : ((copyInternGen ig).setBounds dim low (ig.u dim)).grid = some grid := by
    simp [copyInternGen, InternGen.setBounds, gridded]
  exact has_width copied width l u i

/-- Two grids, one for the rest of the cut period. -/
theorem short_preimage {grid : Grid shape} (gridded : ig.grid = some grid)
    (narrow : grid.width dim ≤ grid.step dim) {cut width : Int}
    (isCut : (ig.u dim - ig.l dim) % grid.step dim = cut) (rest : 0 < cut)
    (short : cut < grid.width dim) (isWidth : grid.width dim - cut = width) :
    Preimage (fun i => constval - i) ig dim
      ((ig.setWidth dim cut).setBounds dim (constval - ig.u dim + 1) (constval - ig.l dim + 1))
      (some ((((copyInternGen ig).setBounds dim (ig.l dim + cut) (ig.u dim)).setWidth dim
        width).setBounds dim (constval - ig.u dim + 1 + grid.step dim - width)
          (constval - (ig.l dim + cut) + 1))) := by
  subst isCut isWidth
  have copied : ∀ other i, (copyInternGen ig).Has other i ↔ ig.Has other i := by
    intro other i
    simp only [InternGen.Has, copyInternGen]
    cases ig.grid <;> exact Iff.rfl
  refine ⟨?_, ?_, ?_, ?_⟩
  · intro i
    simp only [Option.some.injEq, exists_eq_left', has_part gridded, has_width gridded]
    simpa only [InternGen.Has, gridded] using mirror_short narrow rest short constval i
  · rintro i newig ⟨rfl⟩ first
    rw [has_width gridded] at first
    rw [has_part gridded]
    exact short_disjoint narrow rest short constval i first
  · intro other i differ
    refine ⟨(has_elsewhere differ ..).trans (width_elsewhere differ ..), ?_⟩
    rintro newig ⟨rfl⟩
    rw [has_elsewhere differ, width_elsewhere differ, has_elsewhere differ, copied]
  · refine ⟨rfl, ?_⟩
    rintro newig ⟨rfl⟩
    rfl

/-- A grid whose width stays is the preimage if the new bounds are right. -/
theorem moved_preimage {grid : Grid shape} (gridded : ig.grid = some grid) {l u : Int}
    (same : ∀ i, InGrid (ig.l dim) (ig.u dim) (grid.step dim) (grid.width dim) (constval - i) ↔
      InGrid l u (grid.step dim) (grid.width dim) i) :
    Preimage (fun i => constval - i) ig dim (ig.setBounds dim l u) none := by
  rw [bounds_preimage]
  intro i
  rw [has_bounds]
  simpa only [InternGen.Has, gridded] using same i

/-- Of a generator whose bounds have crossed nothing is left in any branch. -/
theorem crossed_preimage {grid : Grid shape} (gridded : ig.grid = some grid)
    (positive : 0 < grid.step dim) (narrow : grid.width dim ≤ grid.step dim)
    (crossed : ig.u dim < ig.l dim) :
    Preimage (fun i => constval - i) ig dim (subFromScalar ig dim constval).1
      (subFromScalar ig dim constval).2 := by
  have none : ∀ l u, u ≤ l → Preimage (fun i => constval - i) ig dim
      (ig.setBounds dim l u) none := by
    intro l u empty
    apply moved_preimage gridded
    intro i
    simp only [InGrid]
    omega
  -- the remainder is not below the dividend, so that the new bounds cross as well
  have below : ig.u dim - ig.l dim ≤ (ig.u dim - ig.l dim).tmod (grid.step dim) := by
    have small := residue_le (by omega : 0 ≤ ig.l dim - ig.u dim) positive
    rw [← Int.tmod_eq_emod_of_nonneg (by omega), ← neg_sub, Int.neg_tmod] at small
    omega
  simp only [subFromScalar, gridded]
  split
  · exact none _ _ (by omega)
  · split
    · exact none _ _ (by omega)
    · split
      · rw [if_pos (by simp only [set_width_l, set_width_u, set_bounds_l, set_bounds_u]; omega)]
        exact empty_preimage gridded _ _ _ _ crossed.le (by omega)
      · exact none _ _ (by omega)

/-- The branches of the source are those of the rest of the last period. -/
theorem ordered_preimage {grid : Grid shape} (gridded : ig.grid = some grid)
    (wide : 1 ≤ grid.width dim) (narrow : grid.width dim ≤ grid.step dim)
    (ordered : ig.l dim ≤ ig.u dim) :
    Preimage (fun i => constval - i) ig dim (subFromScalar ig dim constval).1
      (subFromScalar ig dim constval).2 := by
  have rest := Int.emod_nonneg (ig.u dim - ig.l dim) (show grid.step dim ≠ 0 by omega)
  simp only [subFromScalar, gridded]
  rw [Int.tmod_eq_emod_of_nonneg (by omega)]
  split
  case isTrue whole => exact moved_preimage gridded (mirror_whole wide narrow whole constval)
  case isFalse rested =>
    split
    case isTrue long => exact moved_preimage gridded (mirror_long wide narrow long.le constval)
    case isFalse within =>
      split
      case isTrue short =>
        simp only [set_width_l, set_width_u, set_bounds_l, set_bounds_u]
        have both : Preimage (fun i => constval - i) ig dim _ _ :=
          short_preimage gridded narrow rfl (by omega) short rfl
        split
        · apply both.without
          intro i
          rw [has_part gridded, InGrid]
          omega
        · exact both
      case isFalse atWidth =>
        have exactly : (ig.u dim - ig.l dim) % grid.step dim = grid.width dim := by omega
        have long := mirror_long wide narrow exactly.ge constval
        rw [exactly, sub_self, add_zero] at long
        exact moved_preimage gridded long

theorem sub_from_scalar_preimage (ig : InternGen shape) (dim : Fin shape) (constval : Int)
    (legal : Legal ig .sub) :
    Preimage (fun i => constval - i) ig dim (subFromScalar ig dim constval).1
      (subFromScalar ig dim constval).2 := by
  cases gridded : ig.grid with
  | none =>
      simp only [subFromScalar, gridded]
      rw [bounds_preimage]
      intro i
      rw [has_bounds]
      simp only [InternGen.Has, gridded]
      omega
  | some grid =>
      obtain ⟨wide, narrow⟩ := (legal grid gridded).2 dim
      rcases Int.lt_or_le (ig.u dim) (ig.l dim) with crossed | ordered
      · exact crossed_preimage gridded (by omega) narrow crossed
      · exact ordered_preimage gridded wide narrow ordered

theorem plain_has (plain : ig.grid = none) (i : Int) :
    ig.Has dim i ↔ ig.l dim ≤ i ∧ i < ig.u dim := by
  simp only [InternGen.Has, plain]

theorem plain_preimage (plain : ig.grid = none) (f : Int → Int) (l u : Int) :
    Preimage f ig dim (ig.setBounds dim l u) none ↔
      ∀ i, ig.l dim ≤ f i ∧ f i < ig.u dim ↔ l ≤ i ∧ i < u := by
  rw [bounds_preimage]
  apply forall_congr'
  intro i
  rw [has_bounds, plain, plain_has plain]

/-- For sums and differences the shifted bounds are right, with any grid. -/
theorem shift_preimage (ig : InternGen shape) (dim : Fin shape) (f : Int → Int) (offset : Int)
    (shifts : ∀ i, f i = i + offset) :
    Preimage f ig dim (ig.setBounds dim (ig.l dim - offset) (ig.u dim - offset)) none := by
  rw [bounds_preimage]
  intro i
  rw [has_bounds, shifts]
  cases gridded : ig.grid with
  | none =>
      rw [plain_has gridded]
      simp only
      omega
  | some grid =>
      simp only [InternGen.Has, gridded, InGrid]
      rw [show i + offset - ig.l dim = i - (ig.l dim - offset) by omega]
      omega

/-- The preimage is computed for every sum and difference, and for products and quotients just
where the bounds are exact. -/
theorem preimage_iff (ig : InternGen shape) (dim : Fin shape) (prf : Prf) (argNo : Nat)
    (constval : Int) (position : argNo = 1 ∨ argNo = 2) (implemented : prf = .div → argNo = 2)
    (legal : Legal ig prf) (factor : prf = .mul ∨ prf = .div → constval ≠ 0) :
    ComputesPreimage ig dim prf argNo constval ↔
      BoundsExact prf (ig.l dim) (ig.u dim) constval := by
  unfold ComputesPreimage linearTransformationsHelp
  rw [if_pos position]
  have plain : prf = .mul ∨ prf = .div → ig.grid = none := by
    intro product
    cases gridded : ig.grid with
    | none => rfl
    | some grid =>
        rcases product with rfl | rfl
        · exact absurd (legal grid gridded).1 (by simp)
        · exact absurd (legal grid gridded).1 (by simp)
  cases prf with
  | add =>
      refine iff_of_true ⟨_, _, rfl, ?_⟩ trivial
      exact shift_preimage ig dim _ constval fun i => rfl
  | sub =>
      refine iff_of_true ?_ trivial
      by_cases second : argNo = 2
      · have difference : transformed .sub argNo constval = fun i => i - constval := by
          funext i
          simp only [transformed, if_pos second]
        simp only [if_pos second]
        refine ⟨_, _, rfl, ?_⟩
        rw [difference]
        simpa only [sub_neg_eq_add] using
          shift_preimage ig dim (fun i => i - constval) (-constval) fun i => rfl
      · have difference : transformed .sub argNo constval = fun i => constval - i := by
          funext i
          simp only [transformed, if_neg second]
        rw [if_neg second, difference]
        exact ⟨_, _, rfl, sub_from_scalar_preimage ig dim constval legal⟩
  | mul =>
      have isPlain := plain (Or.inl rfl)
      rw [← mul_bounds_iff _ _ _ (factor (Or.inl rfl)), ← plain_preimage isPlain]
      have product : transformed .mul argNo constval = fun i => i * constval := rfl
      simp [isPlain, product]
  | div =>
      have isPlain := plain (Or.inr rfl)
      rw [← div_bounds_iff _ _ _ (factor (Or.inr rfl)), ← plain_preimage isPlain]
      obtain rfl := implemented rfl
      have quotient : transformed .div 2 constval = fun i => i.tdiv constval := rfl
      simp [isPlain, quotient]

def line (l u : Int) : InternGen 1 := ⟨fun _ => l, fun _ => u, none, 0⟩

/-- The factor -2 happens to get the right bounds here. -/
theorem preimage_iff_minus_two :
    ComputesPreimage (line (-1) 3) 0 .mul 1 (-2) ↔ BoundsExact .mul (-1) 3 (-2) :=
  preimage_iff (line (-1) 3) 0 .mul 1 (-2) (by decide) (by decide) (by rintro grid ⟨⟩) (by decide)

/-- The indices that are multiplied by -1 into 2, 3 and 4 are -4 to -2, but not 0. -/
theorem times_minus_one : ¬ ComputesPreimage (line 2 5) 0 .mul 1 (-1) := by
  rintro ⟨left, returned, computed, preimage⟩
  cases computed
  have zero := (preimage.exact 0).mpr (Or.inl (by
    rw [plain_has rfl]
    decide))
  rw [plain_has rfl] at zero
  exact absurd zero (by decide)

/-- In several dimensions the index vectors are covered in the same way. -/
theorem Preimage.contains {f : Int → Int} {left : InternGen shape}
    {returned : Option (InternGen shape)} (preimage : Preimage f ig dim left returned)
    (iv : Fin shape → Int) :
    ig.Contains (Function.update iv dim (f (iv dim))) ↔
      left.Contains iv ∨ ∃ newig, returned = some newig ∧ newig.Contains iv := by
  have split : ∀ gen : InternGen shape, gen.Contains iv ↔
      gen.Has dim (iv dim) ∧ ∀ other, other ≠ dim → gen.Has other (iv other) := by
    intro gen
    constructor
    · intro inside
      exact ⟨inside dim, fun other _ => inside other⟩
    · rintro ⟨here, others⟩ other
      by_cases same : other = dim
      · exact same ▸ here
      · exact others other same
  have moved : ig.Contains (Function.update iv dim (f (iv dim))) ↔
      ig.Has dim (f (iv dim)) ∧ ∀ other, other ≠ dim → ig.Has other (iv other) := by
    constructor
    · intro inside
      refine ⟨by simpa using inside dim, fun other differ => ?_⟩
      simpa [differ] using inside other
    · rintro ⟨here, others⟩ other
      by_cases same : other = dim
      · subst same
        simpa using here
      · simpa [same] using others other same
  rw [moved, preimage.exact (iv dim), split left]
  have leftSame := fun other differ => (preimage.elsewhere other (iv other) differ).1
  have newSame := fun other differ => (preimage.elsewhere other (iv other) differ).2
  constructor
  · rintro ⟨here | ⟨newig, isNew, here⟩, others⟩
    · exact Or.inl ⟨here, fun other differ => (leftSame other differ).mpr (others other differ)⟩
    · refine Or.inr ⟨newig, isNew, (split newig).mpr ⟨here, fun other differ => ?_⟩⟩
      exact (newSame other differ newig isNew).mpr (others other differ)
  · rintro (⟨here, others⟩ | ⟨newig, isNew, inside⟩)
    · exact ⟨Or.inl here, fun other differ => (leftSame other differ).mp (others other differ)⟩
    · obtain ⟨here, others⟩ := (split newig).mp inside
      refine ⟨Or.inr ⟨newig, isNew, here⟩, fun other differ => ?_⟩
      exact (newSame other differ newig isNew).mp (others other differ)

end Results

end Sac2c.LinearTransformations
