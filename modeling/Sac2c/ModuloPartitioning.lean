import Mathlib.Logic.Function.Iterate
import Mathlib.Algebra.Order.Group.Unbundled.Int
import Mathlib.Data.List.Basic
import Mathlib.Tactic.Common
import Mathlib.Tactic.Linarith

/-!
Modulo operations on a with-loop index are replaced by additions, after the
generator is cut where the quotient changes (arrayopt/wl_modulo_partitioning.c,
the shared offset method). The number of partitions is fixed at compile time,
their bounds and offsets are computed at run time.
-/

namespace Sac2c.ModuloPartitioning

/-- `MATHfloorDivide`; the exclusive or of the operands is negative if one of them is. -/
def floorDivide (dividend divisor : Int) : Int :=
  let quotient := dividend.tdiv divisor
  let remainder := dividend.tmod divisor
  quotient - (if (decide (dividend < 0) ^^ decide (divisor < 0)) && remainder != 0 then 1 else 0)

def aplrem (arg1 arg2 : Int) : Int := if arg2 = 0 then arg1 else arg1.tmod arg2

/-- `SAC_ND_PRF_APLMOD`. -/
def aplmod (arg1 arg2 : Int) : Int :=
  if aplrem arg1 arg2 ≠ 0 ∧ arg1.sign ≠ arg2.sign then aplrem arg1 arg2 + arg2
  else aplrem arg1 arg2

/-- An avis: its value at run time, and whether `COisConstant` knows it. -/
structure Scalar where
  value : Int
  isConstant : Bool

/-- `aplmod (iv + c, x)` in a generator `l <= iv < u`. -/
structure Modulo where
  lowerBound : Scalar
  upperBound : Scalar
  offset : Scalar
  divisor : Scalar
  /-- `TULSisValuesMatch` of the upper bound and the divisor. -/
  valuesMatch : Bool
  /-- The divisor is defined as the negation of what matches the upper bound. -/
  negationMatches : Bool
  lower_nonneg : 0 ≤ lowerBound.value
  values_match : valuesMatch = true → upperBound.value = divisor.value
  negation_matches : negationMatches = true → upperBound.value = -divisor.value

/-- The value is 0, to be relied on for lower bounds only, if the node is no constant. -/
def nodeToUnsafeInt (node : Scalar) : Int := if node.isConstant then node.value else 0

def determineNrSharedOffsetPartitions (dosop valuesMatch negationMatches : Bool)
    (isConstUpperBound isConstDivisor isConstOffset : Bool)
    (lowerBound upperBound divisor offset : Int) : Nat :=
  if !dosop then 0
  else if isConstDivisor && divisor == 0 then 1
  else if isConstUpperBound && isConstDivisor && isConstOffset then
    1 + (floorDivide (upperBound - 1 + offset) divisor -
      floorDivide (lowerBound + offset) divisor).natAbs
  else if valuesMatch then
    if isConstOffset && offset == 0 then 1 else 2
  else if (isConstUpperBound && isConstDivisor && upperBound == -divisor) || negationMatches then
    if isConstOffset && offset == 1 then 1
    else if isConstOffset && offset == 0 && decide (1 ≤ lowerBound) then 1
    else 2
  else if isConstUpperBound && isConstDivisor then
    1 + (floorDivide (upperBound - 1 - lowerBound) divisor).natAbs
  else 0

/-- The call in `DeterminePartitionMethod`. -/
def Modulo.nrPartitions (dosop : Bool) (modulo : Modulo) : Nat :=
  determineNrSharedOffsetPartitions dosop modulo.valuesMatch modulo.negationMatches
    modulo.upperBound.isConstant modulo.divisor.isConstant modulo.offset.isConstant
    (nodeToUnsafeInt modulo.lowerBound) (nodeToUnsafeInt modulo.upperBound)
    (nodeToUnsafeInt modulo.divisor) (nodeToUnsafeInt modulo.offset)

section Nodes

variable (modulo : Modulo)

def addLimitedAbsDivisor (previous : Int) : Int :=
  min (previous + modulo.divisor.value.natAbs) modulo.upperBound.value

def sopNewOffsetBase : Int :=
  aplmod (modulo.lowerBound.value + modulo.offset.value) modulo.divisor.value +
    -modulo.lowerBound.value

def sopNewOffsetRec (previous : Int) : Int :=
  previous + -(modulo.divisor.value.natAbs : Int)

def toi (b : Bool) : Int := if b then 1 else 0

def sopLowerBoundBase : Int :=
  toi (modulo.divisor.value == 0) * modulo.lowerBound.value +
    toi (modulo.divisor.value != 0) * -sopNewOffsetBase modulo +
    toi (decide (modulo.divisor.value < 0)) * (modulo.divisor.value + 1)

def sopUpperBoundBase : Int := addLimitedAbsDivisor modulo (sopLowerBoundBase modulo)

end Nodes

structure NodeCache where
  partition : Nat
  node : Int

/-- The cache afterwards, with the node of the current partition. -/
def cacheWrapper (baseFunc : Int) (recFunc : Int → Int) (nrCurrentPartition : Nat)
    (cache : Option NodeCache) : NodeCache :=
  let start := cache.getD ⟨0, baseFunc⟩
  ⟨nrCurrentPartition, recFunc^[nrCurrentPartition - start.partition] start.node⟩

structure Caches where
  lowerBound : Option NodeCache
  upperBound : Option NodeCache
  newOffset : Option NodeCache

/-- One partition: its bounds, and what is added to `iv` in its code. -/
structure Part where
  bound1 : Int
  bound2 : Int
  newOffset : Int

/-- `SetPartitionBounds`; the outer bounds stay. -/
def setPartitionBounds (modulo : Modulo) (nrRequired nrCurrent : Nat) (caches : Caches) :
    Int × Int × Caches :=
  let lower := cacheWrapper (sopLowerBoundBase modulo) (addLimitedAbsDivisor modulo) nrCurrent
    caches.lowerBound
  let upper := cacheWrapper (sopUpperBoundBase modulo) (addLimitedAbsDivisor modulo) nrCurrent
    caches.upperBound
  let bound1 := if nrCurrent ≠ 0 then lower.node else modulo.lowerBound.value
  let bound2 := if nrCurrent + 1 ≠ nrRequired then upper.node else modulo.upperBound.value
  (bound1, bound2,
    { caches with
      lowerBound := if nrCurrent ≠ 0 then some lower else caches.lowerBound
      upperBound := if nrCurrent + 1 ≠ nrRequired then some upper else caches.upperBound })

/-- `ATravPart` for the current partition and the `remaining` ones behind it. -/
def travParts (modulo : Modulo) (nrRequired : Nat) : Nat → Nat → Caches → List Part
  | 0, _, _ => []
  | remaining + 1, nrCurrent, caches =>
      let (bound1, bound2, caches) := setPartitionBounds modulo nrRequired nrCurrent caches
      let newOffset := cacheWrapper (sopNewOffsetBase modulo) (sopNewOffsetRec modulo) nrCurrent
        caches.newOffset
      ⟨bound1, bound2, newOffset.node⟩ ::
        travParts modulo nrRequired remaining (nrCurrent + 1)
          { caches with newOffset := some newOffset }

def sharedOffsetPartitions (modulo : Modulo) (nrRequired : Nat) : List Part :=
  travParts modulo nrRequired nrRequired 0 ⟨none, none, none⟩

def Part.Contains (part : Part) (iv : Int) : Prop := part.bound1 ≤ iv ∧ iv < part.bound2

/-- The partitions make up the generator, and the addition is the modulo in each of them. -/
structure Replaces (modulo : Modulo) (parts : List Part) : Prop where
  disjoint : parts.Pairwise (fun part other => ∀ iv, part.Contains iv → ¬ other.Contains iv)
  cover : ∀ iv, (∃ part ∈ parts, part.Contains iv) ↔
    modulo.lowerBound.value ≤ iv ∧ iv < modulo.upperBound.value
  offset : ∀ part ∈ parts, ∀ iv, part.Contains iv →
    iv + part.newOffset = aplmod (iv + modulo.offset.value) modulo.divisor.value

/-- The offset is unknown, and the first window ends before the whole windows counted for it. -/
def Undercounted (modulo : Modulo) : Prop :=
  let l := modulo.lowerBound.value
  let u := modulo.upperBound.value
  let c := modulo.offset.value
  let x := modulo.divisor.value
  let known := nodeToUnsafeInt modulo.lowerBound
  modulo.upperBound.isConstant ∧ modulo.divisor.isConstant ∧ ¬ modulo.offset.isConstant ∧
    ¬ modulo.valuesMatch ∧ ¬ modulo.negationMatches ∧ u ≠ -x ∧ 0 < x ∧ l < u ∧
    x + (l - known) ≤ (l + c) % x + (u - 1 - known) % x

theorem tmod_range {divisor : Int} (nonzero : divisor ≠ 0) (dividend : Int) :
    (dividend.tmod divisor).natAbs < divisor.natAbs ∧
      (0 ≤ dividend → 0 ≤ dividend.tmod divisor) ∧
      (dividend ≤ 0 → dividend.tmod divisor ≤ 0) := by
  constructor
  · rw [Int.natAbs_tmod]
    exact Nat.mod_lt _ (by omega)
  · constructor
    · exact Int.tmod_nonneg divisor
    · intro nonpositive
      have mirrored := Int.tmod_nonneg divisor (by omega : 0 ≤ -dividend)
      rw [Int.neg_tmod] at mirrored
      omega

theorem floor_divide_pos {divisor : Int} (positive : 0 < divisor) (dividend : Int) :
    floorDivide dividend divisor = dividend / divisor := by
  have unsigned : ¬ divisor < 0 := by omega
  obtain ⟨small, rounded⟩ := tmod_range (ne_of_gt positive) dividend
  have split := Int.tmod_add_mul_tdiv dividend divisor
  simp only [floorDivide, unsigned, decide_false, Bool.xor_false]
  by_cases down : dividend < 0 ∧ dividend.tmod divisor ≠ 0
  · have shifted : dividend.tmod divisor + divisor + divisor * (dividend.tdiv divisor - 1) =
        dividend := by
      rw [Int.mul_sub]
      omega
    have unique := (Int.ediv_emod_unique positive).mpr ⟨shifted, by omega, by omega⟩
    rw [unique.1, if_pos (by simpa using down)]
  · have unique := (Int.ediv_emod_unique positive).mpr ⟨split, by omega, by omega⟩
    rw [unique.1, if_neg (by simpa using down), Int.sub_zero]

theorem floor_divide_neg {divisor : Int} (negative : divisor < 0) (dividend : Int) :
    floorDivide dividend divisor = -((dividend - 1) / -divisor) - 1 := by
  have mirrored : floorDivide dividend divisor = floorDivide (-dividend) (-divisor) := by
    have signed : ¬ -divisor < 0 := by omega
    simp only [floorDivide, Int.tdiv_neg, Int.neg_tdiv, Int.neg_neg, Int.tmod_neg, Int.neg_tmod,
      negative, signed, decide_true, decide_false, Bool.xor_true, Bool.xor_false]
    by_cases whole : dividend.tmod divisor = 0
    · simp [whole]
    · have nonzero : dividend ≠ 0 := by
        intro zero
        simp [zero] at whole
      have sign : (!decide (dividend < 0)) = decide (-dividend < 0) := by
        rw [← decide_not, decide_eq_decide]
        omega
      simp [sign]
  rw [mirrored, floor_divide_pos (by omega)]
  have positive : 0 < -divisor := by omega
  have split := Int.emod_add_mul_ediv (dividend - 1) (-divisor)
  have low := Int.emod_nonneg (dividend - 1) (ne_of_gt positive)
  have high := Int.emod_lt_of_pos (dividend - 1) positive
  have ceiling : -divisor - 1 - (dividend - 1) % -divisor +
      -divisor * (-((dividend - 1) / -divisor) - 1) = -dividend := by
    rw [Int.mul_sub, Int.mul_neg]
    omega
  exact ((Int.ediv_emod_unique positive).mpr ⟨ceiling, by omega, by omega⟩).1

section Remainder

variable {divisor : Int} (dividend : Int)

theorem aplmod_zero : aplmod dividend 0 = dividend := by
  simp [aplmod, aplrem]

theorem sign_differs (nonzero : divisor ≠ 0) :
    dividend.sign ≠ divisor.sign ↔ dividend = 0 ∨ (dividend < 0 ↔ 0 < divisor) := by
  rcases Int.lt_trichotomy dividend 0 with left | left | left <;>
    rcases lt_or_gt_of_ne nonzero with right | right <;>
    simp [Int.sign_eq_one_of_pos, Int.sign_eq_neg_one_of_neg, left, right] <;> omega

/-- The result has the sign of the divisor. -/
theorem aplmod_range (nonzero : divisor ≠ 0) :
    0 < divisor ∧ 0 ≤ aplmod dividend divisor ∧ aplmod dividend divisor < divisor ∨
      divisor < 0 ∧ divisor < aplmod dividend divisor ∧ aplmod dividend divisor ≤ 0 := by
  obtain ⟨small, above, below⟩ := tmod_range nonzero dividend
  simp only [aplmod, aplrem, if_neg nonzero, sign_differs dividend nonzero]
  split_ifs <;> omega

theorem dvd_sub_aplmod (dividend divisor : Int) :
    divisor ∣ dividend - aplmod dividend divisor := by
  by_cases zero : divisor = 0
  · rw [zero, aplmod_zero, Int.sub_self]
  · have split := Int.tmod_add_mul_tdiv dividend divisor
    rw [aplmod, aplrem, if_neg zero]
    split_ifs
    · exact ⟨dividend.tdiv divisor - 1, by rw [Int.mul_sub]; omega⟩
    · exact ⟨dividend.tdiv divisor, by omega⟩

theorem aplmod_eq_iff {value : Int} (nonzero : divisor ≠ 0)
    (congruent : divisor ∣ dividend - value) : aplmod dividend divisor = value ↔
      0 < divisor ∧ 0 ≤ value ∧ value < divisor ∨ divisor < 0 ∧ divisor < value ∧ value ≤ 0 := by
  have range := aplmod_range dividend nonzero
  constructor
  · intro same
    exact same ▸ range
  · intro inside
    have apart : divisor ∣ aplmod dividend divisor - value := by
      have difference := Int.dvd_sub congruent (dvd_sub_aplmod dividend divisor)
      rwa [sub_sub_sub_cancel_left] at difference
    have none := Int.eq_zero_of_dvd_of_natAbs_lt_natAbs apart (by omega)
    omega

end Remainder

section Windows

variable (modulo : Modulo)

/-- The offset as it would be for a positive divisor. -/
def Modulo.phase : Int :=
  modulo.offset.value - (if modulo.divisor.value < 0 then 1 else 0)

def Modulo.window : Int := modulo.divisor.value.natAbs

/-- Where the quotient of the `k`-th partition begins. -/
def Modulo.border (k : Nat) : Int := sopLowerBoundBase modulo + k * modulo.window

theorem border_succ (k : Nat) :
    modulo.border (k + 1) = modulo.border k + modulo.window := by
  rw [Modulo.border, Modulo.border, Nat.cast_succ, Int.add_mul]
  omega

theorem border_zero : modulo.border 0 = sopLowerBoundBase modulo := by
  simp [Modulo.border]

theorem border_mono {j k : Nat} (le : j ≤ k) : modulo.border j ≤ modulo.border k := by
  induction le with
  | refl => exact le_refl _
  | step _ ih =>
      rw [border_succ]
      exact ih.trans (by rw [Modulo.window]; omega)

theorem iterate_limited (k : Nat) :
    (addLimitedAbsDivisor modulo)^[k + 1] (sopLowerBoundBase modulo) =
      min (modulo.border (k + 1)) modulo.upperBound.value := by
  induction k with
  | zero => rw [border_succ, border_zero]; rfl
  | succ k ih =>
      rw [Function.iterate_succ_apply', ih, border_succ _ (k + 1), addLimitedAbsDivisor,
        Modulo.window]
      omega

theorem iterate_offset (k : Nat) :
    (sopNewOffsetRec modulo)^[k] (sopNewOffsetBase modulo) =
      sopNewOffsetBase modulo - k * modulo.window := by
  induction k with
  | zero => simp
  | succ k ih =>
      rw [Function.iterate_succ_apply', ih, sopNewOffsetRec, Modulo.window, Nat.cast_succ,
        Int.add_mul]
      omega

/-- The partition `ATravPart` builds at position `k`. -/
def Modulo.part (nrRequired k : Nat) : Part where
  bound1 := if k ≠ 0 then min (modulo.border k) modulo.upperBound.value
    else modulo.lowerBound.value
  bound2 := if k + 1 ≠ nrRequired then min (modulo.border (k + 1)) modulo.upperBound.value
    else modulo.upperBound.value
  newOffset := sopNewOffsetBase modulo - k * modulo.window

end Windows

section Caches

/-- A cache lags behind the current partition, and holds the node of its own one. -/
def Lags (baseFunc : Int) (recFunc : Int → Int) (nrCurrent : Nat) (cache : Option NodeCache) :
    Prop :=
  ∀ entry, cache = some entry →
    entry.partition ≤ nrCurrent ∧ entry.node = recFunc^[entry.partition] baseFunc

variable {baseFunc : Int} {recFunc : Int → Int} {nrCurrent : Nat} {cache : Option NodeCache}

theorem cache_wrapper_node (lags : Lags baseFunc recFunc nrCurrent cache) :
    cacheWrapper baseFunc recFunc nrCurrent cache = ⟨nrCurrent, recFunc^[nrCurrent] baseFunc⟩ := by
  cases cache with
  | none => rfl
  | some entry =>
      obtain ⟨behind, node⟩ := lags entry rfl
      rw [cacheWrapper, Option.getD_some, node, ← Function.iterate_add_apply,
        Nat.sub_add_cancel behind]

theorem Lags.later (lags : Lags baseFunc recFunc nrCurrent cache) :
    Lags baseFunc recFunc (nrCurrent + 1) cache := by
  intro entry cached
  exact ⟨Nat.le_succ_of_le (lags entry cached).1, (lags entry cached).2⟩

theorem lags_wrapper (nrCurrent : Nat) :
    Lags baseFunc recFunc (nrCurrent + 1) (some ⟨nrCurrent, recFunc^[nrCurrent] baseFunc⟩) := by
  intro entry cached
  cases cached
  exact ⟨Nat.le_succ nrCurrent, rfl⟩

structure CachesLag (modulo : Modulo) (nrCurrent : Nat) (caches : Caches) : Prop where
  lower : Lags (sopLowerBoundBase modulo) (addLimitedAbsDivisor modulo) nrCurrent
    caches.lowerBound
  upper : Lags (sopUpperBoundBase modulo) (addLimitedAbsDivisor modulo) nrCurrent
    caches.upperBound
  offset : Lags (sopNewOffsetBase modulo) (sopNewOffsetRec modulo) nrCurrent caches.newOffset

theorem trav_parts_eq (modulo : Modulo) (nrRequired remaining nrCurrent : Nat) (caches : Caches)
    (lag : CachesLag modulo nrCurrent caches) :
    travParts modulo nrRequired remaining nrCurrent caches =
      (List.range' nrCurrent remaining).map (modulo.part nrRequired) := by
  induction remaining generalizing nrCurrent caches with
  | zero => rfl
  | succ remaining ih =>
      have upper : (addLimitedAbsDivisor modulo)^[nrCurrent] (sopUpperBoundBase modulo) =
          min (modulo.border (nrCurrent + 1)) modulo.upperBound.value := by
        rw [← iterate_limited, Function.iterate_succ_apply]
        rfl
      have lower : nrCurrent ≠ 0 →
          (addLimitedAbsDivisor modulo)^[nrCurrent] (sopLowerBoundBase modulo) =
            min (modulo.border nrCurrent) modulo.upperBound.value := by
        intro inner
        cases nrCurrent with
        | zero => exact absurd rfl inner
        | succ previous => exact iterate_limited modulo previous
      rw [travParts, setPartitionBounds, List.range'_succ, List.map_cons]
      simp only [cache_wrapper_node lag.lower, cache_wrapper_node lag.upper,
        cache_wrapper_node lag.offset]
      congr 1
      · rw [Modulo.part, iterate_offset, upper]
        split_ifs with inner last <;> simp [*]
      · apply ih
        constructor
        · dsimp only
          split
          · exact lags_wrapper nrCurrent
          · exact lag.lower.later
        · dsimp only
          split
          · exact lags_wrapper nrCurrent
          · exact lag.upper.later
        · exact lags_wrapper nrCurrent

theorem shared_offset_partitions_eq (modulo : Modulo) (nrRequired : Nat) :
    sharedOffsetPartitions modulo nrRequired =
      (List.range nrRequired).map (modulo.part nrRequired) := by
  rw [List.range_eq_range', sharedOffsetPartitions]
  apply trav_parts_eq
  constructor <;> intro entry cached <;> cases cached

end Caches

section Geometry

variable {modulo : Modulo}

theorem window_pos (nonzero : modulo.divisor.value ≠ 0) : 0 < modulo.window := by
  rw [Modulo.window]
  omega

/-- The modulo by a negative divisor, from that by a positive one. -/
theorem aplmod_phase (nonzero : modulo.divisor.value ≠ 0) (iv : Int) :
    aplmod (iv + modulo.offset.value) modulo.divisor.value =
      (iv + modulo.phase) % modulo.window +
        (if modulo.divisor.value < 0 then 1 - modulo.window else 0) := by
  have positive := window_pos nonzero
  have low := Int.emod_nonneg (iv + modulo.phase) (ne_of_gt positive)
  have high := Int.emod_lt_of_pos (iv + modulo.phase) positive
  have whole : modulo.window ∣ iv + modulo.phase - (iv + modulo.phase) % modulo.window :=
    Int.dvd_self_sub_emod
  have size : modulo.window = modulo.divisor.value.natAbs := rfl
  have same : modulo.divisor.value ∣ modulo.window := by
    rw [size]
    exact Int.dvd_natAbs_self
  by_cases negative : modulo.divisor.value < 0
  · rw [if_pos negative]
    have phase : modulo.phase = modulo.offset.value - 1 := by
      rw [Modulo.phase, if_pos negative]
    refine (aplmod_eq_iff _ nonzero ?_).mpr (by omega)
    have period := Int.dvd_add (Int.dvd_trans same whole) same
    rw [show iv + modulo.offset.value -
        ((iv + modulo.phase) % modulo.window + (1 - modulo.window)) =
      iv + modulo.phase - (iv + modulo.phase) % modulo.window + modulo.window by omega]
    exact period
  · rw [if_neg negative]
    have phase : modulo.phase = modulo.offset.value := by
      rw [Modulo.phase, if_neg negative, Int.sub_zero]
    refine (aplmod_eq_iff _ nonzero ?_).mpr (by omega)
    rw [Int.add_zero, ← phase]
    exact Int.dvd_trans same whole

theorem border_eq (nonzero : modulo.divisor.value ≠ 0) (k : Nat) :
    modulo.border k = modulo.lowerBound.value -
      (modulo.lowerBound.value + modulo.phase) % modulo.window + k * modulo.window := by
  have size : modulo.window = modulo.divisor.value.natAbs := rfl
  rw [Modulo.border, sopLowerBoundBase, sopNewOffsetBase, aplmod_phase nonzero]
  by_cases negative : modulo.divisor.value < 0
  · simp only [toi, nonzero, negative, beq_iff_eq, bne_iff_ne, ne_eq, not_false_eq_true, if_true,
      if_false, decide_true]
    omega
  · simp only [toi, nonzero, negative, beq_iff_eq, bne_iff_ne, ne_eq, not_false_eq_true, if_true,
      if_false, decide_false, Bool.false_eq_true]
    omega

/-- Within its window and nowhere else an offset gives the modulo. -/
theorem offset_iff (nonzero : modulo.divisor.value ≠ 0) (iv : Int) (k : Nat) :
    iv + (sopNewOffsetBase modulo - k * modulo.window) =
        aplmod (iv + modulo.offset.value) modulo.divisor.value ↔
      modulo.border k ≤ iv ∧ iv < modulo.border (k + 1) := by
  have positive := window_pos nonzero
  have low := Int.emod_nonneg (iv + modulo.phase) (ne_of_gt positive)
  have high := Int.emod_lt_of_pos (iv + modulo.phase) positive
  rw [sopNewOffsetBase, aplmod_phase nonzero, aplmod_phase nonzero, border_succ,
    border_eq nonzero]
  constructor
  · intro same
    omega
  · intro inside
    have split := Int.emod_add_mul_ediv (modulo.lowerBound.value + modulo.phase) modulo.window
    have position : iv - (modulo.lowerBound.value -
          (modulo.lowerBound.value + modulo.phase) % modulo.window + k * modulo.window) +
        modulo.window * ((modulo.lowerBound.value + modulo.phase) / modulo.window + k) =
          iv + modulo.phase := by
      rw [Int.mul_add, Int.mul_comm modulo.window k]
      omega
    have unique := ((Int.ediv_emod_unique positive).mpr ⟨position, by omega, by omega⟩).2
    omega

theorem border_zero_le (nonzero : modulo.divisor.value ≠ 0) :
    modulo.border 0 ≤ modulo.lowerBound.value ∧
      modulo.lowerBound.value < modulo.border 1 := by
  have positive := window_pos nonzero
  have low := Int.emod_nonneg (modulo.lowerBound.value + modulo.phase) (ne_of_gt positive)
  have high := Int.emod_lt_of_pos (modulo.lowerBound.value + modulo.phase) positive
  rw [border_succ, border_eq nonzero]
  omega

/-- Modulo zero there is nothing to cut. -/
theorem border_of_zero (zero : modulo.divisor.value = 0) (k : Nat) :
    modulo.border k = modulo.lowerBound.value := by
  simp [Modulo.border, sopLowerBoundBase, Modulo.window, zero, toi]

theorem lower_le_border {k : Nat} (inner : k ≠ 0) :
    modulo.lowerBound.value ≤ modulo.border k := by
  by_cases zero : modulo.divisor.value = 0
  · rw [border_of_zero zero]
  · exact le_trans (le_of_lt (border_zero_le zero).2)
      (border_mono modulo (Nat.one_le_iff_ne_zero.mpr inner))

theorem contains_part (nrRequired k : Nat) (iv : Int) :
    (modulo.part nrRequired k).Contains iv ↔
      (modulo.lowerBound.value ≤ iv ∧ iv < modulo.upperBound.value) ∧
        (k = 0 ∨ modulo.border k ≤ iv) ∧
        (k + 1 = nrRequired ∨ iv < modulo.border (k + 1)) := by
  have above : k ≠ 0 → modulo.lowerBound.value ≤ modulo.border k := lower_le_border
  rw [Part.Contains, Modulo.part]
  dsimp only
  split_ifs <;> omega

/-- Going up from the first window, some partition is the last one not above `iv`. -/
theorem last_below (modulo : Modulo) (iv : Int) (m : Nat) :
    ∃ k, k ≤ m ∧ (k = 0 ∨ modulo.border k ≤ iv) ∧ (k = m ∨ iv < modulo.border (k + 1)) := by
  induction m with
  | zero => exact ⟨0, le_refl 0, Or.inl rfl, Or.inl rfl⟩
  | succ m ih =>
      obtain ⟨k, bound, below, above⟩ := ih
      by_cases next : modulo.border (m + 1) ≤ iv
      · exact ⟨m + 1, le_refl _, Or.inr next, Or.inl rfl⟩
      · refine ⟨k, Nat.le_succ_of_le bound, below, Or.inr ?_⟩
        rcases above with last | above
        · rw [last]
          exact not_le.mp next
        · exact above

variable {nrRequired : Nat}

theorem partitions_disjoint : (sharedOffsetPartitions modulo nrRequired).Pairwise
    (fun part other => ∀ iv, part.Contains iv → ¬ other.Contains iv) := by
  rw [shared_offset_partitions_eq, List.pairwise_map]
  refine List.pairwise_lt_range.imp_of_mem ?_
  intro j k _ listed before iv first second
  rw [contains_part] at first second
  have ordered := border_mono modulo (by omega : j + 1 ≤ k)
  have bound := List.mem_range.mp listed
  omega

theorem partitions_cover (some : 0 < nrRequired) (iv : Int) :
    (∃ part ∈ sharedOffsetPartitions modulo nrRequired, part.Contains iv) ↔
      modulo.lowerBound.value ≤ iv ∧ iv < modulo.upperBound.value := by
  simp only [shared_offset_partitions_eq, List.mem_map, List.mem_range,
    exists_exists_and_eq_and, contains_part]
  constructor
  · rintro ⟨k, _, inside, _⟩
    exact inside
  · intro inside
    obtain ⟨k, bound, below, above⟩ := last_below modulo iv (nrRequired - 1)
    exact ⟨k, by omega, inside, below, above.imp_left (by omega)⟩

/-- The replacement is right if and only if the counted windows reach the upper bound. -/
theorem replaces_iff_reached (nonzero : modulo.divisor.value ≠ 0) (some : 0 < nrRequired) :
    Replaces modulo (sharedOffsetPartitions modulo nrRequired) ↔
      modulo.upperBound.value ≤ modulo.border nrRequired := by
  have start := border_zero_le nonzero
  constructor
  · intro replaces
    by_contra short
    have first := border_mono modulo (by omega : 1 ≤ nrRequired)
    have last : (modulo.part nrRequired (nrRequired - 1)).Contains
        (modulo.upperBound.value - 1) := by
      have before := border_succ modulo (nrRequired - 1)
      have positive := window_pos nonzero
      rw [Nat.sub_add_cancel some] at before
      rw [contains_part]
      omega
    have member : modulo.part nrRequired (nrRequired - 1) ∈
        sharedOffsetPartitions modulo nrRequired := by
      rw [shared_offset_partitions_eq]
      exact List.mem_map_of_mem (List.mem_range.mpr (by omega))
    have inside := (offset_iff nonzero _ _).mp (replaces.offset _ member _ last)
    rw [Nat.sub_add_cancel some] at inside
    omega
  · intro reached
    refine ⟨partitions_disjoint, partitions_cover some, ?_⟩
    rw [shared_offset_partitions_eq]
    intro part member iv inside
    obtain ⟨k, _, rfl⟩ := List.mem_map.mp member
    obtain ⟨within, below, above⟩ := (contains_part nrRequired k iv).mp inside
    apply (offset_iff nonzero iv k).mpr
    constructor
    · rcases below with first | below
      · rw [first]
        omega
      · exact below
    · rcases above with last | above
      · rw [last]
        omega
      · exact above

theorem replaces_modulo_zero (zero : modulo.divisor.value = 0) (some : 0 < nrRequired) :
    Replaces modulo (sharedOffsetPartitions modulo nrRequired) := by
  refine ⟨partitions_disjoint, partitions_cover some, ?_⟩
  rw [shared_offset_partitions_eq]
  intro part member iv inside
  obtain ⟨k, _, rfl⟩ := List.mem_map.mp member
  simp only [Modulo.part, sopNewOffsetBase, Modulo.window, zero, aplmod_zero]
  simp

end Geometry

section Count

variable {modulo : Modulo}

theorem known_le (modulo : Modulo) :
    nodeToUnsafeInt modulo.lowerBound ≤ modulo.lowerBound.value := by
  have := modulo.lower_nonneg
  rw [nodeToUnsafeInt]
  split <;> omega

theorem known_value {node : Scalar} (known : node.isConstant = true) :
    nodeToUnsafeInt node = node.value :=
  if_pos known

/-- Enough windows have been counted once the quotients of the upper bound are. -/
theorem reached_iff (nonzero : modulo.divisor.value ≠ 0) (count : Nat) :
    modulo.upperBound.value ≤ modulo.border count ↔
      (modulo.upperBound.value - 1 + modulo.phase) / modulo.window -
        (modulo.lowerBound.value + modulo.phase) / modulo.window < count := by
  have positive := window_pos nonzero
  have split := Int.emod_add_mul_ediv (modulo.lowerBound.value + modulo.phase) modulo.window
  rw [Int.sub_lt_iff, Int.ediv_lt_iff_lt_mul positive, Int.add_mul, border_eq nonzero]
  constructor <;> intro bound <;> linarith

theorem phase_window_pos (positive : 0 < modulo.divisor.value) :
    modulo.phase = modulo.offset.value ∧ modulo.window = modulo.divisor.value := by
  rw [Modulo.phase, Modulo.window, if_neg (by omega)]
  omega

theorem phase_window_neg (negative : modulo.divisor.value < 0) :
    modulo.phase = modulo.offset.value - 1 ∧ modulo.window = -modulo.divisor.value := by
  rw [Modulo.phase, Modulo.window, if_pos negative]
  omega

theorem floor_difference (nonzero : modulo.divisor.value ≠ 0) (upper lower : Int) :
    (floorDivide (upper + modulo.offset.value) modulo.divisor.value -
        floorDivide (lower + modulo.offset.value) modulo.divisor.value).natAbs =
      ((upper + modulo.phase) / modulo.window - (lower + modulo.phase) / modulo.window).natAbs := by
  rcases lt_or_gt_of_ne nonzero with negative | positive
  · obtain ⟨phase, window⟩ := phase_window_neg negative
    rw [floor_divide_neg negative, floor_divide_neg negative, phase, window,
      ← Int.add_sub_assoc, ← Int.add_sub_assoc]
    omega
  · obtain ⟨phase, window⟩ := phase_window_pos positive
    rw [floor_divide_pos positive, floor_divide_pos positive, phase, window]

/-- With all constants known the quotients of the outer indices are counted. -/
theorem reached_everything (nonzero : modulo.divisor.value ≠ 0) :
    modulo.upperBound.value ≤ modulo.border (1 +
      (floorDivide (modulo.upperBound.value - 1 + modulo.offset.value) modulo.divisor.value -
        floorDivide (nodeToUnsafeInt modulo.lowerBound + modulo.offset.value)
          modulo.divisor.value).natAbs) := by
  have earlier := Int.ediv_le_ediv (window_pos nonzero)
    (Int.add_le_add_right (known_le modulo) modulo.phase)
  rw [reached_iff nonzero, floor_difference nonzero]
  omega

theorem reached_empty (nonzero : modulo.divisor.value ≠ 0)
    (empty : modulo.upperBound.value ≤ modulo.lowerBound.value) {count : Nat}
    (some : 0 < count) : modulo.upperBound.value ≤ modulo.border count := by
  have start := border_zero_le nonzero
  have first := border_mono modulo (by omega : 1 ≤ count)
  omega

/-- Windows as wide as the upper bound: the second one reaches it. -/
theorem reached_two (nonzero : modulo.divisor.value ≠ 0)
    (wide : modulo.upperBound.value ≤ modulo.window) :
    modulo.upperBound.value ≤ modulo.border 2 := by
  have start := border_zero_le nonzero
  have second : modulo.border 2 = modulo.border 1 + modulo.window := border_succ modulo 1
  have := modulo.lower_nonneg
  omega

/-- If a window begins at zero, the first one is enough. -/
theorem reached_one (nonzero : modulo.divisor.value ≠ 0)
    (wide : modulo.upperBound.value ≤ modulo.window) (aligned : modulo.phase ≤ 0)
    (inside : 0 ≤ modulo.lowerBound.value + modulo.phase) :
    modulo.upperBound.value ≤ modulo.border 1 := by
  have positive := window_pos nonzero
  have split := Int.emod_add_mul_ediv (modulo.lowerBound.value + modulo.phase) modulo.window
  have whole : 0 ≤ modulo.window *
      ((modulo.lowerBound.value + modulo.phase) / modulo.window) :=
    Int.mul_nonneg (le_of_lt positive) (Int.ediv_nonneg inside (le_of_lt positive))
  rw [border_succ, border_eq nonzero]
  omega

/-- A count that does not know the offset is enough for a negative divisor. -/
theorem reached_unknown_neg (negative : modulo.divisor.value < 0)
    (some : modulo.lowerBound.value < modulo.upperBound.value) :
    modulo.upperBound.value ≤ modulo.border (1 + (floorDivide
      (modulo.upperBound.value - 1 - nodeToUnsafeInt modulo.lowerBound)
        modulo.divisor.value).natAbs) := by
  obtain ⟨phase, window⟩ := phase_window_neg negative
  have positive : 0 < modulo.window := by omega
  have known := known_le modulo
  let m := modulo.upperBound.value - 1 - nodeToUnsafeInt modulo.lowerBound
  have size : ((floorDivide m modulo.divisor.value).natAbs : Int) = 1 + (m - 1) / modulo.window := by
    have counted : -1 ≤ (m - 1) / modulo.window :=
      (Int.le_ediv_iff_mul_le positive).mpr (by omega)
    rw [floor_divide_neg negative, ← window]
    omega
  have split := Int.emod_add_mul_ediv (m - 1) modulo.window
  have last := Int.emod_lt_of_pos (m - 1) positive
  have first := Int.emod_lt_of_pos (modulo.lowerBound.value + modulo.phase) positive
  rw [border_eq (ne_of_lt negative), Nat.cast_add, size, Nat.cast_one, Int.add_mul, Int.add_mul,
    Int.one_mul, Int.mul_comm (_ / _) modulo.window]
  omega

theorem reached_unknown_pos (positive : 0 < modulo.divisor.value)
    (some : modulo.lowerBound.value < modulo.upperBound.value) :
    modulo.upperBound.value ≤ modulo.border (1 + (floorDivide
      (modulo.upperBound.value - 1 - nodeToUnsafeInt modulo.lowerBound)
        modulo.divisor.value).natAbs) ↔
    ¬ modulo.divisor.value + (modulo.lowerBound.value - nodeToUnsafeInt modulo.lowerBound) ≤
      (modulo.lowerBound.value + modulo.offset.value) % modulo.divisor.value +
        (modulo.upperBound.value - 1 - nodeToUnsafeInt modulo.lowerBound) %
          modulo.divisor.value := by
  obtain ⟨phase, window⟩ := phase_window_pos positive
  have known := known_le modulo
  have counted : 0 ≤ (modulo.upperBound.value - 1 - nodeToUnsafeInt modulo.lowerBound) /
      modulo.divisor.value := Int.ediv_nonneg (by omega) (by omega)
  have split := Int.emod_add_mul_ediv
    (modulo.upperBound.value - 1 - nodeToUnsafeInt modulo.lowerBound) modulo.divisor.value
  rw [border_eq (ne_of_gt positive), phase, window, floor_divide_pos positive, Nat.cast_add,
    Int.natAbs_of_nonneg counted, Nat.cast_one, Int.add_mul, Int.one_mul,
    Int.mul_comm (_ / _) modulo.divisor.value]
  omega

theorem opposite_bound (opposite : ((modulo.upperBound.isConstant = true ∧
      modulo.divisor.isConstant = true) ∧
        nodeToUnsafeInt modulo.upperBound = -nodeToUnsafeInt modulo.divisor) ∨
      modulo.negationMatches = true) :
    modulo.upperBound.value = -modulo.divisor.value ∧ ¬ Undercounted modulo := by
  rcases opposite with ⟨⟨upper, divisor⟩, opposite⟩ | matched
  · rw [known_value upper, known_value divisor] at opposite
    refine ⟨opposite, ?_⟩
    rintro ⟨-, -, -, -, -, differ, -⟩
    exact differ opposite
  · refine ⟨modulo.negation_matches matched, ?_⟩
    rintro ⟨-, -, -, -, unmatched, -⟩
    exact unmatched matched

theorem reached_iff_counted (dosop : Bool) (nonzero : modulo.divisor.value ≠ 0)
    (some : 0 < modulo.nrPartitions dosop) :
    modulo.upperBound.value ≤ modulo.border (modulo.nrPartitions dosop) ↔
      ¬ Undercounted modulo := by
  by_cases empty : modulo.upperBound.value ≤ modulo.lowerBound.value
  · refine iff_of_true (reached_empty nonzero empty some) ?_
    rintro ⟨-, -, -, -, -, -, -, inside, -⟩
    omega
  · have lower := modulo.lower_nonneg
    have matching := modulo.values_match
    have negated := modulo.negation_matches
    revert some
    rw [Modulo.nrPartitions, determineNrSharedOffsetPartitions]
    simp only [Bool.and_eq_true, Bool.or_eq_true, beq_iff_eq, decide_eq_true_eq, Bool.not_eq_true']
    -- one goal for each branch of determineNrSharedOffsetPartitions
    split_ifs with off zero everything same unshifted opposite shifted ahead unknown
    · exact fun none => absurd none (Nat.lt_irrefl 0)
    · rw [known_value zero.1] at zero
      exact absurd zero.2 nonzero
    · rw [known_value everything.1.1, known_value everything.1.2, known_value everything.2]
      intro _
      refine iff_of_true (reached_everything nonzero) ?_
      rintro ⟨-, -, unknown, -⟩
      exact unknown everything.2
    · have bound := matching same
      have positive : 0 < modulo.divisor.value := by omega
      obtain ⟨phase, window⟩ := phase_window_pos positive
      rw [known_value unshifted.1] at unshifted
      intro _
      refine iff_of_true (reached_one nonzero (by omega) (by omega) (by omega)) ?_
      exact fun under => under.2.2.2.1 same
    · have bound := matching same
      have positive : 0 < modulo.divisor.value := by omega
      obtain ⟨phase, window⟩ := phase_window_pos positive
      intro _
      refine iff_of_true (reached_two nonzero (by omega)) ?_
      exact fun under => under.2.2.2.1 same
    · obtain ⟨bound, counted⟩ := opposite_bound opposite
      obtain ⟨phase, window⟩ := phase_window_neg (by omega : modulo.divisor.value < 0)
      rw [known_value shifted.1] at shifted
      intro _
      exact iff_of_true (reached_one nonzero (by omega) (by omega) (by omega)) counted
    · obtain ⟨bound, counted⟩ := opposite_bound opposite
      obtain ⟨phase, window⟩ := phase_window_neg (by omega : modulo.divisor.value < 0)
      have known := known_le modulo
      rw [known_value ahead.1.1] at ahead
      intro _
      exact iff_of_true (reached_one nonzero (by omega) (by omega) (by omega)) counted
    · obtain ⟨bound, counted⟩ := opposite_bound opposite
      obtain ⟨phase, window⟩ := phase_window_neg (by omega : modulo.divisor.value < 0)
      intro _
      exact iff_of_true (reached_two nonzero (by omega)) counted
    · rw [known_value unknown.1, known_value unknown.2]
      rw [not_or] at opposite
      have differ : modulo.upperBound.value ≠ -modulo.divisor.value := by
        intro mirrored
        apply opposite.1
        rw [known_value unknown.1, known_value unknown.2]
        exact ⟨unknown, mirrored⟩
      intro _
      rcases lt_or_gt_of_ne nonzero with negative | positive
      · refine iff_of_true (reached_unknown_neg negative (by omega)) ?_
        rintro ⟨-, -, -, -, -, -, positive, -⟩
        omega
      · rw [reached_unknown_pos positive (by omega)]
        apply not_congr
        constructor
        · intro carries
          exact ⟨unknown.1, unknown.2, fun offset => everything ⟨unknown, offset⟩, same,
            opposite.2, differ, positive, by omega, carries⟩
        · exact fun under => under.2.2.2.2.2.2.2.2
    · exact fun none => absurd none (Nat.lt_irrefl 0)

end Count

/-- The shared offset method is right unless the windows of an unknown offset are undercounted. -/
theorem replaces_iff_counted (dosop : Bool) (modulo : Modulo) :
    (0 < modulo.nrPartitions dosop →
      Replaces modulo (sharedOffsetPartitions modulo (modulo.nrPartitions dosop))) ↔
    ¬ (dosop = true ∧ Undercounted modulo) := by
  by_cases some : 0 < modulo.nrPartitions dosop
  · have enabled : dosop = true := by
      by_contra off
      rw [eq_false_of_ne_true off] at some
      exact Nat.lt_irrefl 0 some
    rw [imp_iff_right some, and_iff_right enabled]
    by_cases zero : modulo.divisor.value = 0
    · refine iff_of_true (replaces_modulo_zero zero some) ?_
      rintro ⟨-, -, -, -, -, -, positive, -⟩
      omega
    · rw [replaces_iff_reached zero some, reached_iff_counted dosop zero some]
  · refine iff_of_true (fun counted => absurd counted some) ?_
    rintro ⟨enabled, upper, divisor, -⟩
    apply some
    rw [Modulo.nrPartitions, determineNrSharedOffsetPartitions, enabled, upper, divisor]
    split_ifs <;> first | contradiction | omega

/-- `aplmod (iv + c, 5)` in `0 <= iv < 2`, where `c` is 4 at run time. -/
def unknownFour : Modulo where
  lowerBound := ⟨0, true⟩
  upperBound := ⟨2, true⟩
  offset := ⟨4, false⟩
  divisor := ⟨5, true⟩
  valuesMatch := false
  negationMatches := false
  lower_nonneg := by decide
  values_match := by decide
  negation_matches := by decide

/-- One partition is counted, and its offset gives 5 for the index 1. -/
theorem replaces_undercounted : 0 < unknownFour.nrPartitions true ∧
    ¬ Replaces unknownFour
      (sharedOffsetPartitions unknownFour (unknownFour.nrPartitions true)) := by
  refine ⟨by decide, ?_⟩
  intro replaces
  have listed : sharedOffsetPartitions unknownFour (unknownFour.nrPartitions true) =
      [⟨0, 2, 4⟩] := by rfl
  have wrong := replaces.offset ⟨0, 2, 4⟩ (by simp [listed]) 1 ⟨by decide, by decide⟩
  exact absurd wrong (by decide)

end Sac2c.ModuloPartitioning
