import Mathlib.Data.Int.ModEq
import Mathlib.Tactic.Common

/-!
Sets of integers that consist of runs of one width, which start at the multiples of a
period behind a first element and are cut off at an end. A set has one description in
which no period is superfluous and the end lies where an element would be.
-/

namespace Sac2c.RunSets

structure RunSet where
  first : Int
  width : Int
  period : Int
  stop : Int
  deriving DecidableEq

namespace RunSet

def Has (r : RunSet) (i : Int) : Prop :=
  r.first ≤ i ∧ i < r.stop ∧ (i - r.first) % r.period < r.width

/-- The set is not empty. -/
structure Proper (r : RunSet) : Prop where
  wide : 0 < r.width
  fits : r.width ≤ r.period
  some : r.first < r.stop

/-- The one description of the set: a single run has period 1, and else there are at least
two runs with gaps; the end is where an element of the set would be. -/
structure Reduced (r : RunSet) : Prop where
  shape : (r.width = 1 ∧ r.period = 1 ∧ r.first < r.stop) ∨
    (0 < r.width ∧ r.width < r.period ∧ r.first + r.period < r.stop)
  ends : (r.stop - r.first) % r.period < r.width

end RunSet

section Elements

variable {r s : RunSet}

theorem proper_positive (proper : r.Proper) : 0 < r.period := by
  have := proper.wide
  have := proper.fits
  omega

theorem reduced_proper (reduced : r.Reduced) : r.Proper := by
  rcases reduced.shape with ⟨width, period, more⟩ | ⟨wide, gap, more⟩
  · exact ⟨by omega, by omega, more⟩
  · exact ⟨wide, by omega, by omega⟩

theorem has_first (proper : r.Proper) : r.Has r.first := by
  have wide := proper.wide
  refine ⟨Int.le_refl _, proper.some, ?_⟩
  simpa using wide

theorem first_le (proper : r.Proper) (same : ∀ i, r.Has i ↔ s.Has i) : s.first ≤ r.first :=
  ((same _).mp (has_first proper)).1

/-- The places of the first period. -/
theorem has_within {offset : Int} (lower : 0 ≤ offset) (upper : offset < r.period) :
    r.Has (r.first + offset) ↔ r.first + offset < r.stop ∧ offset < r.width := by
  have place : (r.first + offset - r.first) % r.period = offset := by
    rw [show r.first + offset - r.first = offset by omega]
    exact Int.emod_eq_of_lt lower upper
  simp only [RunSet.Has, place]
  omega

/-- The second run. -/
theorem has_second (proper : r.Proper) (more : r.first + r.period < r.stop) :
    r.Has (r.first + r.period) := by
  have wide := proper.wide
  have positive := proper_positive proper
  refine ⟨by omega, more, ?_⟩
  rw [show r.first + r.period - r.first = r.period by omega, Int.emod_self]
  exact wide

/-- The place behind the last element. -/
def RunSet.rear (r : RunSet) : Int :=
  r.stop - max 0 ((r.stop - r.first - 1) % r.period + 1 - r.width)

theorem has_rear (proper : r.Proper) : r.Has (r.rear - 1) := by
  have positive := proper_positive proper
  obtain ⟨wide, fits, some⟩ := proper
  have rest := Int.emod_nonneg (r.stop - r.first - 1) positive.ne'
  have division := Int.mul_ediv_add_emod (r.stop - r.first - 1) r.period
  have periods : 0 ≤ r.period * ((r.stop - r.first - 1) / r.period) :=
    Int.mul_nonneg positive.le (Int.ediv_nonneg (by omega) positive.le)
  by_cases inside : (r.stop - r.first - 1) % r.period < r.width
  · have last : r.rear - 1 - r.first = r.stop - r.first - 1 := by
      simp only [RunSet.rear]
      omega
    refine ⟨by omega, by omega, ?_⟩
    rw [last]
    exact inside
  · -- the end lies in a gap, and the last run before it is whole
    have last : r.rear - 1 - r.first =
        r.width - 1 + r.period * ((r.stop - r.first - 1) / r.period) := by
      simp only [RunSet.rear]
      omega
    refine ⟨by omega, by simp only [RunSet.rear]; omega, ?_⟩
    rw [last, Int.add_mul_emod_self_left, Int.emod_eq_of_lt (by omega) (by omega)]
    omega

end Elements

section Meeting

variable {r s : RunSet}

/-- A set has a period also before an element, down to its first one. -/
theorem has_earlier {i j : Int} (has : r.Has i) (before : j ≤ i) (above : r.first ≤ j)
    (periods : r.period ∣ i - j) : r.Has j := by
  obtain ⟨_, below, inside⟩ := has
  refine ⟨above, by omega, ?_⟩
  have same : (j - r.first) % r.period = (i - r.first) % r.period := by
    refine (Int.emod_eq_emod_iff_emod_sub_eq_zero.mpr (Int.emod_eq_zero_of_dvd ?_)).symm
    rwa [show i - r.first - (j - r.first) = i - j by omega]
  rw [same]
  exact inside

/-- Two sets that meet do so within one common period from the larger first element on. -/
theorem meets_early {common : Int} (positive : 0 < common) (whole : r.period ∣ common)
    (whole' : s.period ∣ common) {i : Int} (has : r.Has i) (has' : s.Has i) :
    ∃ j, max r.first s.first ≤ j ∧ j < max r.first s.first + common ∧ r.Has j ∧ s.Has j := by
  have lower := has.1
  have lower' := has'.1
  have rest := Int.emod_nonneg (i - max r.first s.first) positive.ne'
  have rest_lt := Int.emod_lt_of_pos (i - max r.first s.first) positive
  have less : (i - max r.first s.first) % common ≤ i - max r.first s.first := by
    have division := Int.mul_ediv_add_emod (i - max r.first s.first) common
    have periods : 0 ≤ common * ((i - max r.first s.first) / common) :=
      Int.mul_nonneg positive.le (Int.ediv_nonneg (by omega) positive.le)
    omega
  have periods : common ∣
      i - (max r.first s.first + (i - max r.first s.first) % common) := by
    rw [← Int.sub_sub]
    exact Int.dvd_self_sub_emod
  exact ⟨max r.first s.first + (i - max r.first s.first) % common, by omega, by omega,
    has_earlier has (by omega) (by omega) (whole.trans periods),
    has_earlier has' (by omega) (by omega) (whole'.trans periods)⟩

end Meeting

section Filling

/-- An end in a gap is moved to the end of the gap. -/
def RunSet.filled (r : RunSet) : RunSet :=
  { r with
    stop :=
      if (r.stop - r.first) % r.period ≥ r.width then
        r.stop + r.period - (r.stop - r.first) % r.period
      else r.stop }

variable {r : RunSet}

theorem stop_le_filled (proper : r.Proper) : r.stop ≤ r.filled.stop := by
  have less := Int.emod_lt_of_pos (r.stop - r.first) (proper_positive proper)
  simp only [RunSet.filled]
  split <;> omega

theorem filled_ends (proper : r.Proper) :
    (r.filled.stop - r.filled.first) % r.filled.period < r.filled.width := by
  have wide := proper.wide
  simp only [RunSet.filled]
  split
  · have division := Int.emod_add_mul_ediv (r.stop - r.first) r.period
    have whole : r.stop + r.period - (r.stop - r.first) % r.period - r.first =
        r.period * ((r.stop - r.first) / r.period + 1) := by
      rw [Int.mul_add]
      omega
    rw [whole, Int.mul_emod_right]
    exact wide
  · omega

/-- There is nothing in the gap. -/
theorem has_filled (proper : r.Proper) (i : Int) : r.filled.Has i ↔ r.Has i := by
  have positive := proper_positive proper
  have more := proper.some
  have lower := Int.emod_nonneg (r.stop - r.first) positive.ne'
  have later := stop_le_filled proper
  simp only [RunSet.Has, RunSet.filled] at later ⊢
  refine and_congr_right fun above => ⟨?_, fun inside => ⟨by omega, inside.2⟩⟩
  rintro ⟨below, inside⟩
  refine ⟨?_, inside⟩
  by_cases ends : (r.stop - r.first) % r.period ≥ r.width
  · rw [if_pos ends] at below
    by_contra after
    have place : (i - r.first) % r.period = (r.stop - r.first) % r.period + (i - r.stop) := by
      have split : i - r.first = r.stop - r.first + (i - r.stop) := by omega
      rw [split, ← Int.emod_add_emod]
      exact Int.emod_eq_of_lt (by omega) (by omega)
    omega
  · rwa [if_neg ends] at below

end Filling

section Uniqueness

variable {r s : RunSet}

/-- A set with gaps is not one run. -/
theorem gap_not_run (reduced : r.Reduced) (gap : r.width < r.period)
    (run : s.width = 1 ∧ s.period = 1) (same : ∀ i, r.Has i ↔ s.Has i) : False := by
  have proper := reduced_proper reduced
  have wide := proper.wide
  have more : r.first + r.period < r.stop := by
    rcases reduced.shape with ⟨width, period, _⟩ | ⟨_, _, more⟩
    · omega
    · exact more
  have second := (same _).mp (has_second proper more)
  have gap_open : ¬ r.Has (r.first + r.width) := by
    rw [has_within (by omega) gap]
    omega
  refine gap_open ((same _).mpr ⟨?_, ?_, ?_⟩)
  · have := ((same _).mp (has_first proper)).1
    omega
  · have := second.2.1
    omega
  · rw [run.1, run.2, Int.emod_one]
    decide

theorem width_le (reduced : r.Reduced) (other : s.Reduced) (gaps : r.width < r.period)
    (gaps' : s.width < s.period) (firsts : r.first = s.first)
    (same : ∀ i, r.Has i ↔ s.Has i) : s.width ≤ r.width := by
  have proper := reduced_proper reduced
  have wide := proper.wide
  by_contra wider
  have more : s.first + s.period < s.stop := by
    rcases other.shape with ⟨width, period, _⟩ | ⟨_, _, more⟩
    · omega
    · exact more
  have inside : s.Has (s.first + r.width) := (has_within (by omega) (by omega)).mpr (by omega)
  rw [← firsts, ← same, has_within (by omega) gaps] at inside
  omega

theorem period_le (reduced : r.Reduced) (gaps : r.width < r.period)
    (firsts : r.first = s.first) (widths : r.width = s.width)
    (same : ∀ i, r.Has i ↔ s.Has i) : s.period ≤ r.period := by
  have proper := reduced_proper reduced
  have wide := proper.wide
  by_contra longer
  have more : r.first + r.period < r.stop := by
    rcases reduced.shape with ⟨width, period, _⟩ | ⟨_, _, more⟩
    · omega
    · exact more
  have second := (same _).mp (has_second proper more)
  rw [firsts, has_within (by omega) (by omega)] at second
  omega

theorem stop_le (reduced : r.Reduced) (firsts : r.first = s.first) (widths : r.width = s.width)
    (periods : r.period = s.period) (same : ∀ i, r.Has i ↔ s.Has i) : s.stop ≤ r.stop := by
  have some := (reduced_proper reduced).some
  by_contra later
  have element : s.Has r.stop := by
    refine ⟨by omega, by omega, ?_⟩
    rw [← firsts, ← widths, ← periods]
    exact reduced.ends
  have := ((same _).mpr element).2.1
  omega

theorem reduced_unique (reduced : r.Reduced) (other : s.Reduced)
    (same : ∀ i, r.Has i ↔ s.Has i) : r = s := by
  have back : ∀ i, s.Has i ↔ r.Has i := fun i => (same i).symm
  have firsts : r.first = s.first :=
    Int.le_antisymm (first_le (reduced_proper other) back) (first_le (reduced_proper reduced) same)
  have widths_periods : r.width = s.width ∧ r.period = s.period := by
    rcases reduced.shape with ⟨width, period, _⟩ | ⟨_, gaps, _⟩
    · rcases other.shape with ⟨width', period', _⟩ | ⟨_, gaps', _⟩
      · exact ⟨by omega, by omega⟩
      · exact (gap_not_run other gaps' ⟨width, period⟩ back).elim
    · rcases other.shape with ⟨width', period', _⟩ | ⟨_, gaps', _⟩
      · exact (gap_not_run reduced gaps ⟨width', period'⟩ same).elim
      · have widths : r.width = s.width :=
          Int.le_antisymm (width_le other reduced gaps' gaps firsts.symm back)
            (width_le reduced other gaps gaps' firsts same)
        exact ⟨widths, Int.le_antisymm (period_le other gaps' firsts.symm widths.symm back)
          (period_le reduced gaps firsts widths same)⟩
  obtain ⟨widths, periods⟩ := widths_periods
  have stops : r.stop = s.stop :=
    Int.le_antisymm (stop_le other firsts.symm widths.symm periods.symm back)
      (stop_le reduced firsts widths periods same)
  cases r
  cases s
  simp_all

end Uniqueness

end Sac2c.RunSets
