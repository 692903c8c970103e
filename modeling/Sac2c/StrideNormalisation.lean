import Sac2c.RunSets

/-!
NormalizeStride1 of wltransform/wltransform.c, which gives a constant stride of one
dimension an unambiguous form with an outline as large as possible.
-/

namespace Sac2c.StrideNormalisation

open RunSets

section Model

/-- The attribute values of a constant stride and of its only grid in one dimension. -/
structure Stride1 where
  bound1 : Int
  bound2 : Int
  step : Int
  gridB1 : Int
  gridB2 : Int
  deriving DecidableEq, Repr

/-- The assertions of CheckStride. -/
def checkStride (s : Stride1) (shouldBeNonEmpty : Bool) : Bool :=
  0 ≤ s.bound1 && (!shouldBeNonEmpty || s.bound1 < s.bound2) && 0 < s.step && 0 ≤ s.gridB1 &&
    s.gridB1 < s.gridB2 && s.gridB2 ≤ s.step

/-- A stride of a single run becomes dense. -/
def makeDense (s : Stride1) : Stride1 :=
  if s.bound2 - s.bound1 - s.gridB1 ≤ s.step then
    { bound1 := s.bound1 + s.gridB1
      bound2 := min s.bound2 (s.bound1 + s.gridB2)
      step := 1
      gridB1 := 0
      gridB2 := 1 }
  else s

/-- width < step or width = step = 1 -/
def makeNarrow (s : Stride1) : Stride1 :=
  let gridB2 := if s.gridB2 > s.step then s.step else s.gridB2
  if s.step > 1 ∧ s.gridB1 = 0 ∧ gridB2 = s.step then { s with step := 1, gridB2 := 1 }
  else { s with gridB2 := gridB2 }

/-- The minimum for bound1 and the maximum for bound2. -/
def maximizeOutline (s : Stride1) : Stride1 :=
  let newBound1 := max 0 (s.bound1 - (s.step - s.gridB2))
  let newBound2 :=
    if (s.bound2 - s.bound1 - s.gridB1).tmod s.step ≥ s.gridB2 - s.gridB1 then
      s.bound2 + s.step - (s.bound2 - s.bound1 - s.gridB1).tmod s.step
    else s.bound2
  { bound1 := newBound1
    bound2 := newBound2
    step := s.step
    gridB1 := s.gridB1 + (s.bound1 - newBound1)
    gridB2 := s.gridB2 + (s.bound1 - newBound1) }

/-- NormalizeStride1; none if an assertion fails. -/
def normalizeStride1 (s : Stride1) : Option Stride1 :=
  if checkStride s true then
    let dense := makeNarrow (makeDense s)
    if checkStride dense true then some (maximizeOutline dense) else none
  else none

end Model

section Meaning

/-- The elements of the index set. -/
def Indexes (s : Stride1) (i : Int) : Prop :=
  s.bound1 ≤ i ∧ i < s.bound2 ∧
    s.gridB1 ≤ (i - s.bound1) % s.step ∧ (i - s.bound1) % s.step < s.gridB2

structure Legal (s : Stride1) : Prop where
  lower : 0 ≤ s.bound1
  some : s.bound1 + s.gridB1 < s.bound2
  grid : 0 ≤ s.gridB1
  wide : s.gridB1 < s.gridB2
  fits : s.gridB2 ≤ s.step

def runs (s : Stride1) : RunSet where
  first := s.bound1 + s.gridB1
  width := s.gridB2 - s.gridB1
  period := s.step
  stop := s.bound2

/-- The form that NormalizeStride1 gives. -/
structure Normal (s : Stride1) : Prop where
  legal : Legal s
  reduced : (runs s).Reduced
  least : s.bound1 = max 0 (s.bound1 - (s.step - s.gridB2))

variable {s t : Stride1}

theorem runs_proper (legal : Legal s) : (runs s).Proper := by
  have wide := legal.wide
  have fits := legal.fits
  have grid := legal.grid
  exact ⟨by simp only [runs]; omega, by simp only [runs]; omega, legal.some⟩

theorem step_positive (legal : Legal s) : 0 < s.step := proper_positive (runs_proper legal)

/-- The index set consists of runs, also if it is empty. -/
theorem grid_runs (grid : 0 ≤ s.gridB1) (wide : s.gridB1 < s.gridB2) (fits : s.gridB2 ≤ s.step)
    (i : Int) : Indexes s i ↔ (runs s).Has i := by
  have positive : 0 < s.step := by omega
  have small : s.gridB1 % s.step = s.gridB1 := Int.emod_eq_of_lt grid (by omega)
  have old := Int.emod_nonneg (i - s.bound1) positive.ne'
  have old_lt := Int.emod_lt_of_pos (i - s.bound1) positive
  have split : i - (s.bound1 + s.gridB1) = i - s.bound1 - s.gridB1 := by omega
  have moved : (i - (s.bound1 + s.gridB1)) % s.step =
      if s.gridB1 ≤ (i - s.bound1) % s.step then (i - s.bound1) % s.step - s.gridB1
      else (i - s.bound1) % s.step - s.gridB1 + s.step := by
    rw [split, Int.sub_emod, small]
    split
    · exact Int.emod_eq_of_lt (by omega) (by omega)
    · rw [← Int.add_emod_right]
      exact Int.emod_eq_of_lt (by omega) (by omega)
  simp only [Indexes, RunSet.Has, runs, moved]
  constructor
  · rintro ⟨above, below, late, early⟩
    have reached : s.bound1 + s.gridB1 ≤ i := by
      by_contra before
      rw [Int.emod_eq_of_lt (by omega) (by omega)] at late
      omega
    rw [if_pos late]
    omega
  · rintro ⟨above, below, inside⟩
    split at inside
    · omega
    · omega

theorem indexes_iff (legal : Legal s) (i : Int) : Indexes s i ↔ (runs s).Has i :=
  grid_runs legal.grid legal.wide legal.fits i

/-- A normal form is determined by its index set. -/
theorem normal_unique (normal : Normal s) (other : Normal t)
    (same : ∀ i, Indexes s i ↔ Indexes t i) : s = t := by
  have equal : runs s = runs t := by
    refine reduced_unique normal.reduced other.reduced fun i => ?_
    rw [← indexes_iff normal.legal, ← indexes_iff other.legal]
    exact same i
  simp only [runs, RunSet.mk.injEq] at equal
  have least := normal.least
  have least' := other.least
  cases s
  cases t
  simp only [Stride1.mk.injEq]
  simp only at equal least least'
  omega

end Meaning

section Steps

variable {s : Stride1}

theorem check_legal (legal : Legal s) : checkStride s true = true := by
  have positive := step_positive legal
  obtain ⟨lower, some, grid, wide, fits⟩ := legal
  have more : s.bound1 < s.bound2 := by omega
  simp [checkStride, lower, more, positive, grid, wide, fits]

/-- A stride of more than one run, unless its step is 1. -/
theorem dense_spec (legal : Legal s) :
    Legal (makeDense s) ∧
      ((makeDense s).step = 1 ∨
        (makeDense s).bound1 + (makeDense s).gridB1 + (makeDense s).step < (makeDense s).bound2) ∧
      ∀ i, (runs (makeDense s)).Has i ↔ (runs s).Has i := by
  have positive := step_positive legal
  obtain ⟨lower, some, grid, wide, fits⟩ := legal
  simp only [makeDense]
  split
  · refine ⟨by constructor <;> dsimp only <;> omega, .inl rfl, fun i => ?_⟩
    simp only [RunSet.Has, runs, Int.emod_one]
    -- all elements lie in the first period
    have place (above : s.bound1 + s.gridB1 ≤ i) (below : i < s.bound2) :
        (i - (s.bound1 + s.gridB1)) % s.step = i - (s.bound1 + s.gridB1) :=
      Int.emod_eq_of_lt (by omega) (by omega)
    constructor
    · rintro ⟨above, below, _⟩
      rw [place (by omega) (by omega)]
      omega
    · rintro ⟨above, below, inside⟩
      rw [place above below] at inside
      omega
  · exact ⟨⟨lower, some, grid, wide, fits⟩, .inr (by omega), fun _ => Iff.rfl⟩

/-- A run with period 1, or at least two runs with gaps. -/
def Shaped (s : Stride1) : Prop :=
  (s.step = 1 ∧ s.gridB1 = 0 ∧ s.gridB2 = 1) ∨
    (s.gridB2 - s.gridB1 < s.step ∧ s.bound1 + s.gridB1 + s.step < s.bound2)

theorem narrow_spec (legal : Legal s)
    (several : s.step = 1 ∨ s.bound1 + s.gridB1 + s.step < s.bound2) :
    Legal (makeNarrow s) ∧ Shaped (makeNarrow s) ∧
      ∀ i, (runs (makeNarrow s)).Has i ↔ (runs s).Has i := by
  have positive := step_positive legal
  obtain ⟨lower, some, grid, wide, fits⟩ := legal
  have inside : ¬ s.gridB2 > s.step := by omega
  simp only [makeNarrow, if_neg inside]
  split
  · rename_i full
    refine ⟨by constructor <;> dsimp only <;> omega, .inl ⟨rfl, full.2.1, rfl⟩, fun i => ?_⟩
    have below := Int.emod_lt_of_pos (i - (s.bound1 + s.gridB1)) positive
    simp only [RunSet.Has, runs, Int.emod_one]
    omega
  · refine ⟨⟨lower, some, grid, wide, fits⟩, ?_, fun _ => Iff.rfl⟩
    simp only [Shaped]
    omega

theorem outline_spec (legal : Legal s) (shaped : Shaped s) :
    Normal (maximizeOutline s) ∧ ∀ i, (runs (maximizeOutline s)).Has i ↔ (runs s).Has i := by
  have proper := runs_proper legal
  have later : s.bound2 ≤ (runs s).filled.stop := stop_le_filled proper
  obtain ⟨lower, some, grid, wide, fits⟩ := legal
  have length : s.bound2 - (s.bound1 + s.gridB1) = s.bound2 - s.bound1 - s.gridB1 := by omega
  -- the grid is moved back as far as the lower bound
  have moved : runs (maximizeOutline s) = (runs s).filled := by
    simp only [runs, maximizeOutline, RunSet.filled, length,
      Int.tmod_eq_emod_of_nonneg (by omega : 0 ≤ s.bound2 - s.bound1 - s.gridB1)]
    simp only [RunSet.mk.injEq, and_true]
    omega
  have stop : (maximizeOutline s).bound2 = (runs s).filled.stop := congrArg RunSet.stop moved
  refine ⟨⟨?_, ?_, ?_⟩, fun i => by rw [moved, has_filled proper]⟩
  · constructor <;> try simp only [stop]
    all_goals
      simp only [maximizeOutline]
      omega
  · rw [moved]
    simp only [Shaped] at shaped
    refine ⟨?_, filled_ends proper⟩
    simp only [RunSet.filled, runs] at later ⊢
    omega
  · simp only [maximizeOutline]
    omega

theorem narrow_pattern (fits : s.gridB2 ≤ s.step) :
    (makeNarrow s).step = 1 ∨ makeNarrow s = s := by
  simp only [makeNarrow, if_neg (by omega : ¬ s.gridB2 > s.step)]
  split
  · exact .inl rfl
  · exact .inr rfl

/-- A stride that does not get the step 1 keeps its runs. -/
theorem outline_pattern (legal : Legal s) :
    (maximizeOutline (makeNarrow (makeDense s))).step = 1 ∨
      (maximizeOutline (makeNarrow (makeDense s))).step = s.step ∧
      (maximizeOutline (makeNarrow (makeDense s))).gridB2 -
        (maximizeOutline (makeNarrow (makeDense s))).gridB1 = s.gridB2 - s.gridB1 ∧
      (maximizeOutline (makeNarrow (makeDense s))).bound1 +
        (maximizeOutline (makeNarrow (makeDense s))).gridB1 = s.bound1 + s.gridB1 := by
  have dense : (makeDense s).step = 1 ∨ makeDense s = s := by
    simp only [makeDense]
    split
    · exact .inl rfl
    · exact .inr rfl
  have narrow := narrow_pattern (dense_spec legal).1.fits
  simp only [maximizeOutline]
  rcases narrow with one | same
  · exact .inl one
  · rw [same]
    rcases dense with one | same
    · exact .inl one
    · rw [same]
      omega

end Steps

section Canonicity

/-- A stride that NormalizeStride1 may be given. -/
structure LegalStride where
  stride : Stride1
  legal : Legal stride

theorem normalize_spec {s : Stride1} (legal : Legal s) :
    ∃ t, normalizeStride1 s = some t ∧ Normal t ∧ ∀ i, Indexes t i ↔ Indexes s i := by
  obtain ⟨dense_legal, several, dense_same⟩ := dense_spec legal
  obtain ⟨narrow_legal, shaped, narrow_same⟩ := narrow_spec dense_legal several
  obtain ⟨normal, same⟩ := outline_spec narrow_legal shaped
  refine ⟨_, ?_, normal, fun i => ?_⟩
  · simp only [normalizeStride1, check_legal legal, check_legal narrow_legal, ↓reduceIte]
  · rw [indexes_iff normal.legal, indexes_iff legal, same, narrow_same, dense_same]

theorem normalize_normal {s : Stride1} (normal : Normal s) : normalizeStride1 s = some s := by
  obtain ⟨t, done, other, same⟩ := normalize_spec normal.legal
  rw [done, normal_unique other normal same]

theorem normalize_pattern {s t : Stride1} (legal : Legal s) (done : normalizeStride1 s = some t) :
    t.step = 1 ∨ t.step = s.step ∧ t.gridB2 - t.gridB1 = s.gridB2 - s.gridB1 ∧
      t.bound1 + t.gridB1 = s.bound1 + s.gridB1 := by
  have narrow := (narrow_spec (dense_spec legal).1 (dense_spec legal).2.1).1
  simp only [normalizeStride1, check_legal legal, check_legal narrow, ↓reduceIte,
    Option.some.injEq] at done
  rw [← done]
  exact outline_pattern legal

example : normalizeStride1 ⟨3, 11, 5, 1, 3⟩ = some ⟨1, 14, 5, 3, 5⟩ := by decide

end Canonicity


end Sac2c.StrideNormalisation
