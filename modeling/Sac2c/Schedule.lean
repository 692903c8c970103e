import Mathlib.Data.List.Range
import Sac2c.Cuts

/-!
The scheduling macros of runtime/mt_h/schedule.h that divide one dimension of a
with-loop segment among threads or tasks, and the stride-loop headers of
runtime/essentials_h/wl.h that run over such a part. The C type int is read as
`Int` (signed overflow is undefined there); `/` and `%` truncate as in C.
-/

namespace Sac2c.Schedule

/-- SAC_WL_MT_SCHEDULE_START( dim) and SAC_WL_MT_SCHEDULE_STOP( dim) of one thread. -/
structure Part where
  start : Int
  stop : Int
deriving DecidableEq, Repr

def Part.Holds (part : Part) (index : Int) : Prop :=
  part.start ≤ index ∧ index < part.stop

instance (part : Part) (index : Int) : Decidable (part.Holds index) :=
  inferInstanceAs (Decidable (_ ∧ _))

/-- SAC_MT_SCHEDULER_Block_DIM0: the part of the thread `selfLocalId`. -/
def blockDim0 (lower upper unrolling localThreads selfLocalId : Int) : Part :=
  let iterations := (upper - lower).tdiv unrolling
  let iterationsPerThread := iterations.tdiv localThreads * unrolling
  let iterationsRest := iterations.tmod localThreads
  if iterationsRest ≠ 0 ∧ selfLocalId < iterationsRest then
    let start := lower + selfLocalId * (iterationsPerThread + unrolling)
    { start := start, stop := start + (iterationsPerThread + unrolling) }
  else
    let start := (lower + iterationsRest * unrolling) + selfLocalId * iterationsPerThread
    { start := start, stop := start + iterationsPerThread }

/-- SAC_MT_SCHEDULER_TS_Even: `worktodo` and the part of the task `taskid`. -/
def tsEven (lower upper unrolling numTasks localThreads taskid : Int) : Bool × Part :=
  let numberOfTasks := numTasks * localThreads
  let iterations := (upper - lower).tdiv unrolling
  let iterationsPerThread := iterations.tdiv numberOfTasks * unrolling
  let iterationsRest := iterations.tmod numberOfTasks
  if taskid < numberOfTasks then
    if iterationsRest ≠ 0 ∧ taskid < iterationsRest then
      let start := lower + (iterationsPerThread + unrolling) * taskid
      (true, { start := start, stop := start + iterationsPerThread + unrolling })
    else
      let start := (lower + iterationsRest * unrolling) + taskid * iterationsPerThread
      (true, { start := start, stop := start + iterationsPerThread })
  else (false, { start := 0, stop := 0 })

/-- SAC_MT_ADJUST_SCHEDULER_BOUND: the pair of `diff` and the moved `bound`. -/
def adjustSchedulerBound (bound lower upper unrolling : Int) : Int × Int :=
  if lower < bound ∧ bound < upper then
    let diff := (bound - lower).tmod unrolling
    if diff ≠ 0 then
      let diff := unrolling - diff
      if upper ≤ bound + diff then (upper - bound, upper) else (diff, bound + diff)
    else (diff, bound)
  else (0, bound)

/-- SAC_MT_ADJUST_SCHEDULER__BEGIN: both bounds of a thread's part. -/
def adjustScheduler (part : Part) (lower upper unrolling : Int) : Part :=
  { start := (adjustSchedulerBound part.start lower upper unrolling).2
    stop := (adjustSchedulerBound part.stop lower upper unrolling).2 }

/-- One pass through the body of a stride loop: the grids of the body advance the
index from `first` to `last`. -/
structure Period where
  first : Int
  last : Int
deriving DecidableEq, Repr

/-- The loop `for (idx = ...; idx < stop;)`. The fitting grid loops of its body
move `idx` by `step`, but never past `stop`. -/
def strideLoopFuel : Nat → Int → Int → Int → List Period
  | 0, _, _, _ => []
  | fuel + 1, idx, stop, step =>
      if idx < stop then
        let next := min (idx + step) stop
        { first := idx, last := next } :: strideLoopFuel fuel next stop step
      else []

def strideLoop (idx stop step : Int) : List Period :=
  strideLoopFuel (stop - idx).toNat idx stop step

/-- SAC_WL_STRIDE_LOOP0_BEGIN. -/
def strideLoop0 (bnd1 bnd2 step : Int) : List Period :=
  strideLoop bnd1 bnd2 step

/-- SAC_WL_MT_STRIDE_LOOP0_BEGIN. -/
def mtStrideLoop0 (part : Part) (bnd1 bnd2 step : Int) : List Period :=
  strideLoop (max bnd1 part.start) (min bnd2 part.stop) step

-- With a positive step each pass moves the index, so the distance to `stop` is
-- fuel enough and more fuel changes nothing.
theorem stride_loop_fuel (fuel : Nat) (idx stop step : Int) (forward : 1 ≤ step)
    (enough : (stop - idx).toNat ≤ fuel) :
    strideLoopFuel fuel idx stop step = strideLoop idx stop step := by
  have any : ∀ (left right : Nat) (idx : Int), (stop - idx).toNat ≤ left →
      (stop - idx).toNat ≤ right →
      strideLoopFuel left idx stop step = strideLoopFuel right idx stop step := by
    intro left
    induction left with
    | zero =>
        intro right idx fits _
        have past : ¬ idx < stop := by omega
        cases right <;> simp [strideLoopFuel, past]
    | succ left ih =>
        intro right idx fits fitsRight
        by_cases inside : idx < stop
        · cases right with
          | zero => omega
          | succ right =>
              simp only [strideLoopFuel, inside, ↓reduceIte]
              rw [ih right (min (idx + step) stop) (by omega) (by omega)]
        · cases right <;> simp [strideLoopFuel, inside]
  exact any fuel (stop - idx).toNat idx enough (le_refl _)

theorem stride_loop_past (idx stop step : Int) (past : stop ≤ idx) :
    strideLoop idx stop step = [] := by
  have empty : (stop - idx).toNat = 0 := by omega
  simp [strideLoop, empty, strideLoopFuel]

theorem stride_loop_inside (idx stop step : Int) (forward : 1 ≤ step) (inside : idx < stop) :
    strideLoop idx stop step =
      { first := idx, last := min (idx + step) stop } ::
        strideLoop (min (idx + step) stop) stop step := by
  obtain ⟨fuel, positive⟩ : ∃ fuel, (stop - idx).toNat = fuel + 1 :=
    ⟨(stop - idx).toNat - 1, by omega⟩
  rw [← stride_loop_fuel fuel (min (idx + step) stop) stop step forward (by omega)]
  simp [strideLoop, positive, strideLoopFuel, inside]

example : strideLoop0 3 12 4 = [⟨3, 7⟩, ⟨7, 11⟩, ⟨11, 12⟩] := by decide

end Sac2c.Schedule
