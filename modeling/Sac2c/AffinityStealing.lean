import Sac2c.Affinity

/-!
SAC_MT_SCHEDULER_Affinity_NEXT_TASK of one thread while no other thread changes a
queue. The scan compares LAST_TASK - TASK with `mintask`, but stores
TASK - LAST_TASK in it, so behind the first queue that is longer than queue 0 it no
longer looks for the longest one.
-/

namespace Sac2c.AffinityStealing

open Affinity

section Model

/-- What the scan reads if nobody else changes the queues. -/
def settled (queues : Nat → Queue) (queueid : Nat) : Reading where
  testLast := (queues queueid).last
  testTask := (queues queueid).task
  setTask := (queues queueid).task
  setLast := (queues queueid).last

/-- `taskid`, `worktodo` and the queues that the macro leaves behind. -/
structure NextTask where
  taskid : Int
  worktodo : Bool
  queues : Nat → Queue

/-- The end of a critical section on one queue. -/
def released (queues : Nat → Queue) (queueid : Nat) : Option Int × Queue → NextTask
  | (some taskid, queue) => ⟨taskid, true, Function.update queues queueid queue⟩
  | (none, _) => ⟨0, false, queues⟩

/-- SAC_MT_SCHEDULER_Affinity_NEXT_TASK of the thread `self`. -/
def affinityNextTask (threads : Nat) (queues : Nat → Queue) (self : Nat) : NextTask :=
  match ownSection (queues self) with
  | (some taskid, queue) => released queues self (some taskid, queue)
  | (none, _) =>
      let maxloadthread := scan threads (settled queues)
      released queues maxloadthread (stealSection (queues maxloadthread))

end Model

section Scan

/-- The tasks that remain in a queue. -/
def load (queue : Queue) : Int := queue.last - queue.task

/-- No queue has more tasks than this one. -/
def Fullest (threads : Nat) (queues : Nat → Queue) (queueid : Nat) : Prop :=
  queueid < threads ∧ ∀ other, other < threads → load (queues other) ≤ load (queues queueid)

/-- The scan has passed the queues below `passed`. Either none of them is longer than queue 0,
or the queue it remembers is as long as the last one it passed. -/
inductive Passed (queues : Nat → Queue) (passed : Nat) : Int × Nat → Prop where
  | first : (∀ other, other < passed → load (queues other) ≤ load (queues 0)) →
      Passed queues passed (load (queues 0), 0)
  | behind (queueid : Nat) : queueid < passed →
      load (queues queueid) = load (queues (passed - 1)) →
      (∃ other, other < passed ∧ load (queues 0) < load (queues other)) →
      Passed queues passed (-load (queues queueid), queueid)

variable {threads : Nat} {queues : Nat → Queue}

theorem scan_queue_passed {passed : Nat} {best : Int × Nat}
    (ordered : ∀ queueid, queueid ≤ passed → 0 ≤ load (queues queueid))
    (sofar : Passed queues passed best) :
    Passed queues (passed + 1) (scanQueue best passed (settled queues passed)) := by
  have reading : (settled queues passed).testLast - (settled queues passed).testTask =
      load (queues passed) := rfl
  have setting : (settled queues passed).setTask - (settled queues passed).setLast =
      -load (queues passed) := by
    simp only [settled, load]
    omega
  simp only [scanQueue, reading, setting]
  cases sofar with
  | first small =>
      split
      · next longer =>
          exact .behind passed (Nat.lt_succ_self _) (by simp) ⟨passed, Nat.lt_succ_self _, longer⟩
      · next shorter =>
          refine .first fun other below => ?_
          rcases Nat.lt_succ_iff_lt_or_eq.mp below with before | same
          · exact small other before
          · subst same
            exact not_lt.mp shorter
  | behind queueid inside same longer =>
      obtain ⟨other, below, more⟩ := longer
      have still : ∃ other, other < passed + 1 ∧ load (queues 0) < load (queues other) :=
        ⟨other, by omega, more⟩
      split
      · exact .behind passed (Nat.lt_succ_self _) (by simp) still
      · next shorter =>
          -- `mintask` is negative unless both queues are empty
          refine .behind queueid (by omega) ?_ still
          simp only [Nat.add_sub_cancel]
          have mine := ordered queueid (by omega)
          have this := ordered passed (le_refl _)
          omega

theorem scan_from_passed (rounds passed : Nat) {best : Int × Nat}
    (ordered : ∀ queueid, queueid < passed + rounds → 0 ≤ load (queues queueid))
    (sofar : Passed queues passed best) :
    Passed queues (passed + rounds) (scanFrom (settled queues) rounds passed best) := by
  induction rounds generalizing passed best with
  | zero => exact sofar
  | succ rounds ih =>
      have step := scan_queue_passed (fun queueid below => ordered queueid (by omega)) sofar
      rw [show passed + (rounds + 1) = passed + 1 + rounds by omega]
      exact ih (passed + 1) (fun queueid below => ordered queueid (by omega)) step

/-- The scan ends with queue 0 or with a queue that is as long as the last one. -/
theorem scan_result (positive : 1 ≤ threads)
    (ordered : ∀ queueid, queueid < threads → 0 ≤ load (queues queueid)) :
    (scan threads (settled queues) = 0 ∧
      ∀ other, other < threads → load (queues other) ≤ load (queues 0)) ∨
    (load (queues (scan threads (settled queues))) = load (queues (threads - 1)) ∧
      ∃ other, other < threads ∧ load (queues 0) < load (queues other)) := by
  have start : Passed queues 1 (load (queues 0), 0) := by
    refine .first fun other below => ?_
    obtain rfl : other = 0 := by omega
    exact le_refl _
  have passed := scan_from_passed (threads - 1) 1 (fun queueid below => ordered queueid (by omega))
    start
  rw [show 1 + (threads - 1) = threads by omega] at passed
  have found : scan threads (settled queues) =
      (scanFrom (settled queues) (threads - 1) 1 (load (queues 0), 0)).2 := rfl
  rw [found]
  generalize scanFrom (settled queues) (threads - 1) 1 (load (queues 0), 0) = best at passed
  cases passed with
  | first small => exact Or.inl ⟨rfl, small⟩
  | behind queueid _ same longer => exact Or.inr ⟨same, longer⟩

theorem scan_fullest_iff (positive : 1 ≤ threads)
    (ordered : ∀ queueid, queueid < threads → 0 ≤ load (queues queueid)) :
    Fullest threads queues (scan threads (settled queues)) ↔
      Fullest threads queues 0 ∨ Fullest threads queues (threads - 1) := by
  have inside := scan_inside threads (settled queues) positive
  rcases scan_result positive ordered with ⟨zero, small⟩ | ⟨same, other, below, longer⟩
  · rw [zero]
    exact ⟨Or.inl, fun _ => ⟨positive, small⟩⟩
  · have noFirst : ¬ Fullest threads queues 0 := by
      intro fullest
      have := fullest.2 other below
      omega
    rw [or_iff_right noFirst]
    simp only [Fullest, same]
    exact ⟨fun fullest => ⟨by omega, fullest.2⟩, fun fullest => ⟨inside, fullest.2⟩⟩

end Scan

section Stealing

/-- The last task of a fullest queue is handed out if there is a task at all, and that there
is none is said only if every queue is empty. -/
structure StealsWork (threads : Nat) (queues : Nat → Queue) (result : NextTask) : Prop where
  steals : (∃ queueid, queueid < threads ∧ (queues queueid).task < (queues queueid).last) →
    ∃ victim, Fullest threads queues victim ∧ result.worktodo = true ∧
      result.taskid = (queues victim).last - 1 ∧
      result.queues = Function.update queues victim
        { queues victim with last := (queues victim).last - 1 }
  idle : result.worktodo = false →
    ∀ queueid, queueid < threads → (queues queueid).last ≤ (queues queueid).task

variable {threads : Nat} {queues : Nat → Queue} {self : Nat}

theorem next_task_steals (threads : Nat) (idle : (queues self).last ≤ (queues self).task) :
    affinityNextTask threads queues self =
      released queues (scan threads (settled queues))
        (stealSection (queues (scan threads (settled queues)))) := by
  simp only [affinityNextTask, ownSection, if_neg (not_lt.mpr idle)]

/-- What is taken from the queue that the scan chose. -/
theorem stolen (victim : Nat) :
    released queues victim (stealSection (queues victim)) =
      if (queues victim).task < (queues victim).last then
        ⟨(queues victim).last - 1, true, Function.update queues victim
          { queues victim with last := (queues victim).last - 1 }⟩
      else ⟨0, false, queues⟩ := by
  simp only [stealSection]
  split <;> rfl

/-- Taking a task from a queue shows in that queue only. -/
theorem victim_unique {first second : Nat}
    (same : Function.update queues first { queues first with last := (queues first).last - 1 } =
      Function.update queues second { queues second with last := (queues second).last - 1 }) :
    first = second := by
  by_contra differ
  have here := congrFun same first
  rw [Function.update_self, Function.update_of_ne differ] at here
  have last := congrArg Queue.last here
  dsimp only at last
  omega

/-- A thread without tasks steals from a fullest queue exactly if the first or the last queue
is one. -/
theorem steals_work_iff (threads : Nat) (queues : Nat → Queue) (self : Nat)
    (inside : self < threads)
    (ordered : ∀ queueid, queueid < threads → (queues queueid).task ≤ (queues queueid).last)
    (idle : (queues self).last ≤ (queues self).task) :
    StealsWork threads queues (affinityNextTask threads queues self) ↔
      Fullest threads queues 0 ∨ Fullest threads queues (threads - 1) := by
  have loads : ∀ queueid, queueid < threads → 0 ≤ load (queues queueid) := by
    intro queueid below
    have := ordered queueid below
    simp only [load]
    omega
  rw [next_task_steals threads idle, stolen, ← scan_fullest_iff (by omega) loads]
  have chosen := scan_inside threads (settled queues) (by omega)
  generalize scan threads (settled queues) = maxloadthread at chosen ⊢
  constructor
  · rintro ⟨steals, none⟩
    by_cases work : (queues maxloadthread).task < (queues maxloadthread).last
    · obtain ⟨victim, fullest, _, _, taken⟩ := steals ⟨maxloadthread, chosen, work⟩
      rw [if_pos work] at taken
      rwa [victim_unique taken]
    · rw [if_neg work] at none
      refine ⟨chosen, fun other below => ?_⟩
      have empty := none rfl other below
      have mine := loads maxloadthread chosen
      simp only [load] at mine ⊢
      omega
  · intro fullest
    by_cases work : (queues maxloadthread).task < (queues maxloadthread).last
    · rw [if_pos work]
      exact ⟨fun _ => ⟨maxloadthread, fullest, rfl, rfl, rfl⟩, nofun⟩
    · have empty : ∀ queueid, queueid < threads →
          (queues queueid).last ≤ (queues queueid).task := by
        intro queueid below
        have most := fullest.2 queueid below
        simp only [load] at most
        omega
      rw [if_neg work]
      refine ⟨?_, fun _ => empty⟩
      rintro ⟨queueid, below, some⟩
      exact absurd some (not_lt.mpr (empty queueid below))

def shortInTheMiddle (queueid : Nat) : Queue := if queueid = 2 then ⟨4, 6⟩ else ⟨2, 2⟩

/-- Three threads; only the last queue still has tasks. -/
theorem steals_work_iff_three :
    StealsWork 3 shortInTheMiddle (affinityNextTask 3 shortInTheMiddle 0) ↔
      Fullest 3 shortInTheMiddle 0 ∨ Fullest 3 shortInTheMiddle 2 :=
  steals_work_iff 3 shortInTheMiddle 0 (by decide) (by decide) (by decide)

def workInTheMiddle (queueid : Nat) : Queue := if queueid = 1 then ⟨2, 3⟩ else ⟨2, 2⟩

/-- The scan goes on from queue 1, which has the only task, to the empty queue 2. -/
theorem work_not_found :
    ¬ StealsWork 3 workInTheMiddle (affinityNextTask 3 workInTheMiddle 0) := by
  intro found
  have empty := found.idle rfl 1 (by decide)
  exact absurd empty (by decide)

end Stealing

end Sac2c.AffinityStealing
