import Mathlib.Data.Int.ConditionallyCompleteOrder
import Mathlib.Data.List.Nodup
import Mathlib.Tactic.Linarith
import Sac2c.Cuts
import Sac2c.Threads
import Sac2c.Trace

/-!
The scheduler Affinity: one queue of task ids for each thread, of which the owner
takes from the front and other threads steal from the back. Each critical section
of SAC_MT_SCHEDULER_Affinity_NEXT_TASK is one step. The scan for the fullest
queue holds no lock, so what it reads is arbitrary.
-/

namespace Sac2c.Affinity

/-- SAC_MT_TASK and SAC_MT_LAST_TASK of one queue. -/
structure Queue where
  task : Int
  last : Int
deriving DecidableEq, Repr

/-- SAC_MT_SCHEDULER_Affinity_INIT. -/
def affinityInit (threads tasksPerThread : Nat) (queues : Nat → Queue) : Nat → Queue :=
  fun queueid =>
    if queueid < threads then
      { task := queueid * tasksPerThread, last := (queueid + 1) * tasksPerThread }
    else queues queueid

/-- The critical section on the thread's own queue: `taskid`, if there is one. -/
def ownSection (queue : Queue) : Option Int × Queue :=
  if queue.task < queue.last then (some queue.task, { queue with task := queue.task + 1 })
  else (none, queue)

/-- The critical section on the queue `maxloadthread`. -/
def stealSection (queue : Queue) : Option Int × Queue :=
  if queue.task < queue.last then (some (queue.last - 1), { queue with last := queue.last - 1 })
  else (none, queue)

/-- What the scan reads of one queue: LAST_TASK and TASK for the test, then TASK
and LAST_TASK once more for the assignment to `mintask`. -/
structure Reading where
  testLast : Int
  testTask : Int
  setTask : Int
  setLast : Int
deriving DecidableEq, Repr

/-- One round of the scan; `best` is the pair of `mintask` and `maxloadthread`. -/
def scanQueue (best : Int × Nat) (queueid : Nat) (reading : Reading) : Int × Nat :=
  if best.1 < reading.testLast - reading.testTask then (reading.setTask - reading.setLast, queueid)
  else best

def scanFrom (reading : Nat → Reading) : Nat → Nat → Int × Nat → Int × Nat
  | 0, _, best => best
  | rounds + 1, queueid, best =>
      scanFrom reading rounds (queueid + 1) (scanQueue best queueid (reading queueid))

/-- The scan of all queues: the `maxloadthread` that it ends with. -/
def scan (threads : Nat) (reading : Nat → Reading) : Nat :=
  (scanFrom reading (threads - 1) 1 ((reading 0).testLast - (reading 0).testTask, 0)).2

/-- Where a thread stands in SAC_MT_SCHEDULER_Affinity_NEXT_TASK. -/
inductive Phase where
  | looking
  | scanning
  | stealing (maxloadthread : Nat)
  | stopped
deriving DecidableEq, Repr

structure State where
  queues : Nat → Queue
  phase : Nat → Phase
  /-- The pairs of a thread and a task id that it was handed with `worktodo = 1`. -/
  handed : List (Nat × Int)

def State.moved (state : State) (thread : Nat) (phase : Phase) : State :=
  { state with phase := Function.update state.phase thread phase }

def State.hands (state : State) (thread queueid : Nat) (taskid : Int) (queue : Queue) : State :=
  { queues := Function.update state.queues queueid queue
    phase := Function.update state.phase thread .looking
    handed := (thread, taskid) :: state.handed }

/-- The next step of one thread. After its task it asks again; after
`worktodo = 0` it has left the loop. -/
def advance (threads : Nat) (reading : Nat → Reading) (state : State) (thread : Nat) :
    Option State :=
  match state.phase thread with
  | .looking =>
      match ownSection (state.queues thread) with
      | (some taskid, queue) => some (state.hands thread thread taskid queue)
      | (none, _) => some (state.moved thread .scanning)
  | .scanning => some (state.moved thread (.stealing (scan threads reading)))
  | .stealing maxloadthread =>
      match stealSection (state.queues maxloadthread) with
      | (some taskid, queue) => some (state.hands thread maxloadthread taskid queue)
      | (none, _) => some (state.moved thread .stopped)
  | .stopped => none

def Step (threads : Nat) (before : State) (thread : Nat) (after : State) : Prop :=
  thread < threads ∧ ∃ reading, advance threads reading before thread = some after

def begun (threads tasksPerThread : Nat) (queues : Nat → Queue) : State :=
  { queues := affinityInit threads tasksPerThread queues
    phase := fun _ => .looking
    handed := [] }

def Finished (threads : Nat) (state : State) : Prop :=
  ∀ thread, thread < threads → state.phase thread = .stopped

theorem scan_from_inside (reading : Nat → Reading) (rounds queueid limit : Nat)
    (best : Int × Nat) (inside : best.2 < limit) (fits : queueid + rounds ≤ limit) :
    (scanFrom reading rounds queueid best).2 < limit := by
  induction rounds generalizing queueid best with
  | zero => exact inside
  | succ rounds ih =>
      apply ih
      · unfold scanQueue
        split_ifs
        · simp only
          omega
        · exact inside
      · omega

theorem scan_inside (threads : Nat) (reading : Nat → Reading) (some : 1 ≤ threads) :
    scan threads reading < threads :=
  scan_from_inside reading (threads - 1) 1 threads _ some (by omega)

/-- All that one step of a thread can do. -/
theorem advance_cases (threads : Nat) (reading : Nat → Reading) (before after : State)
    (thread : Nat) (moved : advance threads reading before thread = some after) :
    (before.phase thread = .looking ∧
      (before.queues thread).task < (before.queues thread).last ∧
      after = before.hands thread thread (before.queues thread).task
        { before.queues thread with task := (before.queues thread).task + 1 }) ∨
    (before.phase thread = .looking ∧
      (before.queues thread).last ≤ (before.queues thread).task ∧
      after = before.moved thread .scanning) ∨
    (before.phase thread = .scanning ∧
      after = before.moved thread (.stealing (scan threads reading))) ∨
    (∃ victim, before.phase thread = .stealing victim ∧
      (before.queues victim).task < (before.queues victim).last ∧
      after = before.hands thread victim ((before.queues victim).last - 1)
        { before.queues victim with last := (before.queues victim).last - 1 }) ∨
    (∃ victim, before.phase thread = .stealing victim ∧
      (before.queues victim).last ≤ (before.queues victim).task ∧
      after = before.moved thread .stopped) := by
  unfold advance at moved
  cases phase : before.phase thread with
  | looking =>
      by_cases work : (before.queues thread).task < (before.queues thread).last
      · simp only [phase, ownSection, work, ↓reduceIte, Option.some.injEq] at moved
        exact Or.inl ⟨rfl, work, moved.symm⟩
      · simp only [phase, ownSection, work, ↓reduceIte, Option.some.injEq] at moved
        exact Or.inr (Or.inl ⟨rfl, not_lt.mp work, moved.symm⟩)
  | scanning =>
      simp only [phase, Option.some.injEq] at moved
      exact Or.inr (Or.inr (Or.inl ⟨rfl, moved.symm⟩))
  | stealing victim =>
      by_cases work : (before.queues victim).task < (before.queues victim).last
      · simp only [phase, stealSection, work, ↓reduceIte, Option.some.injEq] at moved
        exact Or.inr (Or.inr (Or.inr (Or.inl ⟨victim, rfl, work, moved.symm⟩)))
      · simp only [phase, stealSection, work, ↓reduceIte, Option.some.injEq] at moved
        exact Or.inr (Or.inr (Or.inr (Or.inr ⟨victim, rfl, not_lt.mp work, moved.symm⟩)))
  | stopped => simp [phase] at moved

/-- The first id of each queue, as a cut of all task ids. -/
def firstTask (tasksPerThread queueid : Nat) : Int := queueid * tasksPerThread

theorem first_task_rising (tasksPerThread : Nat) : Monotone (firstTask tasksPerThread) := by
  intro left right before
  unfold firstTask
  exact_mod_cast Nat.mul_le_mul_right tasksPerThread before

/-- The ids that a queue was set up with and no longer holds. -/
def Taken (tasksPerThread queueid : Nat) (queue : Queue) (taskid : Int) : Prop :=
  Cuts.Piece (firstTask tasksPerThread) queueid taskid ∧
    (taskid < queue.task ∨ queue.last ≤ taskid)

/-- A queue holds a middle part of the ids that it was set up with. -/
def Within (tasksPerThread queueid : Nat) (queue : Queue) : Prop :=
  firstTask tasksPerThread queueid ≤ queue.task ∧ queue.task ≤ queue.last ∧
    queue.last ≤ firstTask tasksPerThread (queueid + 1)

/-- A thread that did not find work in its own queue never will. -/
def SeenEmpty (queue : Queue) : Phase → Prop
  | .looking => True
  | _ => queue.last ≤ queue.task

structure Sound (threads tasksPerThread : Nat) (state : State) : Prop where
  within : ∀ queueid, queueid < threads → Within tasksPerThread queueid (state.queues queueid)
  once : (state.handed.map Prod.snd).Nodup
  taken : ∀ taskid, taskid ∈ state.handed.map Prod.snd ↔
    ∃ queueid, queueid < threads ∧ Taken tasksPerThread queueid (state.queues queueid) taskid
  victim : ∀ thread victim, thread < threads → state.phase thread = .stealing victim →
    victim < threads
  empty : ∀ thread, thread < threads → SeenEmpty (state.queues thread) (state.phase thread)

theorem begun_sound (threads tasksPerThread : Nat) (queues : Nat → Queue) :
    Sound threads tasksPerThread (begun threads tasksPerThread queues) where
  within := by
    intro queueid inside
    have rising := first_task_rising tasksPerThread (Nat.le_succ queueid)
    simp only [Within, begun, affinityInit, inside, ↓reduceIte]
    refine ⟨le_refl _, ?_, by simp [firstTask]⟩
    simpa [firstTask] using rising
  once := List.nodup_nil
  taken := by
    intro taskid
    simp only [begun, List.map_nil, List.not_mem_nil, false_iff, not_exists, not_and]
    rintro queueid inside ⟨piece, outside⟩
    simp only [affinityInit, inside, ↓reduceIte] at outside
    have above := piece.1
    have below := piece.2
    simp only [firstTask] at above below
    push_cast at below
    omega
  victim := by simp [begun]
  empty := by
    intro thread _
    trivial

theorem moved_sound (threads tasksPerThread : Nat) (state : State) (thread : Nat) (next : Phase)
    (sound : Sound threads tasksPerThread state)
    (victim : ∀ victim, next = .stealing victim → victim < threads)
    (empty : SeenEmpty (state.queues thread) next) :
    Sound threads tasksPerThread (state.moved thread next) where
  within := sound.within
  once := sound.once
  taken := sound.taken
  victim := by
    intro other target inside phase
    by_cases same : other = thread
    · subst same
      simp only [State.moved, Function.update_self] at phase
      exact victim target phase
    · simp only [State.moved, Function.update_of_ne same] at phase
      exact sound.victim other target inside phase
  empty := by
    intro other inside
    by_cases same : other = thread
    · subst same
      simpa [State.moved] using empty
    · simpa [State.moved, Function.update_of_ne same] using sound.empty other inside

/-- Taking one id out of a queue, from either end, hands it out for the first time. -/
theorem hands_sound (threads tasksPerThread : Nat) (state : State) (thread queueid : Nat)
    (taskid : Int) (queue : Queue) (inside : queueid < threads)
    (sound : Sound threads tasksPerThread state)
    (holds : (state.queues queueid).task ≤ taskid ∧ taskid < (state.queues queueid).last)
    (within : Within tasksPerThread queueid queue)
    (shrinks : (state.queues queueid).last ≤ (state.queues queueid).task → queue.last ≤ queue.task)
    (gone : ∀ other, (other < queue.task ∨ queue.last ≤ other) ↔
      (other < (state.queues queueid).task ∨ (state.queues queueid).last ≤ other) ∨
        other = taskid) :
    Sound threads tasksPerThread (state.hands thread queueid taskid queue) where
  within := by
    intro other insideOther
    by_cases same : other = queueid
    · subst same
      simpa [State.hands] using within
    · simpa [State.hands, Function.update_of_ne same] using sound.within other insideOther
  once := by
    have piece : Cuts.Piece (firstTask tasksPerThread) queueid taskid := by
      obtain ⟨first, _, last⟩ := sound.within queueid inside
      exact ⟨le_trans first holds.1, lt_of_lt_of_le holds.2 last⟩
    refine List.nodup_cons.mpr ⟨?_, sound.once⟩
    intro again
    obtain ⟨other, _, there, outside⟩ := (sound.taken taskid).mp again
    -- an id that was taken before is outside the bounds of its queue, this one is inside
    have same := Cuts.piece_unique _ (first_task_rising tasksPerThread) there piece
    subst same
    omega
  taken := by
    intro other
    have piece : Cuts.Piece (firstTask tasksPerThread) queueid taskid := by
      obtain ⟨first, _, last⟩ := sound.within queueid inside
      exact ⟨le_trans first holds.1, lt_of_lt_of_le holds.2 last⟩
    simp only [State.hands, List.map_cons, List.mem_cons, sound.taken other]
    constructor
    · rintro (here | ⟨place, insidePlace, there, outside⟩)
      · subst here
        exact ⟨queueid, inside, piece, by simp [gone]⟩
      · refine ⟨place, insidePlace, there, ?_⟩
        by_cases same : place = queueid
        · subst same
          rw [Function.update_self, gone]
          exact Or.inl outside
        · rw [Function.update_of_ne same]
          exact outside
    · rintro ⟨place, insidePlace, there, outside⟩
      by_cases same : place = queueid
      · subst same
        rw [Function.update_self, gone] at outside
        rcases outside with before | now
        · exact Or.inr ⟨place, insidePlace, there, before⟩
        · exact Or.inl now
      · rw [Function.update_of_ne same] at outside
        exact Or.inr ⟨place, insidePlace, there, outside⟩
  victim := by
    intro other target insideOther phase
    by_cases same : other = thread
    · subst same
      simp [State.hands] at phase
    · simp only [State.hands, Function.update_of_ne same] at phase
      exact sound.victim other target insideOther phase
  empty := by
    intro other insideOther
    by_cases same : other = thread
    · subst same
      simp [State.hands, SeenEmpty]
    · have before := sound.empty other insideOther
      simp only [State.hands, Function.update_of_ne same]
      -- the thread may have seen its own queue empty, and then it still is
      by_cases here : other = queueid
      · subst here
        rw [Function.update_self]
        cases phase : state.phase other with
        | looking => trivial
        | scanning => exact shrinks (by simpa [phase, SeenEmpty] using before)
        | stealing victim => exact shrinks (by simpa [phase, SeenEmpty] using before)
        | stopped => exact shrinks (by simpa [phase, SeenEmpty] using before)
      · rwa [Function.update_of_ne here]

theorem step_sound (threads tasksPerThread : Nat) (before : State) (thread : Nat) (after : State)
    (sound : Sound threads tasksPerThread before) (step : Step threads before thread after) :
    Sound threads tasksPerThread after := by
  obtain ⟨inside, reading, moved⟩ := step
  rcases advance_cases threads reading before after thread moved with
    ⟨_, work, same⟩ | ⟨_, idle, same⟩ | ⟨phase, same⟩ | ⟨victim, phase, work, same⟩ |
    ⟨victim, phase, _, same⟩
  · subst same
    obtain ⟨first, _, last⟩ := sound.within thread inside
    refine hands_sound threads tasksPerThread before thread thread _ _ inside sound
      ⟨le_refl _, work⟩ ⟨?_, ?_, last⟩ ?_ ?_
    · simp only
      omega
    · simp only
      omega
    · simp only
      omega
    · intro other
      simp only
      omega
  · subst same
    refine moved_sound threads tasksPerThread before thread .scanning sound ?_ idle
    intro victim impossible
    cases impossible
  · subst same
    have seen := sound.empty thread inside
    refine moved_sound threads tasksPerThread before thread _ sound ?_ ?_
    · intro victim here
      cases here
      exact scan_inside threads reading (Nat.lt_of_le_of_lt (Nat.zero_le thread) inside)
    · simpa [phase, SeenEmpty] using seen
  · subst same
    have insideVictim := sound.victim thread victim inside phase
    obtain ⟨first, _, last⟩ := sound.within victim insideVictim
    refine hands_sound threads tasksPerThread before thread victim _ _ insideVictim sound
      ⟨by omega, by omega⟩ ⟨first, ?_, ?_⟩ ?_ ?_
    · simp only
      omega
    · simp only
      omega
    · simp only
      omega
    · intro other
      simp only
      omega
  · subst same
    have seen := sound.empty thread inside
    refine moved_sound threads tasksPerThread before thread .stopped sound ?_ ?_
    · intro other impossible
      cases impossible
    · simpa [phase, SeenEmpty] using seen

def phaseWeight (_ : Nat) : Phase → Nat
  | .looking => 3
  | .scanning => 2
  | .stealing _ => 1
  | .stopped => 0

def queueWeight (_ : Nat) (queue : Queue) : Nat := (queue.last - queue.task).toNat

/-- A handed task may send its thread back to its own queue, which a task less
in the queues outweighs. -/
def remaining (threads : Nat) (state : State) : Nat :=
  Threads.total threads phaseWeight state.phase +
    3 * Threads.total threads queueWeight state.queues

theorem moved_falls (threads : Nat) (state : State) (thread : Nat) (inside : thread < threads)
    (next : Phase) (lighter : phaseWeight thread next < phaseWeight thread (state.phase thread)) :
    remaining threads (state.moved thread next) < remaining threads state := by
  have total := Threads.total_moved phaseWeight state.phase inside next
  change Threads.total threads phaseWeight (Function.update state.phase thread next) +
    3 * Threads.total threads queueWeight state.queues < _
  unfold remaining
  omega

theorem hands_falls (threads : Nat) (state : State) (thread queueid : Nat) (taskid : Int)
    (queue : Queue) (inside : thread < threads) (insideQueue : queueid < threads)
    (running : 1 ≤ phaseWeight thread (state.phase thread))
    (shorter : queueWeight queueid queue < queueWeight queueid (state.queues queueid)) :
    remaining threads (state.hands thread queueid taskid queue) < remaining threads state := by
  have phases := Threads.total_moved phaseWeight state.phase inside .looking
  have queues := Threads.total_moved queueWeight state.queues insideQueue queue
  have back : phaseWeight thread .looking = 3 := rfl
  change Threads.total threads phaseWeight (Function.update state.phase thread .looking) +
    3 * Threads.total threads queueWeight (Function.update state.queues queueid queue) < _
  unfold remaining
  omega

theorem step_falls (threads tasksPerThread : Nat) (before : State) (thread : Nat) (after : State)
    (sound : Sound threads tasksPerThread before) (step : Step threads before thread after) :
    remaining threads after < remaining threads before := by
  obtain ⟨inside, reading, moved⟩ := step
  rcases advance_cases threads reading before after thread moved with
    ⟨phase, work, same⟩ | ⟨phase, _, same⟩ | ⟨phase, same⟩ | ⟨victim, phase, work, same⟩ |
    ⟨victim, phase, _, same⟩
  · subst same
    apply hands_falls threads before thread thread _ _ inside inside
    · simp [phase, phaseWeight]
    · simp only [queueWeight]
      omega
  · subst same
    apply moved_falls threads before thread inside
    simp [phase, phaseWeight]
  · subst same
    apply moved_falls threads before thread inside
    simp [phase, phaseWeight]
  · subst same
    apply hands_falls threads before thread victim _ _ inside
      (sound.victim thread victim inside phase)
    · simp [phase, phaseWeight]
    · simp only [queueWeight]
      omega
  · subst same
    apply moved_falls threads before thread inside
    simp [phase, phaseWeight]

theorem unfinished_moves (threads : Nat) (state : State) (unfinished : ¬ Finished threads state) :
    ∃ thread after, Step threads state thread after := by
  unfold Finished at unfinished
  push Not at unfinished
  obtain ⟨thread, inside, running⟩ := unfinished
  have moves : ∃ after, advance threads (fun _ => ⟨0, 0, 0, 0⟩) state thread = some after := by
    cases phase : state.phase thread with
    | looking =>
        cases found : ownSection (state.queues thread) with
        | mk taskid queue =>
            cases taskid with
            | none => exact ⟨_, by simp only [advance, phase, found]; rfl⟩
            | some taskid => exact ⟨_, by simp only [advance, phase, found]; rfl⟩
    | scanning => exact ⟨_, by simp only [advance, phase]; rfl⟩
    | stealing victim =>
        cases found : stealSection (state.queues victim) with
        | mk taskid queue =>
            cases taskid with
            | none => exact ⟨_, by simp only [advance, phase, found]; rfl⟩
            | some taskid => exact ⟨_, by simp only [advance, phase, found]; rfl⟩
    | stopped => exact absurd phase running
  obtain ⟨after, moved⟩ := moves
  exact ⟨thread, after, inside, _, moved⟩

/-- When every thread has stopped, every queue is empty and all its ids are taken. -/
theorem finished_taken (threads tasksPerThread : Nat) (state : State)
    (sound : Sound threads tasksPerThread state) (finished : Finished threads state)
    (taskid : Int) (positive : 0 ≤ taskid) (below : taskid < threads * tasksPerThread) :
    taskid ∈ state.handed.map Prod.snd := by
  have start : firstTask tasksPerThread 0 ≤ taskid := by
    simpa [firstTask] using positive
  obtain ⟨queueid, inside, piece⟩ :=
    Cuts.piece_exists (firstTask tasksPerThread) threads start below
  have empty := sound.empty queueid inside
  rw [finished queueid inside] at empty
  refine (sound.taken taskid).mpr ⟨queueid, inside, piece, ?_⟩
  have none : (state.queues queueid).last ≤ (state.queues queueid).task := empty
  omega

/-- What the threads are handed in all interleavings: no id twice, only ids of
the with-loop, and all of them once every thread was told that there is no work.
The last two fields say that this always happens. -/
structure HandsOutOnce (threads tasksPerThread : Nat) (start : State) : Prop where
  once : ∀ labels state, Trace.Run (Step threads) start labels state →
    (state.handed.map Prod.snd).Nodup
  within : ∀ labels state, Trace.Run (Step threads) start labels state →
    ∀ taskid ∈ state.handed.map Prod.snd, 0 ≤ taskid ∧ taskid < threads * tasksPerThread
  all : ∀ labels state, Trace.Run (Step threads) start labels state → Finished threads state →
    ∀ taskid : Int, 0 ≤ taskid → taskid < threads * tasksPerThread →
      taskid ∈ state.handed.map Prod.snd
  bounded : ∃ limit, ∀ labels state, Trace.Run (Step threads) start labels state →
    labels.length ≤ limit
  finishes : ∃ labels state, Trace.Run (Step threads) start labels state ∧ Finished threads state

theorem affinity_hands_out_once (threads tasksPerThread : Nat) (queues : Nat → Queue) :
    HandsOutOnce threads tasksPerThread (begun threads tasksPerThread queues) := by
  have start := begun_sound threads tasksPerThread queues
  have kept := step_sound threads tasksPerThread
  have falls := step_falls threads tasksPerThread
  have reached : ∀ labels state,
      Trace.Run (Step threads) (begun threads tasksPerThread queues) labels state →
      Sound threads tasksPerThread state :=
    fun labels state run => run.invariant _ kept start
  constructor
  · intro labels state run
    exact (reached labels state run).once
  · intro labels state run taskid member
    obtain ⟨queueid, inside, piece, _⟩ := ((reached labels state run).taken taskid).mp member
    have bounds := Cuts.piece_within _ (first_task_rising tasksPerThread) inside piece
    simpa [firstTask] using bounds
  · intro labels state run finished taskid
    exact finished_taken threads tasksPerThread state (reached labels state run) finished taskid
  · refine ⟨remaining threads (begun threads tasksPerThread queues), ?_⟩
    intro labels state run
    have bound := run.length_le _ (remaining threads) kept falls start
    omega
  · exact Trace.exists_finished (Sound threads tasksPerThread) (Finished threads)
      (remaining threads) kept falls (fun state _ => unfinished_moves threads state) _ start

end Sac2c.Affinity
