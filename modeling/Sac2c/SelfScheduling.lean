import Mathlib.Data.List.Basic
import Sac2c.Schedule
import Sac2c.Threads
import Sac2c.Trace

/-!
The scheduler Self: the code that ICMCompileMT_SCHEDULER_Self_INIT and
Self_BEGIN / Self_END emit for one with-loop, and its run by a number of threads
with the task selector Even. All threads draw task numbers from one counter,
SAC_MT_TASK( sched_id, 0), in a critical section.
-/

namespace Sac2c.SelfScheduling

/-- SACl_FirstStatic, SACl_FirstDynamic and SACl_FirstAutomatic. -/
inductive FirstTask where
  | static
  | dynamic
  | automatic
deriving DecidableEq, Repr

/-- The statements that Self_INIT emits. -/
inductive InitStatement where
  /-- SAC_MT_SCHEDULER_SET_TASKS( sched_id, max_task) -/
  | setTasks (schedId maxTask : Int)
  /-- SAC_MT_TASK( sched_id, 0) = SAC_MT_LOCAL_THREADS() -/
  | taskIsLocalThreads (schedId : Int)
deriving DecidableEq, Repr

/-- The statements by which Self_BEGIN has a thread choose its first task. -/
inductive FirstStatement where
  /-- SAC_MT_SCHEDULER_Self_FIRST_TASK_STATIC -/
  | static
  /-- SAC_MT_SCHEDULER_Self_FIRST_TASK_DYNAMIC -/
  | dynamic
deriving DecidableEq, Repr

/-- ICMCompileMT_SCHEDULER_Self_INIT. -/
def selfInit (schedId : Int) (firstTask : FirstTask) : List InitStatement :=
  (if firstTask = .dynamic then [.setTasks schedId 0] else []) ++
  (if firstTask = .automatic then
    (if schedId = 0 then [.taskIsLocalThreads schedId] else [.setTasks schedId 0]) else []) ++
  -- STReq( first_task, "SACl_FirstStatic") == 0 holds when the strings differ.
  (if firstTask ≠ .static then [.taskIsLocalThreads schedId] else [])

/-- ICMCompileMT_SCHEDULER_Self_BEGIN. -/
def selfBegin (schedId : Int) (firstTask : FirstTask) : FirstStatement :=
  match firstTask with
  | .automatic => if 0 < schedId then .dynamic else .static
  | .static => .static
  | .dynamic => .dynamic

/-- The task counters SAC_MT_TASK( sched_id, th). -/
abbrev Tasks := Int → Int → Int

def InitStatement.run (localThreads : Int) (tasks : Tasks) : InitStatement → Tasks
  | .setTasks schedId maxTask => fun sched th =>
      if sched = schedId ∧ 0 ≤ th ∧ th ≤ maxTask then 0 else tasks sched th
  | .taskIsLocalThreads schedId => fun sched th =>
      if sched = schedId ∧ th = 0 then localThreads else tasks sched th

def runInit (localThreads : Int) (tasks : Tasks) (statements : List InitStatement) : Tasks :=
  statements.foldl (InitStatement.run localThreads) tasks

/-- A with-loop under Self, with the segment that Even divides. -/
structure Loop where
  schedId : Int
  firstTask : FirstTask
  lower : Int
  upper : Int
  unrolling : Int
  numTasks : Nat
  threads : Nat

def Loop.count (loop : Loop) : Int := loop.numTasks * loop.threads

/-- SAC_MT_worktodo after SAC_MT_SCHEDULER_TS_Even has looked at the task id. -/
def Loop.worktodo (loop : Loop) (taskid : Int) : Bool :=
  (Schedule.tsEven loop.lower loop.upper loop.unrolling loop.numTasks loop.threads taskid).1

/-- Where one thread stands in the emitted loop. -/
inductive Phase where
  | start
  | holds (taskid : Int)
  | ran
  | done
deriving DecidableEq, Repr

structure Execution where
  thread : Nat
  taskid : Int
deriving DecidableEq, Repr

structure State where
  tasks : Tasks
  phase : Nat → Phase
  log : List Execution

def State.moved (state : State) (thread : Nat) (phase : Phase) : State :=
  { state with phase := Function.update state.phase thread phase }

/-- SAC_MT_SCHEDULER_Self_NEXT_TASK: the critical section is one step. -/
def selfNextTask (loop : Loop) (state : State) (thread : Nat) : State :=
  { tasks := fun sched th =>
      if sched = loop.schedId ∧ th = 0 then state.tasks loop.schedId 0 + 1 else state.tasks sched th
    phase := Function.update state.phase thread (.holds (state.tasks loop.schedId 0))
    log := state.log }

/-- The next step of one thread; none once it has left the loop. -/
def advance (loop : Loop) (state : State) (thread : Nat) : Option State :=
  match state.phase thread with
  | .start =>
      match selfBegin loop.schedId loop.firstTask with
      | .static => some (state.moved thread (.holds thread))
      | .dynamic => some (selfNextTask loop state thread)
  | .holds taskid =>
      if loop.worktodo taskid then
        some { state.moved thread .ran with log := ⟨thread, taskid⟩ :: state.log }
      else some (state.moved thread .done)
  | .ran => some (selfNextTask loop state thread)
  | .done => none

def Step (loop : Loop) (before : State) (thread : Nat) (after : State) : Prop :=
  thread < loop.threads ∧ advance loop before thread = some after

/-- The state in which the threads enter the loop, after Self_INIT. -/
def begun (loop : Loop) (tasks : Tasks) : State :=
  { tasks := runInit loop.threads tasks (selfInit loop.schedId loop.firstTask)
    phase := fun _ => .start
    log := [] }

def Finished (loop : Loop) (state : State) : Prop :=
  ∀ thread, thread < loop.threads → state.phase thread = .done

/-- Each task is run by exactly one thread exactly once, whichever way the
threads interleave; and they cannot interleave for ever. -/
structure ExecutesOnce (loop : Loop) (tasks : Tasks) : Prop where
  bounded : ∃ limit, ∀ labels state,
    Trace.Run (Step loop) (begun loop tasks) labels state → labels.length ≤ limit
  once : ∀ labels state, Trace.Run (Step loop) (begun loop tasks) labels state →
    Finished loop state → ∀ taskid, 0 ≤ taskid → taskid < loop.count →
      ∃ thread, (state.log.filter fun execution => execution.taskid = taskid) = [⟨thread, taskid⟩]

@[simp] theorem worktodo_iff (loop : Loop) (taskid : Int) :
    loop.worktodo taskid = true ↔ taskid < loop.count := by
  simp only [Loop.worktodo, Schedule.tsEven, Loop.count]
  split_ifs <;> simp_all

/-- The counter that the threads share. -/
def State.counter (loop : Loop) (state : State) : Int := state.tasks loop.schedId 0

def isStatic (loop : Loop) : Bool := selfBegin loop.schedId loop.firstTask = .static

/-- All that one step of a thread can do. -/
theorem advance_cases (loop : Loop) (before after : State) (thread : Nat)
    (moved : advance loop before thread = some after) :
    (before.phase thread = .start ∧ isStatic loop = true ∧
      after = before.moved thread (.holds thread)) ∨
    (before.phase thread = .start ∧ isStatic loop = false ∧
      after = selfNextTask loop before thread) ∨
    (∃ taskid, before.phase thread = .holds taskid ∧ taskid < loop.count ∧
      after = { before.moved thread .ran with log := ⟨thread, taskid⟩ :: before.log }) ∨
    (∃ taskid, before.phase thread = .holds taskid ∧ loop.count ≤ taskid ∧
      after = before.moved thread .done) ∨
    (before.phase thread = .ran ∧ after = selfNextTask loop before thread) := by
  unfold advance at moved
  cases phase : before.phase thread with
  | start =>
      cases first : selfBegin loop.schedId loop.firstTask with
      | static =>
          simp only [phase, first, Option.some.injEq] at moved
          exact Or.inl ⟨rfl, by simp [isStatic, first], moved.symm⟩
      | dynamic =>
          simp only [phase, first, Option.some.injEq] at moved
          exact Or.inr (Or.inl ⟨rfl, by simp [isStatic, first], moved.symm⟩)
  | holds taskid =>
      by_cases work : taskid < loop.count
      · simp only [phase, (worktodo_iff loop taskid).mpr work, ↓reduceIte,
          Option.some.injEq] at moved
        exact Or.inr (Or.inr (Or.inl ⟨taskid, rfl, work, moved.symm⟩))
      · have idle : loop.worktodo taskid = false := by
          rw [Bool.eq_false_iff]
          exact fun todo => work ((worktodo_iff loop taskid).mp todo)
        simp only [phase, idle, Bool.false_eq_true, ↓reduceIte, Option.some.injEq] at moved
        exact Or.inr (Or.inr (Or.inr (Or.inl ⟨taskid, rfl, not_lt.mp work, moved.symm⟩)))
  | ran =>
      simp only [phase, Option.some.injEq] at moved
      exact Or.inr (Or.inr (Or.inr (Or.inr ⟨rfl, moved.symm⟩)))
  | done => simp [phase] at moved

/-- One if the thread has drawn the task and not yet run it. -/
def holdWeight (taskid : Int) (_ : Nat) (phase : Phase) : Nat :=
  if phase = .holds taskid then 1 else 0

/-- One if the task is the thread's own first task and the thread has started. -/
def ownWeight (loop : Loop) (taskid : Int) (thread : Nat) (phase : Phase) : Nat :=
  if isStatic loop = true ∧ (thread : Int) = taskid ∧ phase ≠ .start then 1 else 0

def executions (taskid : Int) (log : List Execution) : Nat :=
  (log.filter fun execution => execution.taskid = taskid).length

/-- One if the counter has passed the task since the loop was begun. -/
def drawn (first counter taskid : Int) : Nat :=
  if first ≤ taskid ∧ taskid < counter then 1 else 0

/-- What a task has been run and is held adds up to the ways it was drawn; a
thread leaves only when the counter is past the last task. -/
structure Accounted (loop : Loop) (first : Int) (state : State) : Prop where
  grown : first ≤ state.counter loop
  balance : ∀ taskid, 0 ≤ taskid → taskid < loop.count →
    executions taskid state.log +
        Threads.total loop.threads (holdWeight taskid) state.phase =
      Threads.total loop.threads (ownWeight loop taskid) state.phase +
        drawn first (state.counter loop) taskid
  held : ∀ thread taskid, thread < loop.threads → state.phase thread = .holds taskid →
    taskid = thread ∨ taskid < state.counter loop
  left : ∀ thread, thread < loop.threads → state.phase thread = .done →
    loop.count ≤ thread ∨ loop.count < state.counter loop

theorem next_counter (loop : Loop) (state : State) (thread : Nat) :
    (selfNextTask loop state thread).counter loop = state.counter loop + 1 := by
  simp [State.counter, selfNextTask]

theorem drawn_next (first counter taskid : Int) (grown : first ≤ counter) :
    drawn first (counter + 1) taskid =
      drawn first counter taskid + if taskid = counter then 1 else 0 := by
  unfold drawn
  split_ifs <;> omega

theorem begun_accounted (loop : Loop) (tasks : Tasks) :
    Accounted loop ((begun loop tasks).counter loop) (begun loop tasks) where
  grown := le_refl _
  balance := by
    intro taskid _ _
    have held : Threads.total loop.threads (holdWeight taskid) (begun loop tasks).phase = 0 :=
      Threads.total_eq_zero _ _ fun _ _ => rfl
    have own : Threads.total loop.threads (ownWeight loop taskid) (begun loop tasks).phase = 0 :=
      Threads.total_eq_zero _ _ fun _ _ => by simp [ownWeight, begun]
    have none :
        drawn ((begun loop tasks).counter loop) ((begun loop tasks).counter loop) taskid = 0 := by
      unfold drawn
      split_ifs <;> omega
    rw [held, own, none]
    rfl
  held := by simp [begun]
  left := by simp [begun]

-- The phase of the thread that did not move is the old one; the counter has not
-- fallen. This settles the last two fields of the invariant for all moves.
theorem kept_held (loop : Loop) (state : State) (counter : Int) (mover : Nat) (next : Phase)
    (grows : state.counter loop ≤ counter)
    (held : ∀ thread taskid, thread < loop.threads → state.phase thread = .holds taskid →
      taskid = thread ∨ taskid < state.counter loop)
    (here : ∀ taskid, next = .holds taskid → taskid = mover ∨ taskid < counter) :
    ∀ thread taskid, thread < loop.threads →
      Function.update state.phase mover next thread = .holds taskid →
      taskid = thread ∨ taskid < counter := by
  intro thread taskid inside phase
  by_cases same : thread = mover
  · subst same
    rw [Function.update_self] at phase
    exact here taskid phase
  · rw [Function.update_of_ne same] at phase
    rcases held thread taskid inside phase with own | below
    · exact Or.inl own
    · exact Or.inr (lt_of_lt_of_le below grows)

theorem kept_left (loop : Loop) (state : State) (counter : Int) (mover : Nat) (next : Phase)
    (grows : state.counter loop ≤ counter)
    (left : ∀ thread, thread < loop.threads → state.phase thread = .done →
      loop.count ≤ thread ∨ loop.count < state.counter loop)
    (here : next = .done → loop.count ≤ mover ∨ loop.count < counter) :
    ∀ thread, thread < loop.threads → Function.update state.phase mover next thread = .done →
      loop.count ≤ thread ∨ loop.count < counter := by
  intro thread inside phase
  by_cases same : thread = mover
  · subst same
    rw [Function.update_self] at phase
    exact here phase
  · rw [Function.update_of_ne same] at phase
    rcases left thread inside phase with past | above
    · exact Or.inl past
    · exact Or.inr (lt_of_lt_of_le above grows)

/-- Drawing from the counter: the thread holds the old value of the counter. -/
theorem next_task_accounted (loop : Loop) (first : Int) (state : State) (thread : Nat)
    (inside : thread < loop.threads) (accounted : Accounted loop first state)
    (free : ∀ taskid, state.phase thread ≠ .holds taskid)
    (own : ∀ taskid, ownWeight loop taskid thread (state.phase thread) =
      ownWeight loop taskid thread (.holds (state.counter loop))) :
    Accounted loop first (selfNextTask loop state thread) where
  grown := by
    rw [next_counter]
    have grown := accounted.grown
    omega
  balance := by
    intro taskid positive below
    have balance := accounted.balance taskid positive below
    have held := Threads.total_moved (holdWeight taskid) state.phase inside
      (.holds (state.counter loop))
    have owned := Threads.total_moved (ownWeight loop taskid) state.phase inside
      (.holds (state.counter loop))
    have before : holdWeight taskid thread (state.phase thread) = 0 := by
      simp [holdWeight, free taskid]
    have after : holdWeight taskid thread (.holds (state.counter loop)) =
        if taskid = state.counter loop then 1 else 0 := by
      simp [holdWeight, eq_comm]
    rw [own taskid] at owned
    rw [before, after] at held
    rw [next_counter, drawn_next _ _ _ accounted.grown]
    change executions taskid state.log +
        Threads.total loop.threads (holdWeight taskid)
          (Function.update state.phase thread (.holds (state.counter loop))) =
      Threads.total loop.threads (ownWeight loop taskid)
          (Function.update state.phase thread (.holds (state.counter loop))) + _
    omega
  held := by
    rw [next_counter]
    refine kept_held loop state _ thread _ (by omega) accounted.held ?_
    rintro taskid same
    cases same
    exact Or.inr (Int.lt_succ _)
  left := by
    rw [next_counter]
    refine kept_left loop state _ thread _ (by omega) accounted.left ?_
    intro same
    cases same

/-- A thread moves without drawing: what it gives up and what it gains balance. -/
theorem moved_accounted (loop : Loop) (first : Int) (state : State) (thread : Nat)
    (inside : thread < loop.threads) (accounted : Accounted loop first state) (next : Phase)
    (log : List Execution)
    (gives : ∀ taskid, taskid < loop.count →
      executions taskid log + holdWeight taskid thread next +
          ownWeight loop taskid thread (state.phase thread) =
        executions taskid state.log + holdWeight taskid thread (state.phase thread) +
          ownWeight loop taskid thread next)
    (held : ∀ taskid, next = .holds taskid → taskid = thread ∨ taskid < state.counter loop)
    (left : next = .done → loop.count ≤ thread ∨ loop.count < state.counter loop) :
    Accounted loop first { state.moved thread next with log := log } where
  grown := accounted.grown
  balance := by
    intro taskid positive below
    have balance := accounted.balance taskid positive below
    have gives := gives taskid below
    have hold := Threads.total_moved (holdWeight taskid) state.phase inside next
    have own := Threads.total_moved (ownWeight loop taskid) state.phase inside next
    change executions taskid log +
        Threads.total loop.threads (holdWeight taskid) (Function.update state.phase thread next) =
      Threads.total loop.threads (ownWeight loop taskid)
          (Function.update state.phase thread next) + drawn first (state.counter loop) taskid
    omega
  held := kept_held loop state _ thread next (le_refl _) accounted.held held
  left := kept_left loop state _ thread next (le_refl _) accounted.left left

theorem step_accounted (loop : Loop) (first : Int) (before : State) (thread : Nat) (after : State)
    (accounted : Accounted loop first before) (step : Step loop before thread after) :
    Accounted loop first after := by
  obtain ⟨inside, moved⟩ := step
  rcases advance_cases loop before after thread moved with
    ⟨phase, static, same⟩ | ⟨phase, dynamic, same⟩ | ⟨taskid, phase, work, same⟩ |
    ⟨taskid, phase, idle, same⟩ | ⟨phase, same⟩
  · subst same
    refine moved_accounted loop first before thread inside accounted _ before.log ?_ ?_ ?_
    · intro taskid _
      simp [holdWeight, ownWeight, phase, static]
    · intro taskid own
      cases own
      exact Or.inl rfl
    · intro impossible
      cases impossible
  · subst same
    refine next_task_accounted loop first before thread inside accounted ?_ ?_
    · simp [phase]
    · intro taskid
      simp [ownWeight, dynamic]
  · subst same
    refine moved_accounted loop first before thread inside accounted _ _ ?_ ?_ ?_
    · intro other _
      by_cases here : taskid = other
      · simp [executions, holdWeight, ownWeight, phase, here]
      · simp [executions, holdWeight, ownWeight, phase, here]
    · intro other impossible
      cases impossible
    · intro impossible
      cases impossible
  · subst same
    refine moved_accounted loop first before thread inside accounted _ before.log ?_ ?_ ?_
    · intro other below
      have apart : taskid ≠ other := by omega
      simp [holdWeight, ownWeight, phase, apart]
    · intro other impossible
      cases impossible
    · intro _
      rcases accounted.held thread taskid inside phase with own | below
      · exact Or.inl (own ▸ idle)
      · exact Or.inr (lt_of_le_of_lt idle below)
  · subst same
    refine next_task_accounted loop first before thread inside accounted ?_ ?_
    · simp [phase]
    · intro taskid
      simp [ownWeight, phase]

/-- How many steps a thread can still take without drawing another task. -/
def phaseWeight (loop : Loop) (_ : Nat) : Phase → Nat
  | .start => 4
  | .holds taskid => if taskid < loop.count then 3 else 1
  | .ran => 2
  | .done => 0

def remaining (loop : Loop) (state : State) : Nat :=
  Threads.total loop.threads (phaseWeight loop) state.phase +
    2 * (loop.count - state.counter loop).toNat

-- Drawing a task below the count brings the counter nearer to it; drawing any
-- other one leaves the thread with a single step.
theorem next_task_falls (loop : Loop) (state : State) (thread : Nat)
    (inside : thread < loop.threads) (waits : 2 ≤ phaseWeight loop thread (state.phase thread)) :
    remaining loop (selfNextTask loop state thread) < remaining loop state := by
  have total := Threads.total_moved (phaseWeight loop) state.phase inside
    (.holds (state.counter loop))
  unfold remaining
  rw [next_counter]
  change Threads.total loop.threads (phaseWeight loop)
    (Function.update state.phase thread (.holds (state.counter loop))) + _ < _
  by_cases below : state.counter loop < loop.count
  · have drawn : phaseWeight loop thread (.holds (state.counter loop)) = 3 := by
      simp [phaseWeight, below]
    omega
  · have drawn : phaseWeight loop thread (.holds (state.counter loop)) = 1 := by
      simp [phaseWeight, below]
    omega

theorem moved_falls (loop : Loop) (state : State) (thread : Nat) (inside : thread < loop.threads)
    (next : Phase) (log : List Execution)
    (lighter : phaseWeight loop thread next < phaseWeight loop thread (state.phase thread)) :
    remaining loop { state.moved thread next with log := log } < remaining loop state := by
  have total := Threads.total_moved (phaseWeight loop) state.phase inside next
  change Threads.total loop.threads (phaseWeight loop) (Function.update state.phase thread next) +
    2 * (loop.count - state.counter loop).toNat < _
  unfold remaining
  omega

theorem step_falls (loop : Loop) (before : State) (thread : Nat) (after : State)
    (step : Step loop before thread after) : remaining loop after < remaining loop before := by
  obtain ⟨inside, moved⟩ := step
  rcases advance_cases loop before after thread moved with
    ⟨phase, _, same⟩ | ⟨phase, _, same⟩ | ⟨taskid, phase, work, same⟩ |
    ⟨taskid, phase, idle, same⟩ | ⟨phase, same⟩
  · subst same
    apply moved_falls loop before thread inside
    simp only [phase, phaseWeight]
    split_ifs <;> decide
  · subst same
    apply next_task_falls loop before thread inside
    simp [phase, phaseWeight]
  · subst same
    apply moved_falls loop before thread inside
    simp [phase, phaseWeight, work]
  · subst same
    apply moved_falls loop before thread inside
    simp [phase, phaseWeight, not_lt.mpr idle]
  · subst same
    apply next_task_falls loop before thread inside
    simp [phase, phaseWeight]

theorem unfinished_moves (loop : Loop) (state : State) (unfinished : ¬ Finished loop state) :
    ∃ thread after, Step loop state thread after := by
  unfold Finished at unfinished
  push Not at unfinished
  obtain ⟨thread, inside, running⟩ := unfinished
  refine ⟨thread, ?_⟩
  cases phase : state.phase thread with
  | start =>
      cases first : selfBegin loop.schedId loop.firstTask with
      | static => exact ⟨_, inside, by simp only [advance, phase, first]; rfl⟩
      | dynamic => exact ⟨_, inside, by simp only [advance, phase, first]; rfl⟩
  | holds taskid =>
      cases work : loop.worktodo taskid with
      | true => exact ⟨_, inside, by simp only [advance, phase, work, ↓reduceIte]; rfl⟩
      | false => exact ⟨_, inside, by simp only [advance, phase, work]; rfl⟩
  | ran => exact ⟨_, inside, by simp only [advance, phase]; rfl⟩
  | done => exact absurd phase running

theorem run_bounded (loop : Loop) (before : State) (labels : List Nat) (after : State)
    (run : Trace.Run (Step loop) before labels after) : labels.length ≤ remaining loop before := by
  have bound := Trace.Run.length_le (fun _ => True) (remaining loop) (fun _ _ _ _ _ => trivial)
    (fun before label after _ => step_falls loop before label after) run trivial
  omega

theorem exists_finished_run (loop : Loop) (before : State) :
    ∃ labels after, Trace.Run (Step loop) before labels after ∧ Finished loop after :=
  Trace.exists_finished (fun _ => True) (Finished loop) (remaining loop)
    (fun _ _ _ _ _ => trivial) (fun before label after _ => step_falls loop before label after)
    (fun state _ => unfinished_moves loop state) before trivial

theorem run_accounted (loop : Loop) (tasks : Tasks) (labels : List Nat) (state : State)
    (run : Trace.Run (Step loop) (begun loop tasks) labels state) :
    Accounted loop ((begun loop tasks).counter loop) state :=
  run.invariant (Accounted loop ((begun loop tasks).counter loop))
    (fun before thread after => step_accounted loop _ before thread after)
    (begun_accounted loop tasks)

theorem own_total (loop : Loop) (state : State) (finished : Finished loop state) (taskid : Int)
    (positive : 0 ≤ taskid) :
    Threads.total loop.threads (ownWeight loop taskid) state.phase =
      if isStatic loop = true ∧ taskid < loop.threads then 1 else 0 := by
  by_cases own : isStatic loop = true ∧ taskid < loop.threads
  · have inside : taskid.toNat < loop.threads := by omega
    have same : (taskid.toNat : Int) = taskid := Int.toNat_of_nonneg positive
    rw [if_pos own, Threads.total_single _ _ inside]
    · simp [ownWeight, own.1, same, finished _ inside]
    · intro thread _ apart
      have other : (thread : Int) ≠ taskid := by omega
      simp [ownWeight, other]
  · rw [if_neg own]
    apply Threads.total_eq_zero
    intro thread inside
    have other : ¬ (isStatic loop = true ∧ (thread : Int) = taskid) := by
      rintro ⟨static, same⟩
      exact own ⟨static, by omega⟩
    simp only [ownWeight, ← and_assoc, other, false_and, ↓reduceIte]

/-- How often a task has been run when all threads have left the loop: once as a
first task of a thread, and once more if the counter started no higher. -/
theorem finished_executions (loop : Loop) (someThread : 1 ≤ loop.threads)
    (first : Int) (state : State) (accounted : Accounted loop first state)
    (finished : Finished loop state) (taskid : Int) (positive : 0 ≤ taskid)
    (below : taskid < loop.count) :
    executions taskid state.log =
      (if isStatic loop = true ∧ taskid < loop.threads then 1 else 0) +
        if first ≤ taskid then 1 else 0 := by
  have balance := accounted.balance taskid positive below
  have none : Threads.total loop.threads (holdWeight taskid) state.phase = 0 :=
    Threads.total_eq_zero _ _ fun thread inside => by simp [holdWeight, finished thread inside]
  have passed : loop.count < state.counter loop := by
    rcases accounted.left 0 someThread (finished 0 someThread) with past | above
    · omega
    · exact above
  have all : drawn first (state.counter loop) taskid = if first ≤ taskid then 1 else 0 := by
    have inside : taskid < state.counter loop := lt_trans below passed
    simp [drawn, inside]
  rw [own_total loop state finished taskid positive, none, all] at balance
  exact balance

theorem begun_counter (loop : Loop) (tasks : Tasks) :
    (begun loop tasks).counter loop =
      if loop.firstTask = .static then tasks loop.schedId 0 else loop.threads := by
  cases first : loop.firstTask with
  | static => simp [State.counter, begun, first, selfInit, runInit]
  | dynamic => simp [State.counter, begun, first, selfInit, runInit, InitStatement.run]
  | automatic => simp [State.counter, begun, first, selfInit, runInit, InitStatement.run]

/-- The ways in which the counter that Self_INIT leaves fits the first tasks
that Self_BEGIN chooses. -/
def Matched (loop : Loop) (tasks : Tasks) : Prop :=
  loop.numTasks = 0 ∨
  (loop.firstTask = .automatic ∧ loop.schedId ≤ 0) ∨
  (loop.firstTask = .static ∧ (tasks loop.schedId 0 = loop.threads ∨
    (loop.numTasks = 1 ∧ loop.threads ≤ tasks loop.schedId 0)))

theorem executions_one (taskid : Int) (log : List Execution) :
    executions taskid log = 1 ↔
      ∃ thread, (log.filter fun execution => execution.taskid = taskid) = [⟨thread, taskid⟩] := by
  constructor
  · intro once
    obtain ⟨execution, only⟩ := List.length_eq_one_iff.mp once
    have member : execution ∈ log.filter fun execution => execution.taskid = taskid := by
      simp [only]
    have same := (List.mem_filter.mp member).2
    simp only [decide_eq_true_eq] at same
    exact ⟨execution.thread, by rw [only, ← same]⟩
  · rintro ⟨thread, only⟩
    simp [executions, only]

/-- What it takes for every task to be executed once, read off any finished run. -/
theorem executes_once_counts (loop : Loop) (tasks : Tasks) (someThread : 1 ≤ loop.threads)
    (executes : ExecutesOnce loop tasks) (taskid : Int) (positive : 0 ≤ taskid)
    (below : taskid < loop.count) :
    (if isStatic loop = true ∧ taskid < loop.threads then 1 else 0) +
      (if (begun loop tasks).counter loop ≤ taskid then 1 else 0) = 1 := by
  obtain ⟨labels, state, run, finished⟩ := exists_finished_run loop (begun loop tasks)
  have accounted := run_accounted loop tasks labels state run
  rw [← finished_executions loop someThread _ state accounted finished taskid positive below]
  exact (executions_one taskid state.log).mpr
    (executes.once labels state run finished taskid positive below)

theorem threads_le_count (loop : Loop) (someTask : 1 ≤ loop.numTasks) :
    (loop.threads : Int) ≤ loop.count := by
  have product := Nat.mul_le_mul_right loop.threads someTask
  rw [Nat.one_mul] at product
  simp only [Loop.count]
  exact_mod_cast product

theorem threads_lt_count (loop : Loop) (someThread : 1 ≤ loop.threads)
    (moreTasks : 2 ≤ loop.numTasks) : (loop.threads : Int) < loop.count := by
  have product := Nat.mul_le_mul_right loop.threads moreTasks
  have wide : loop.threads < loop.numTasks * loop.threads := by omega
  simp only [Loop.count]
  exact_mod_cast wide

/-- Without static first tasks the counter skips the task 0. -/
theorem static_of_executes (loop : Loop) (tasks : Tasks) (someThread : 1 ≤ loop.threads)
    (someTask : 1 ≤ loop.numTasks) (executes : ExecutesOnce loop tasks) :
    isStatic loop = true := by
  have enough := threads_le_count loop someTask
  have zero := executes_once_counts loop tasks someThread executes 0 (le_refl 0) (by omega)
  by_contra begins
  have dynamic : loop.firstTask ≠ .static := by
    intro first
    simp [isStatic, selfBegin, first] at begins
  have high : ¬ ((loop.threads : Int) ≤ 0) := by omega
  rw [begun_counter loop tasks, if_neg dynamic, if_neg high] at zero
  simp [begins] at zero

theorem matched_of_executes (loop : Loop) (tasks : Tasks) (someThread : 1 ≤ loop.threads)
    (executes : ExecutesOnce loop tasks) : Matched loop tasks := by
  by_cases none : loop.numTasks = 0
  · exact Or.inl none
  have begins := static_of_executes loop tasks someThread (by omega) executes
  have counter := begun_counter loop tasks
  have enough := threads_le_count loop (by omega)
  cases first : loop.firstTask with
  | dynamic => simp [isStatic, selfBegin, first] at begins
  | automatic =>
      have left : loop.schedId ≤ 0 := by
        simpa [isStatic, selfBegin, first] using begins
      exact Or.inr (Or.inl ⟨first, left⟩)
  | static =>
      rw [if_pos first] at counter
      refine Or.inr (Or.inr ⟨first, ?_⟩)
      have last := executes_once_counts loop tasks someThread executes (loop.threads - 1)
        (by omega) (by omega)
      rw [counter] at last
      simp only [begins, true_and] at last
      have high : (loop.threads : Int) ≤ tasks loop.schedId 0 := by
        split_ifs at last <;> omega
      by_cases single : loop.numTasks = 1
      · exact Or.inr ⟨single, high⟩
      · -- The first task that is nobody's own has to come from the counter.
        have next := executes_once_counts loop tasks someThread executes loop.threads (by omega)
          (threads_lt_count loop someThread (by omega))
        rw [counter] at next
        simp only [lt_irrefl, and_false, ↓reduceIte] at next
        have low : tasks loop.schedId 0 ≤ loop.threads := by
          by_contra above
          simp [above] at next
        exact Or.inl (le_antisymm low high)

/-- Every task is executed exactly once by every interleaving if and only if the
shared counter was set up to match the way the first tasks are chosen. -/
theorem executes_once_iff (loop : Loop) (tasks : Tasks) (someThread : 1 ≤ loop.threads) :
    ExecutesOnce loop tasks ↔ Matched loop tasks := by
  constructor
  · exact matched_of_executes loop tasks someThread
  · intro matched
    constructor
    · exact ⟨remaining loop (begun loop tasks),
        fun labels state run => run_bounded loop _ labels state run⟩
    · intro labels state run finished taskid positive below
      have accounted := run_accounted loop tasks labels state run
      rw [← executions_one,
        finished_executions loop someThread _ state accounted finished taskid positive below,
        begun_counter loop tasks]
      rcases matched with none | ⟨first, left⟩ | ⟨first, equal | ⟨single, above⟩⟩
      · simp only [Loop.count, none] at below
        omega
      · have begins : isStatic loop = true := by
          simp [isStatic, selfBegin, first, not_lt.mpr left]
        simp only [begins, true_and, first, reduceCtorEq, ↓reduceIte]
        split_ifs <;> omega
      · have begins : isStatic loop = true := by simp [isStatic, selfBegin, first]
        simp only [begins, true_and, first, ↓reduceIte, equal]
        split_ifs <;> omega
      · have begins : isStatic loop = true := by simp [isStatic, selfBegin, first]
        simp only [Loop.count, single] at below
        simp only [begins, true_and, first, ↓reduceIte]
        split_ifs <;> omega

/-- Two threads and four tasks of the scheduler 0. -/
def automaticLoop : Loop :=
  { schedId := 0, firstTask := .automatic, lower := 0, upper := 8, unrolling := 1
    numTasks := 2, threads := 2 }

theorem executes_once_iff_automatic : ExecutesOnce automaticLoop (fun _ _ => 0) :=
  (executes_once_iff automaticLoop _ (by decide)).mpr (Or.inr (Or.inl ⟨rfl, le_refl 0⟩))

/-- The same loop, with the first tasks taken from the counter. -/
def dynamicLoop : Loop := { automaticLoop with schedId := 1, firstTask := .dynamic }

theorem dynamic_loop_loses_tasks : ¬ ExecutesOnce dynamicLoop (fun _ _ => 0) := by
  intro executes
  have matched := matched_of_executes dynamicLoop _ (by decide) executes
  simp [Matched, dynamicLoop, automaticLoop] at matched

end Sac2c.SelfScheduling
