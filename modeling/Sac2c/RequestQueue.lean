import Mathlib.Algebra.Group.Int.Defs
import Sac2c.Links
import Sac2c.Trace

/-!
The queue of specialisation requests, SAC_UUID_enqueueRequest and SAC_UUID_dequeueRequest
(libsac/rtspec/uuid_reqqueue.c) and their copies SAC_Simple_enqueueRequest and
SAC_Simple_dequeueRequest (simple_reqqueue.c), which differ in the fields of a request only.
Nodes are addresses, 0 is NULL. A call is one step, since it runs under the queue mutex.
-/

namespace Sac2c.RequestQueue

open Links

universe u

section Model

variable {Request : Type u}

/-- uuid_reqqueue_t and simple_reqqueue_t. -/
structure ReqQueue where
  size : BitVec 32
  first : Int
  last : Int
  deriving DecidableEq

/-- The global queue, the fields of the nodes, and the thread that holds the queue mutex. -/
structure State (Request : Type u) where
  requestQueue : Option ReqQueue
  request : Int → Request
  next : Int → Int
  queueMutex : Option Nat

/-- A call returns, waits in pthread_mutex_lock for a mutex that is held, ends the program, or
dereferences NULL. -/
inductive Outcome (Request : Type u) (Value : Type) where
  | returned (value : Value) (state : State Request)
  | blocked
  | exited
  | crashed

def lock (thread : Nat) (state : State Request) : State Request :=
  { state with queueMutex := some thread }

def unlock (state : State Request) : State Request := { state with queueMutex := none }

/-- The part of the initialisation about the request queue; the list of the processed requests
has a mutex of its own. -/
def initializeQueue (thread : Nat) (allocated : Bool) (state : State Request) :
    Outcome Request Unit :=
  match state.queueMutex with
  | some _ => .blocked
  | none =>
      if allocated then
        .returned () (unlock { lock thread state with requestQueue := some ⟨0, 0, 0⟩ })
      else .exited

/-- The assignments to the fields of the node that malloc has returned. -/
def createNode (node : Int) (request : Request) (state : State Request) : State Request :=
  { state with
    request := Function.update state.request node request
    next := Function.update state.next node 0 }

def dequeueRequest (thread : Nat) (state : State Request) : Outcome Request Int :=
  match state.queueMutex with
  | some _ => .blocked
  | none =>
      match state.requestQueue with
      | none => .crashed
      | some queue =>
          -- the mutex is not given back here
          if queue.first = 0 then .returned 0 (lock thread state)
          else
            .returned queue.first (unlock { lock thread state with
              requestQueue := some
                { queue with first := state.next queue.first, size := queue.size - 1 }
              next := Function.update state.next queue.first 0 })

/-- The insertion of a node, behind the last one if there is one. -/
def insertLast (node : Int) (queue : ReqQueue) (state : State Request) : State Request :=
  if queue.first = 0 then
    { state with requestQueue := some ⟨queue.size + 1, node, node⟩ }
  else
    let next := Function.update state.next queue.last node
    { state with
      requestQueue := some { queue with last := next queue.last, size := queue.size + 1 }
      next := next }

/-- `node` is what malloc returns. -/
def enqueueRequest (thread : Nat) (node : Int) (request : Request) (state : State Request) :
    Outcome Request Unit :=
  match state.requestQueue with
  | none => .returned () state
  | some queue =>
      match state.queueMutex with
      | some _ => .blocked
      | none =>
          if node = 0 then .exited
          else
            .returned ()
              (unlock (insertLast node queue (createNode node request (lock thread state))))

/-- uuid_queue_node_t without the link; the fields that are pointers are addresses. -/
structure UuidRequest where
  funcName : Int
  uuid : Int
  typeInfo : Int
  shapeInfo : Int
  shapeInfoSize : Int
  shape : Int
  modName : Int
  key : Int
  deriving DecidableEq

/-- simple_queue_node_t without the link. -/
structure SimpleRequest where
  funcName : Int
  typeInfo : Int
  shapeInfo : Int
  shapeInfoSize : Int
  regObj : Int
  deriving DecidableEq

def uuidDequeueRequest : Nat → State UuidRequest → Outcome UuidRequest Int := dequeueRequest

def simpleDequeueRequest : Nat → State SimpleRequest → Outcome SimpleRequest Int := dequeueRequest

def uuidEnqueueRequest (thread : Nat) (node : Int)
    (funcName uuid types shapes shapesSize shape modName key : Int) :
    State UuidRequest → Outcome UuidRequest Unit :=
  enqueueRequest thread node ⟨funcName, uuid, types, shapes, shapesSize, shape, modName, key⟩

def simpleEnqueueRequest (thread : Nat) (node : Int)
    (funcName types shapes shapesSize registry : Int) :
    State SimpleRequest → Outcome SimpleRequest Unit :=
  enqueueRequest thread node ⟨funcName, types, shapes, shapesSize, registry⟩

end Model

section Steps

variable {Request : Type u}

/-- The call that has returned, with the thread, and the request it was given or has fetched. -/
inductive Label (Request : Type u) where
  | enqueued (thread : Nat) (request : Request)
  | dequeued (thread : Nat) (request : Option Request)
  | elsewhere

def fetched (state : State Request) (node : Int) : Option Request :=
  if node = 0 then none else some (state.request node)

def IsQueued (state : State Request) (node : Int) : Prop :=
  ∃ queue nodes,
    state.requestQueue = some queue ∧ Points state.next queue.first nodes ∧ node ∈ nodes

/-- The calls of the threads. malloc returns a node that is not in the queue. A node that is
not (or no longer) in the queue belongs to others, who may link it elsewhere or free it. -/
inductive Step : State Request → Label Request → State Request → Prop where
  | enqueued {thread : Nat} {node : Int} {request : Request} {before after : State Request} :
      ¬ IsQueued before node → enqueueRequest thread node request before = .returned () after →
      Step before (.enqueued thread request) after
  | dequeued {thread : Nat} {node : Int} {before after : State Request} :
      dequeueRequest thread before = .returned node after →
      Step before (.dequeued thread (fetched after node)) after
  | elsewhere {request : Int → Request} {next : Int → Int} {before : State Request} :
      (∀ node, IsQueued before node →
        request node = before.request node ∧ next node = before.next node) →
      Step before .elsewhere { before with request := request, next := next }

/-- The requests that a run has put into the queue, in order. -/
def enqueuedRequests : List (Label Request) → List Request
  | [] => []
  | .enqueued _ request :: labels => request :: enqueuedRequests labels
  | _ :: labels => enqueuedRequests labels

/-- The requests that a run has taken out of the queue, in order. -/
def dequeuedRequests : List (Label Request) → List Request
  | [] => []
  | .dequeued _ (some request) :: labels => request :: dequeuedRequests labels
  | _ :: labels => dequeuedRequests labels

/-- A state between calls, with the nodes of the queue. -/
structure Holds (state : State Request) (queue : ReqQueue) (nodes : List Int) : Prop where
  allocated : state.requestQueue = some queue
  points : Points state.next queue.first nodes
  distinct : nodes.Nodup
  size : queue.size.toInt = nodes.length
  last : ∀ node, nodes.getLast? = some node → queue.last = node
  unlocked : state.queueMutex = none

/-- What the calls of a run promise about the state it ends in. -/
def Orderly (labels : List (Label Request)) (state : State Request) : Prop :=
  (∃ queue nodes, Holds state queue nodes ∧
    enqueuedRequests labels = dequeuedRequests labels ++ nodes.map state.request) ∧
  (∀ thread, dequeueRequest thread state ≠ .blocked) ∧
  ∀ thread node request, enqueueRequest thread node request state ≠ .blocked

/-- A request is only taken from a queue that has one, and `size` does not overflow. -/
def Meets (state : State Request) : Label Request → Prop
  | .enqueued _ _ => ∀ queue, state.requestQueue = some queue → queue.size.toInt < 2 ^ 31 - 1
  | .dequeued _ _ => ∀ queue, state.requestQueue = some queue → queue.first ≠ 0
  | .elsewhere => True

end Steps

section Invariant

variable {Request : Type u} {before after : State Request} {queue : ReqQueue} {nodes : List Int}

theorem Holds.queued (holds : Holds before queue nodes) {node : Int} (inside : node ∈ nodes) :
    IsQueued before node :=
  ⟨queue, nodes, holds.allocated, holds.points, inside⟩

theorem Holds.unblocked (holds : Holds before queue nodes) :
    (∀ thread, dequeueRequest thread before ≠ .blocked) ∧
      ∀ thread node request, enqueueRequest thread node request before ≠ .blocked := by
  constructor
  · intro thread
    simp only [dequeueRequest, holds.unlocked, holds.allocated]
    split <;> simp
  · intro thread node request
    simp only [enqueueRequest, holds.unlocked, holds.allocated]
    split <;> simp

theorem size_succ {size : BitVec 32} {count : Nat} (counted : size.toInt = count)
    (room : size.toInt < 2 ^ 31 - 1) : (size + 1).toInt = (count + 1 : Nat) := by
  rw [BitVec.toInt_add, show (1 : BitVec 32).toInt = 1 from rfl, counted]
  rw [counted] at room
  rw [Int.bmod_eq_of_le (by omega) (by omega)]
  rfl

theorem size_pred {size : BitVec 32} {count : Nat} (counted : size.toInt = (count + 1 : Nat)) :
    (size - 1).toInt = count := by
  have bound := BitVec.toInt_lt (x := size)
  rw [BitVec.toInt_sub, show (1 : BitVec 32).toInt = 1 from rfl]
  rw [Int.bmod_eq_of_le] <;> omega

theorem insert_holds (holds : Holds before queue nodes) {node : Int} (nonnull : node ≠ 0)
    (fresh : node ∉ nodes) (ended : before.next node = 0)
    (room : queue.size.toInt < 2 ^ 31 - 1) :
    ∃ grown, Holds (insertLast node queue before) grown (nodes ++ [node]) := by
  have size : (queue.size + 1).toInt = (nodes ++ [node]).length := by
    rw [List.length_append]
    exact size_succ holds.size room
  have distinct : (nodes ++ [node]).Nodup :=
    List.nodup_append.mpr ⟨holds.distinct, List.nodup_singleton node, by
      rintro other inside _ alone rfl
      exact fresh (List.mem_singleton.mp alone ▸ inside)⟩
  unfold insertLast
  by_cases empty : queue.first = 0
  · rw [if_pos empty]
    have none : nodes = [] := points_null (empty ▸ holds.points)
    subst none
    exact ⟨⟨queue.size + 1, node, node⟩, rfl, ⟨rfl, nonnull, ended⟩, distinct, size,
      fun other isLast => by simpa using isLast, holds.unlocked⟩
  · rw [if_neg empty]
    obtain ⟨rest, split, _⟩ := points_nonnull holds.points empty
    obtain ⟨last, isLast⟩ : ∃ last, nodes.getLast? = some last := by
      rw [split]
      exact ⟨_, List.getLast?_eq_some_getLast (by simp)⟩
    obtain rfl := holds.last last isLast
    have inside : queue.last ∈ nodes := List.mem_of_getLast? isLast
    have differ : node ≠ queue.last := by
      rintro same
      exact fresh (same ▸ inside)
    refine ⟨_, rfl, ?_, distinct, size, ?_, holds.unlocked⟩
    · apply points_append holds.points holds.distinct nonnull isLast
      · exact Function.update_self ..
      · exact (Function.update_of_ne differ ..).trans ended
      · intro entry _ notLast
        exact Function.update_of_ne notLast ..
    · intro other otherLast
      rw [Function.update_self]
      simpa using otherLast

/-- A new request stands behind all others. -/
theorem enqueue_holds (holds : Holds before queue nodes) {thread : Nat} {node : Int}
    {request : Request} (fresh : node ∉ nodes) (room : queue.size.toInt < 2 ^ 31 - 1)
    (returned : enqueueRequest thread node request before = .returned () after) :
    ∃ grown, Holds after grown (nodes ++ [node]) ∧
      (nodes ++ [node]).map after.request = nodes.map before.request ++ [request] := by
  simp only [enqueueRequest, holds.allocated, holds.unlocked] at returned
  by_cases nonnull : node = 0
  · simp [nonnull] at returned
  · rw [if_neg nonnull] at returned
    injection returned with _ ended
    have same : ∀ other, other ∈ nodes → other ≠ node := by
      rintro other inside rfl
      exact fresh inside
    have created : Holds (unlock (createNode node request (lock thread before))) queue nodes := by
      refine ⟨holds.allocated, ?_, holds.distinct, holds.size, holds.last, rfl⟩
      apply points_congr holds.points
      intro other inside
      exact Function.update_of_ne (same other inside) ..
    obtain ⟨grown, holds⟩ := insert_holds created nonnull fresh (Function.update_self ..) room
    have swap : unlock (insertLast node queue (createNode node request (lock thread before))) =
        insertLast node queue (unlock (createNode node request (lock thread before))) := by
      unfold insertLast
      split <;> rfl
    rw [swap] at ended
    subst ended
    refine ⟨grown, holds, ?_⟩
    have kept :
        (insertLast node queue (unlock (createNode node request (lock thread before)))).request =
          Function.update before.request node request := by
      unfold insertLast
      split <;> rfl
    rw [kept, List.map_append, List.map_singleton, Function.update_self]
    congr 1
    apply List.map_congr_left
    intro other inside
    exact Function.update_of_ne (same other inside) ..

/-- The first request is taken. -/
theorem dequeue_holds (holds : Holds before queue nodes) {thread : Nat} {node : Int}
    (some : queue.first ≠ 0) (returned : dequeueRequest thread before = .returned node after) :
    ∃ shrunk rest, nodes = node :: rest ∧ node ≠ 0 ∧ Holds after shrunk rest ∧
      after.request = before.request := by
  simp only [dequeueRequest, holds.allocated, holds.unlocked, if_neg some] at returned
  injection returned with isFirst ended
  obtain ⟨rest, rfl, path⟩ := points_nonnull holds.points some
  obtain ⟨absent, distinct⟩ := List.nodup_cons.mp holds.distinct
  subst isFirst ended
  refine ⟨_, rest, rfl, some, ⟨rfl, ?_, distinct, size_pred holds.size, ?_, rfl⟩, rfl⟩
  · apply points_congr path
    intro other inside
    apply Function.update_of_ne
    rintro rfl
    exact absent inside
  · intro other isLast
    apply holds.last
    rw [List.getLast?_cons, isLast]
    rfl

/-- What is in the queue and what a step puts into it is what it takes out and what stays. -/
theorem step_holds (holds : Holds before queue nodes) {label : Label Request}
    (step : Step before label after) (meets : Meets before label) :
    ∃ queue' nodes', Holds after queue' nodes' ∧
      nodes.map before.request ++ enqueuedRequests [label] =
        dequeuedRequests [label] ++ nodes'.map after.request := by
  cases step with
  | enqueued fresh returned =>
      have absent := fun inside => fresh (holds.queued inside)
      obtain ⟨grown, holds, requests⟩ :=
        enqueue_holds holds absent (meets queue holds.allocated) returned
      exact ⟨grown, _, holds, requests.symm⟩
  | dequeued returned =>
      obtain ⟨shrunk, rest, rfl, nonnull, holds, same⟩ :=
        dequeue_holds holds (meets queue holds.allocated) returned
      refine ⟨shrunk, rest, holds, ?_⟩
      rw [fetched, if_neg nonnull, same]
      simp [enqueuedRequests, dequeuedRequests]
  | elsewhere same =>
      refine ⟨queue, nodes, ⟨holds.allocated, ?_, holds.distinct, holds.size, holds.last,
        holds.unlocked⟩, ?_⟩
      · apply points_congr holds.points
        intro node inside
        exact (same node (holds.queued inside)).2
      · have kept : nodes.map before.request = nodes.map _ := List.map_congr_left fun node inside =>
          (same node (holds.queued inside)).1.symm
        simpa [enqueuedRequests, dequeuedRequests] using kept

theorem enqueued_cons (label : Label Request) (labels : List (Label Request)) :
    enqueuedRequests (label :: labels) = enqueuedRequests [label] ++ enqueuedRequests labels := by
  cases label <;> rfl

theorem dequeued_cons (label : Label Request) (labels : List (Label Request)) :
    dequeuedRequests (label :: labels) = dequeuedRequests [label] ++ dequeuedRequests labels := by
  cases label with
  | enqueued => rfl
  | dequeued thread request => cases request <;> rfl
  | elsewhere => rfl

/-- A run by steps that meet the conditions. -/
abbrev MeetingRun (before : State Request) (labels : List (Label Request))
    (after : State Request) : Prop :=
  Trace.Run (fun state label next => Step state label next ∧ Meets state label) before labels after

theorem run_holds {labels : List (Label Request)} (run : MeetingRun before labels after)
    (holds : Holds before queue nodes) :
    ∃ queue' nodes', Holds after queue' nodes' ∧
      nodes.map before.request ++ enqueuedRequests labels =
        dequeuedRequests labels ++ nodes'.map after.request := by
  induction run generalizing queue nodes with
  | refl state => exact ⟨queue, nodes, holds, by simp [enqueuedRequests, dequeuedRequests]⟩
  | @next before middle after label labels moved _ ih =>
      obtain ⟨_, between, holds, first⟩ := step_holds holds moved.1 moved.2
      obtain ⟨queue', nodes', holds, later⟩ := ih holds
      refine ⟨queue', nodes', holds, ?_⟩
      calc nodes.map before.request ++ enqueuedRequests (label :: labels)
          = (nodes.map before.request ++ enqueuedRequests [label]) ++ enqueuedRequests labels := by
            rw [enqueued_cons label labels, List.append_assoc]
        _ = dequeuedRequests [label] ++ (between.map middle.request ++ enqueuedRequests labels) := by
            rw [first, List.append_assoc]
        _ = dequeuedRequests (label :: labels) ++ nodes'.map after.request := by
            rw [later, dequeued_cons label labels, List.append_assoc]

theorem initialize_holds {thread : Nat} {allocated : Bool}
    (returned : initializeQueue thread allocated before = .returned () after) :
    Holds after ⟨0, 0, 0⟩ [] := by
  unfold initializeQueue at returned
  split at returned
  · cases returned
  · cases allocated with
    | false => cases returned
    | true =>
        injection returned with _ ended
        subst ended
        exact ⟨rfl, rfl, List.nodup_nil, rfl, by simp, rfl⟩

end Invariant

section Results

variable {Request : Type u}

/-- From the initialisation on, as long as nothing is asked from an empty queue: first in, first
out, nothing lost or doubled, and the mutex is free between the calls. -/
theorem requests_orderly {thread : Nat} {allocated : Bool} {fresh start state : State Request}
    {labels : List (Label Request)}
    (initialized : initializeQueue thread allocated fresh = .returned () start)
    (run : MeetingRun start labels state) : Orderly labels state := by
  obtain ⟨queue, nodes, holds, requests⟩ := run_holds run (initialize_holds initialized)
  exact ⟨⟨queue, nodes, holds, requests⟩, holds.unblocked⟩

def uuidStart : State UuidRequest :=
  ⟨some ⟨0, 0, 0⟩, fun _ => ⟨0, 0, 0, 0, 0, 0, 0, 0⟩, fun _ => 0, none⟩

def uuidRequest : UuidRequest := ⟨1, 2, 3, 4, 5, 6, 7, 8⟩

def uuidQueued : State UuidRequest :=
  { uuidStart with
    requestQueue := some ⟨1, 64, 64⟩
    request := Function.update uuidStart.request 64 uuidRequest
    next := Function.update uuidStart.next 64 0 }

def uuidTaken : State UuidRequest :=
  { uuidQueued with
    requestQueue := some ⟨0, 0, 64⟩
    next := Function.update uuidQueued.next 64 0 }

theorem uuid_first_call :
    MeetingRun uuidStart [.enqueued 1 uuidRequest, .dequeued 2 (some uuidRequest)] uuidTaken := by
  have unqueued : ¬ IsQueued uuidStart 64 := by
    rintro ⟨queue, nodes, allocated, path, inside⟩
    injection allocated with isQueue
    subst isQueue
    rw [points_null path] at inside
    exact absurd inside (List.not_mem_nil)
  have called : uuidEnqueueRequest 1 64 1 2 3 4 5 6 7 8 uuidStart = .returned () uuidQueued := rfl
  have taken : uuidDequeueRequest 2 uuidQueued = .returned 64 uuidTaken := rfl
  have room : Meets uuidStart (.enqueued 1 uuidRequest) := by
    rintro queue ⟨⟩
    decide
  have some : Meets uuidQueued (.dequeued 2 (fetched uuidTaken 64)) := by
    rintro queue ⟨⟩
    decide
  exact .next ⟨.enqueued unqueued called, room⟩ (.next ⟨.dequeued taken, some⟩ (.refl _))

theorem requests_orderly_once :
    Orderly [.enqueued 1 uuidRequest, .dequeued 2 (some uuidRequest)] uuidTaken := by
  have initialized : initializeQueue 0 true { uuidStart with requestQueue := none } =
      .returned () uuidStart := rfl
  exact requests_orderly initialized uuid_first_call

/-- A thread is never going to give the mutex back. -/
structure Stuck (thread : Nat) (queue : ReqQueue) (state : State Request) : Prop where
  held : state.queueMutex = some thread
  allocated : state.requestQueue = some queue

theorem Stuck.blocks {thread : Nat} {queue : ReqQueue} {state : State Request}
    (stuck : Stuck thread queue state) :
    (∀ other, dequeueRequest other state = .blocked) ∧
      ∀ other node request, enqueueRequest other node request state = .blocked := by
  constructor
  · intro other
    simp only [dequeueRequest, stuck.held]
  · intro other node request
    simp only [enqueueRequest, stuck.held, stuck.allocated]

/-- After a call on the empty queue the threads wait for ever. -/
theorem empty_dequeue {thread : Nat} {queue : ReqQueue} {before state : State Request}
    {labels : List (Label Request)} (holds : Holds before queue []) :
    ∃ after, dequeueRequest thread before = .returned 0 after ∧
      (Trace.Run Step after labels state → Stuck thread queue state) := by
  have empty : queue.first = 0 := holds.points
  refine ⟨lock thread before, ?_, ?_⟩
  · simp only [dequeueRequest, holds.unlocked, holds.allocated, if_pos empty]
  · intro run
    refine run.invariant (Stuck thread queue) ?_ ⟨rfl, holds.allocated⟩
    intro before label after stuck step
    cases step with
    | enqueued _ returned =>
        rw [stuck.blocks.2] at returned
        cases returned
    | dequeued returned =>
        rw [stuck.blocks.1] at returned
        cases returned
    | elsewhere _ => exact ⟨stuck.held, stuck.allocated⟩

def simpleStart : State SimpleRequest :=
  ⟨some ⟨0, 0, 0⟩, fun _ => ⟨0, 0, 0, 0, 0⟩, fun _ => 0, none⟩

/-- The first call finds the queue empty; no later one returns. -/
theorem mutex_kept :
    initializeQueue 0 true { simpleStart with requestQueue := none } = .returned () simpleStart ∧
    ¬ (∀ labels state, Trace.Run Step simpleStart labels state → Orderly labels state) := by
  refine ⟨rfl, fun promised => ?_⟩
  have called : simpleDequeueRequest 1 simpleStart = .returned 0 (lock 1 simpleStart) := rfl
  have orderly := promised _ _ (.next (.dequeued called) (.refl _))
  exact orderly.2.1 2 rfl

end Results

end Sac2c.RequestQueue
