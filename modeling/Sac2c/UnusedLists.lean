import Mathlib.Logic.Function.Basic
import Sac2c.Headers
import Sac2c.Links
import Sac2c.Trace

/-!
De-allocation across threads, in the build with SAC_DO_HM_XTHR_FREE. A thread
pushes a chunk to `arena->unused_list` by compare-and-swap; the thread the arena
belongs to grabs the whole list by another one and moves its chunks to the free
list (`grab_arena_unused_list` in libsacphm/heap/heapmgr.h, the push and
`do_free_*_unused_chunks` in small_chunks.c and large_chunks.c). Each access to
shared memory is a step of its own, and the steps of the parties interleave
freely. The owner's other requests appear by what they do to its free list.
-/

namespace Sac2c.UnusedLists

open Headers Links

/-- Which of small_chunks.c and large_chunks.c serves the arena. -/
inductive Kind where
  | small
  | large
deriving DecidableEq, Repr

namespace Kind

def nextfree : Kind → Heap → Int → Int
  | .small => Heap.smallchunkNextfree
  | .large => Heap.largechunkNextfree

def setNextfree : Kind → Heap → Int → Int → Heap
  | .small => Heap.setSmallchunkNextfree
  | .large => Heap.setLargechunkNextfree

@[simp] theorem nextfree_set (kind : Kind) (heap : Heap) (header link other : Int) :
    kind.nextfree (kind.setNextfree heap header link) other =
      if other = header then link else kind.nextfree heap other := by
  cases kind with
  | small => exact Heap.small_nextfree_set_nextfree other header link
  | large => exact Heap.nextfree_set_nextfree other header link

end Kind

/-- Where a thread stands in `push_smallchunk_to_arena_unused_list` and its
sibling: before one of the three accesses of the loop. -/
inductive Push where
  | idle
  | read (freep : Int)
  | link (freep theirList : Int)
  | swap (freep theirList : Int)
deriving DecidableEq, Repr

/-- Where the owner stands in `do_free_*_unused_chunks`: before the two accesses
of `grab_arena_unused_list`, at the loop test, or in `do_free_*_chunk` with the
rest of the list saved. -/
inductive Drain where
  | idle
  | read
  | swap (theirList : Int)
  | scan (unused : Int)
  | size (unused next : Int)
  | load (unused next : Int)
  | link (unused next first : Int)
  | insert (unused next : Int)
deriving DecidableEq, Repr

/-- Who may write to a chunk. The arena holds those whose push is complete. -/
inductive Holder (Thread : Type) where
  | nobody
  | program
  | thread (thread : Thread)
  | arena

/-- `holder` is a record the code does not keep. -/
structure State (Thread : Type) where
  heap : Heap
  unusedList : Int
  push : Thread → Push
  drain : Drain
  holder : Int → Holder Thread

inductive Action (Thread : Type) where
  | free (thread : Thread) (freep : Int)
  | push (thread : Thread)
  | drain
  | handOut (lastp : Int)
  | coalesce (lastp : Int)
  | carve (freep : Int)
  | store (heap : Heap)

variable {Thread : Type} (kind : Kind) (freelist : Int)

section Steps

variable [DecidableEq Thread]

def State.pushing (state : State Thread) (thread : Thread) (push : Push) : State Thread :=
  { state with push := Function.update state.push thread push }

def State.hold (state : State Thread) (chunk : Int) (holder : Holder Thread) : State Thread :=
  { state with holder := Function.update state.holder chunk holder }

/-- The next access of a thread in the push. -/
def pushToArenaUnusedList (state : State Thread) (thread : Thread) : Option (State Thread) :=
  match state.push thread with
  | .idle => none
  | .read freep => some (state.pushing thread (.link freep state.unusedList))
  | .link freep theirList =>
      some { state.pushing thread (.swap freep theirList) with
        heap := kind.setNextfree state.heap freep theirList }
  | .swap freep theirList =>
      if state.unusedList = theirList then
        some { (state.pushing thread .idle).hold freep .arena with unusedList := freep }
      else some (state.pushing thread (.read freep))

/-- The head of `do_free_*_chunk`: large chunks record their size behind the end. -/
def doFreeChunk (unused next : Int) : Drain :=
  match kind with
  | .small => .load unused next
  | .large => .size unused next

/-- The next access of the owner while it frees the unused chunks. -/
def doFreeUnusedChunks (state : State Thread) : State Thread :=
  match state.drain with
  | .idle => { state with drain := .read }
  | .read => { state with drain := .swap state.unusedList }
  | .swap theirList =>
      if state.unusedList = theirList then { state with unusedList := 0, drain := .scan theirList }
      else { state with drain := .read }
  | .scan unused =>
      if unused = 0 then { state with drain := .idle }
      else { state with drain := doFreeChunk kind unused (kind.nextfree state.heap unused) }
  | .size unused next =>
      { state with
        drain := .load unused next
        heap := state.heap.setLargechunkPrevsize (unused + state.heap.largechunkSize unused)
          (state.heap.largechunkSize unused) }
  | .load unused next =>
      { state with drain := .link unused next (kind.nextfree state.heap freelist) }
  | .link unused next first =>
      { state with
        drain := .insert unused next
        heap := kind.setNextfree state.heap unused first }
  | .insert unused next =>
      { state with
        drain := .scan next
        heap := kind.setNextfree state.heap freelist unused }

/-- The entry behind `lastp` leaves the free list. -/
def unlink (state : State Thread) (lastp : Int) (holder : Holder Thread) : State Thread :=
  let freep := kind.nextfree state.heap lastp
  { state.hold freep holder with
    heap := kind.setNextfree state.heap lastp (kind.nextfree state.heap freep) }

/-- The steps of the parties. A thread frees chunks the program holds. The owner
hands out an entry of its free list, merges one with its neighbour, or hands out
a chunk it cuts from a larger one; all memory but the links of the free list,
of the unused chunks and of the chunks under way may change at any time. -/
inductive Step : State Thread → Action Thread → State Thread → Prop where
  | free {state : State Thread} {thread : Thread} {freep : Int} :
      state.push thread = .idle → state.holder freep = .program →
      Step state (.free thread freep)
        ((state.pushing thread (.read freep)).hold freep (.thread thread))
  | push {state state' : State Thread} {thread : Thread} :
      pushToArenaUnusedList kind state thread = some state' → Step state (.push thread) state'
  | drain {state : State Thread} : Step state .drain (doFreeUnusedChunks kind freelist state)
  | handOut {state : State Thread} {lastp : Int} :
      state.drain = .idle → Walked (kind.nextfree state.heap) freelist lastp →
      kind.nextfree state.heap lastp ≠ 0 →
      Step state (.handOut lastp) (unlink kind state lastp .program)
  | coalesce {state : State Thread} {lastp : Int} :
      state.drain = .idle → Walked (kind.nextfree state.heap) freelist lastp →
      kind.nextfree state.heap lastp ≠ 0 →
      Step state (.coalesce lastp) (unlink kind state lastp .nobody)
  | carve {state : State Thread} {freep : Int} :
      state.drain = .idle → state.holder freep = .nobody → freep ≠ 0 → freep ≠ freelist →
      Step state (.carve freep) (state.hold freep .program)
  | store {state : State Thread} {heap : Heap} :
      kind.nextfree heap freelist = kind.nextfree state.heap freelist →
      (∀ chunk, state.holder chunk = .arena → kind.nextfree heap chunk =
        kind.nextfree state.heap chunk) →
      (∀ chunk thread, state.holder chunk = .thread thread → kind.nextfree heap chunk =
        kind.nextfree state.heap chunk) →
      Step state (.store heap) { state with heap }

end Steps

/-- The list the owner is draining, with the chunk it is about to insert. -/
def Draining (next : Int → Int) : Drain → List Int → Prop
  | .idle, nodes => nodes = []
  | .read, nodes => nodes = []
  | .swap _, nodes => nodes = []
  | .scan unused, nodes => Points next unused nodes
  | .size unused rest, nodes => ∃ others, nodes = unused :: others ∧ Points next rest others
  | .load unused rest, nodes => ∃ others, nodes = unused :: others ∧ Points next rest others
  | .link unused rest _, nodes => ∃ others, nodes = unused :: others ∧ Points next rest others
  | .insert unused rest, nodes => ∃ others, nodes = unused :: others ∧ Points next rest others

/-- The unused list, the list being drained and the free list end in null, and
each chunk the arena holds stands once in one of them. -/
structure Accounted (state : State Thread) (pushed drained freed : List Int) : Prop where
  unused : Points (kind.nextfree state.heap) state.unusedList pushed
  draining : Draining (kind.nextfree state.heap) state.drain drained
  free : Linked (kind.nextfree state.heap) freelist freed
  distinct : (pushed ++ drained ++ freed).Nodup
  held : ∀ chunk, state.holder chunk = .arena ↔ chunk ∈ pushed ++ drained ++ freed

/-- No de-allocation is under way. -/
structure Started (state : State Thread) (freed : List Int) : Prop where
  unused : state.unusedList = 0
  push : ∀ thread, state.push thread = .idle
  drain : state.drain = .idle
  free : Linked (kind.nextfree state.heap) freelist freed
  distinct : freed.Nodup
  held : ∀ chunk, state.holder chunk = .arena ↔ chunk ∈ freed
  dummy : state.holder freelist = .nobody
  null : state.holder 0 = .nobody

section Invariant

/-- A chunk under way is held by its thread; once linked it keeps the link. -/
def Pushing (next : Int → Int) (holder : Int → Holder Thread) (thread : Thread) : Push → Prop
  | .idle => True
  | .read freep => holder freep = .thread thread
  | .link freep _ => holder freep = .thread thread
  | .swap freep theirList => holder freep = .thread thread ∧ next freep = theirList

/-- What the owner has read or written of the free list still holds. -/
def Relinking (next : Int → Int) : Drain → Prop
  | .link _ _ first => next freelist = first
  | .insert unused _ => next unused = next freelist
  | _ => True

structure Valid (state : State Thread) : Prop where
  accounted : ∃ pushed drained freed, Accounted kind freelist state pushed drained freed
  dummy : state.holder freelist = .nobody
  null : state.holder 0 = .nobody
  pushing : ∀ thread,
    Pushing (kind.nextfree state.heap) state.holder thread (state.push thread)
  relinking : Relinking freelist (kind.nextfree state.heap) state.drain

variable {kind freelist} {state : State Thread} {thread : Thread}

theorem draining_congr {next changed : Int → Int} {drain : Drain} {nodes : List Int}
    (path : Draining next drain nodes) (same : ∀ node, node ∈ nodes → changed node = next node) :
    Draining changed drain nodes := by
  cases drain with
  | idle => exact path
  | read => exact path
  | swap theirList => exact path
  | scan unused => exact points_congr path same
  | size unused rest | load unused rest | link unused rest first | insert unused rest =>
      obtain ⟨others, rfl, path⟩ := path
      refine ⟨others, rfl, points_congr path ?_⟩
      intro node inside
      exact same node (List.mem_cons_of_mem unused inside)

/-- The lists survive a change of memory away from their links. -/
theorem Accounted.frame {pushed drained freed : List Int} {heap : Heap}
    (accounted : Accounted kind freelist state pushed drained freed)
    (dummy : kind.nextfree heap freelist = kind.nextfree state.heap freelist)
    (kept : ∀ chunk, state.holder chunk = .arena →
      kind.nextfree heap chunk = kind.nextfree state.heap chunk) :
    Accounted kind freelist { state with heap } pushed drained freed := by
  have inside : ∀ chunk, chunk ∈ pushed ++ drained ++ freed →
      kind.nextfree heap chunk = kind.nextfree state.heap chunk :=
    fun chunk member => kept chunk ((accounted.held chunk).mpr member)
  simp only [List.mem_append] at inside
  refine ⟨?_, ?_, ?_, accounted.distinct, accounted.held⟩
  · apply points_congr accounted.unused
    intro node member
    exact inside node (Or.inl (Or.inl member))
  · apply draining_congr accounted.draining
    intro node member
    exact inside node (Or.inl (Or.inr member))
  · apply reaches_congr accounted.free
    rintro entry (rfl | member)
    · exact dummy
    · exact inside entry (Or.inr member)

/-- A chunk that is not the arena's changes hands. -/
theorem Accounted.pass {pushed drained freed : List Int} {freep : Int} {holder : Holder Thread}
    (accounted : Accounted kind freelist state pushed drained freed)
    (before : state.holder freep ≠ .arena) (after : holder ≠ .arena) :
    Accounted kind freelist (state.hold freep holder) pushed drained freed := by
  refine ⟨accounted.unused, accounted.draining, accounted.free, accounted.distinct, ?_⟩
  intro chunk
  rw [← accounted.held, State.hold]
  dsimp only
  by_cases same : chunk = freep
  · rw [same, Function.update_self]
    exact iff_of_false after before
  · rw [Function.update_of_ne same]

theorem pushing_congr {next changed : Int → Int} {before after : Int → Holder Thread}
    {push : Push} (pushing : Pushing next before thread push)
    (held : ∀ chunk, before chunk = .thread thread → after chunk = .thread thread)
    (same : ∀ chunk, before chunk = .thread thread → changed chunk = next chunk) :
    Pushing changed after thread push := by
  cases push with
  | idle => exact trivial
  | read freep => exact held freep pushing
  | link freep theirList => exact held freep pushing
  | swap freep theirList =>
      exact ⟨held freep pushing.1, (same freep pushing.1).trans pushing.2⟩

theorem Valid.held_apart (valid : Valid kind freelist state) {chunk : Int}
    (held : state.holder chunk = .thread thread) :
    chunk ≠ freelist ∧ chunk ≠ 0 ∧ state.holder chunk ≠ .arena := by
  refine ⟨?_, ?_, ?_⟩
  · rintro rfl
    exact nomatch held.symm.trans valid.dummy
  · rintro rfl
    exact nomatch held.symm.trans valid.null
  · intro arena
    exact nomatch held.symm.trans arena

/-- A chunk of the program, or of nobody, gets a new holder. -/
theorem Valid.pass (valid : Valid kind freelist state) {freep : Int} {holder : Holder Thread}
    (nonnull : freep ≠ 0) (chunk : freep ≠ freelist) (unlisted : state.holder freep ≠ .arena)
    (unpushed : ∀ thread, state.holder freep ≠ .thread thread) (after : holder ≠ .arena) :
    Valid kind freelist (state.hold freep holder) := by
  obtain ⟨pushed, drained, freed, accounted⟩ := valid.accounted
  refine ⟨⟨pushed, drained, freed, accounted.pass unlisted after⟩, ?_, ?_, ?_, valid.relinking⟩
  · exact (Function.update_of_ne (Ne.symm chunk) ..).trans valid.dummy
  · exact (Function.update_of_ne (Ne.symm nonnull) ..).trans valid.null
  · intro thread
    apply pushing_congr (valid.pushing thread)
    · intro other held
      have differ : other ≠ freep := by
        rintro rfl
        exact unpushed thread held
      exact (Function.update_of_ne differ ..).trans held
    · exact fun _ _ => rfl

/-- What the owner knows of its free list survives the same changes. -/
theorem Valid.relinked (valid : Valid kind freelist state) {heap : Heap}
    (dummy : kind.nextfree heap freelist = kind.nextfree state.heap freelist)
    (kept : ∀ chunk, state.holder chunk = .arena →
      kind.nextfree heap chunk = kind.nextfree state.heap chunk) :
    Relinking freelist (kind.nextfree heap) state.drain := by
  obtain ⟨pushed, drained, freed, accounted⟩ := valid.accounted
  have known := valid.relinking
  cases stage : state.drain with
  | idle | read | swap theirList | scan unused | size unused rest | load unused rest =>
      exact trivial
  | link unused rest first =>
      rw [stage] at known
      exact dummy.trans known
  | insert unused rest =>
      have draining := accounted.draining
      rw [stage] at known draining
      obtain ⟨others, rfl, _⟩ := draining
      have arena : state.holder unused = .arena := by
        apply (accounted.held unused).mpr
        simp
      exact (kept unused arena).trans (known.trans dummy.symm)

section Threads

variable [DecidableEq Thread]

/-- One thread gets to another place in the push. -/
theorem Valid.advance (valid : Valid kind freelist state) {push : Push}
    (pushing : Pushing (kind.nextfree state.heap) state.holder thread push) :
    Valid kind freelist (state.pushing thread push) := by
  obtain ⟨pushed, drained, freed, accounted⟩ := valid.accounted
  refine ⟨⟨pushed, drained, freed, accounted.unused, accounted.draining, accounted.free,
    accounted.distinct, accounted.held⟩, valid.dummy, valid.null, ?_, valid.relinking⟩
  intro other
  by_cases same : other = thread
  · subst same
    simpa only [State.pushing, Function.update_self] using pushing
  · simpa only [State.pushing, Function.update_of_ne same] using valid.pushing other

theorem free_valid (valid : Valid kind freelist state) {freep : Int}
    (held : state.holder freep = .program) :
    Valid kind freelist
      ((state.pushing thread (.read freep)).hold freep (.thread thread)) := by
  have chunk : freep ≠ freelist := by
    rintro rfl
    exact nomatch held.symm.trans valid.dummy
  have nonnull : freep ≠ 0 := by
    rintro rfl
    exact nomatch held.symm.trans valid.null
  have passed : Valid kind freelist (state.hold freep (.thread thread)) := by
    apply valid.pass nonnull chunk
    · exact fun arena => nomatch held.symm.trans arena
    · exact fun _ other => nomatch held.symm.trans other
    · exact nofun
  exact passed.advance
    (Function.update_self .. : Pushing (kind.nextfree state.heap) _ thread (.read freep))

/-- The write of the link touches the chunk of the thread only. -/
theorem link_valid (valid : Valid kind freelist state) {freep : Int} (theirList : Int)
    (held : state.holder freep = .thread thread) :
    Valid kind freelist { state.pushing thread (.swap freep theirList) with
      heap := kind.setNextfree state.heap freep theirList } := by
  obtain ⟨chunk, nonnull, unlisted⟩ := valid.held_apart held
  obtain ⟨pushed, drained, freed, accounted⟩ := valid.accounted
  have other : ∀ entry, entry ≠ freep →
      kind.nextfree (kind.setNextfree state.heap freep theirList) entry =
        kind.nextfree state.heap entry := by
    intro entry differ
    rw [Kind.nextfree_set, if_neg differ]
  have listed : ∀ entry, state.holder entry = .arena → entry ≠ freep := by
    rintro entry arena rfl
    exact unlisted arena
  have framed := accounted.frame (other freelist (Ne.symm chunk))
    (fun entry arena => other entry (listed entry arena))
  refine ⟨⟨pushed, drained, freed, framed.unused, framed.draining, framed.free, framed.distinct,
    framed.held⟩, valid.dummy, valid.null, ?_, ?_⟩
  · intro mover
    by_cases same : mover = thread
    · subst same
      dsimp only [State.pushing]
      rw [Function.update_self]
      exact ⟨held, by rw [Kind.nextfree_set, if_pos rfl]⟩
    · dsimp only [State.pushing]
      rw [Function.update_of_ne same]
      apply pushing_congr (valid.pushing mover) (fun _ kept => kept)
      rintro entry kept
      apply other
      rintro rfl
      exact same (Holder.thread.inj (kept.symm.trans held))
  · exact valid.relinked (other freelist (Ne.symm chunk))
      (fun entry arena => other entry (listed entry arena))

/-- The swap makes the chunk the head of the unused list. -/
theorem swap_valid (valid : Valid kind freelist state) {freep : Int}
    (held : state.holder freep = .thread thread)
    (linked : kind.nextfree state.heap freep = state.unusedList) :
    Valid kind freelist
      { (state.pushing thread .idle).hold freep .arena with unusedList := freep } := by
  obtain ⟨chunk, nonnull, unlisted⟩ := valid.held_apart held
  obtain ⟨pushed, drained, freed, accounted⟩ := valid.accounted
  have fresh := (accounted.held freep).not.mp unlisted
  refine ⟨⟨freep :: pushed, drained, freed, ?_⟩, ?_, ?_, ?_, valid.relinking⟩
  · refine ⟨⟨rfl, nonnull, linked ▸ accounted.unused⟩, accounted.draining, accounted.free, ?_, ?_⟩
    · exact List.nodup_cons.mpr ⟨fresh, accounted.distinct⟩
    · intro other
      dsimp only [State.hold, State.pushing]
      by_cases same : other = freep
      · subst same
        rw [Function.update_self]
        exact iff_of_true rfl (List.mem_cons_self ..)
      · rw [Function.update_of_ne same, accounted.held, List.cons_append, List.cons_append,
          List.mem_cons, or_iff_right same]
  · exact (Function.update_of_ne (Ne.symm chunk) ..).trans valid.dummy
  · exact (Function.update_of_ne (Ne.symm nonnull) ..).trans valid.null
  · intro mover
    dsimp only [State.hold, State.pushing]
    by_cases same : mover = thread
    · subst same
      rw [Function.update_self]
      exact trivial
    · rw [Function.update_of_ne same]
      apply pushing_congr (valid.pushing mover)
      · intro other kept
        have differ : other ≠ freep := by
          rintro rfl
          exact same (Holder.thread.inj (kept.symm.trans held))
        exact (Function.update_of_ne differ ..).trans kept
      · exact fun _ _ => rfl

theorem push_valid {state' : State Thread} (valid : Valid kind freelist state)
    (moved : pushToArenaUnusedList kind state thread = some state') :
    Valid kind freelist state' := by
  have pushing := valid.pushing thread
  rw [pushToArenaUnusedList] at moved
  cases stage : state.push thread with
  | idle =>
      rw [stage] at moved
      cases moved
  | read freep =>
      rw [stage] at moved pushing
      cases moved
      exact valid.advance pushing
  | link freep theirList =>
      rw [stage] at moved pushing
      cases moved
      exact link_valid valid theirList pushing
  | swap freep theirList =>
      rw [stage] at moved pushing
      obtain ⟨held, linked⟩ := pushing
      dsimp only at moved
      split at moved
      · next unchanged =>
          cases moved
          exact swap_valid valid held (linked.trans unchanged.symm)
      · -- another thread has been faster: the loop starts again
        cases moved
        have again : Pushing (kind.nextfree state.heap) state.holder thread (.read freep) := held
        exact valid.advance again

end Threads

/-- The owner gets to another place without a write. -/
theorem Valid.proceed (valid : Valid kind freelist state) (drain : Drain)
    (draining : ∀ drained, Draining (kind.nextfree state.heap) state.drain drained →
      Draining (kind.nextfree state.heap) drain drained)
    (relinking : Relinking freelist (kind.nextfree state.heap) drain) :
    Valid kind freelist { state with drain } := by
  obtain ⟨pushed, drained, freed, accounted⟩ := valid.accounted
  exact ⟨⟨pushed, drained, freed, accounted.unused, draining drained accounted.draining,
    accounted.free, accounted.distinct, accounted.held⟩, valid.dummy, valid.null, valid.pushing,
    relinking⟩

/-- Memory changes away from every link that counts. -/
theorem store_valid (valid : Valid kind freelist state) {heap : Heap}
    (dummy : kind.nextfree heap freelist = kind.nextfree state.heap freelist)
    (listed : ∀ chunk, state.holder chunk = .arena →
      kind.nextfree heap chunk = kind.nextfree state.heap chunk)
    (pushed : ∀ chunk thread, state.holder chunk = .thread thread →
      kind.nextfree heap chunk = kind.nextfree state.heap chunk) :
    Valid kind freelist { state with heap } := by
  obtain ⟨onList, drained, freed, accounted⟩ := valid.accounted
  refine ⟨⟨onList, drained, freed, accounted.frame dummy listed⟩, valid.dummy, valid.null, ?_,
    valid.relinked dummy listed⟩
  intro thread
  exact pushing_congr (valid.pushing thread) (fun _ held => held)
    (fun chunk held => pushed chunk thread held)

/-- The compare-and-swap of the owner takes the whole list. -/
theorem grab_valid (valid : Valid kind freelist state) {theirList : Int}
    (stage : state.drain = .swap theirList) (unchanged : state.unusedList = theirList) :
    Valid kind freelist { state with unusedList := 0, drain := .scan theirList } := by
  obtain ⟨pushed, drained, freed, accounted⟩ := valid.accounted
  have empty := accounted.draining
  rw [stage] at empty
  have nothing : drained = [] := empty
  subst nothing
  refine ⟨⟨[], pushed, freed, rfl, unchanged ▸ accounted.unused, accounted.free, ?_, ?_⟩,
    valid.dummy, valid.null, valid.pushing, trivial⟩
  · simpa using accounted.distinct
  · intro chunk
    simpa using accounted.held chunk

/-- The owner alone writes to the links of the chunk it moves and of the free list. -/
theorem Valid.after_write (valid : Valid kind freelist state) {entry : Int} (link : Int)
    {drain : Drain} (pushed drained freed : List Int)
    (own : entry = freelist ∨ state.holder entry = .arena)
    (accounted : Accounted kind freelist
      { state with drain, heap := kind.setNextfree state.heap entry link } pushed drained freed)
    (relinking : Relinking freelist
      (kind.nextfree (kind.setNextfree state.heap entry link)) drain) :
    Valid kind freelist
      { state with drain, heap := kind.setNextfree state.heap entry link } := by
  refine ⟨⟨pushed, drained, freed, accounted⟩, valid.dummy, valid.null, ?_, relinking⟩
  intro thread
  apply pushing_congr (valid.pushing thread) (fun _ held => held)
  intro chunk held
  obtain ⟨notDummy, _, unlisted⟩ := valid.held_apart held
  rw [Kind.nextfree_set, if_neg]
  rintro rfl
  exact own.elim notDummy unlisted

/-- `SAC_HM_*CHUNK_NEXTFREE (freep) = SAC_HM_*CHUNK_NEXTFREE (arena->freelist)` -/
theorem relink_valid (valid : Valid kind freelist state) {unused next first : Int}
    (stage : state.drain = .link unused next first) :
    Valid kind freelist
      { state with
        drain := .insert unused next
        heap := kind.setNextfree state.heap unused first } := by
  obtain ⟨pushed, drained, freed, accounted⟩ := valid.accounted
  have known := valid.relinking
  have draining := accounted.draining
  rw [stage] at known draining
  obtain ⟨others, rfl, path⟩ := draining
  have arena : state.holder unused = .arena := (accounted.held unused).mpr (by simp)
  have chunk : freelist ≠ unused := by
    rintro rfl
    exact nomatch arena.symm.trans valid.dummy
  have other : ∀ entry, entry ≠ unused →
      kind.nextfree (kind.setNextfree state.heap unused first) entry =
        kind.nextfree state.heap entry := by
    intro entry differ
    rw [Kind.nextfree_set, if_neg differ]
  -- the chunk that moves stands in no other place
  have apart := accounted.distinct
  rw [List.append_assoc, List.cons_append, List.perm_middle.nodup_iff, List.nodup_cons] at apart
  have fresh := apart.1
  simp only [List.mem_append, not_or] at fresh
  apply valid.after_write first pushed (unused :: others) freed (Or.inr arena)
  · refine ⟨?_, ⟨others, rfl, ?_⟩, ?_, accounted.distinct, accounted.held⟩
    · apply points_congr accounted.unused
      rintro node member
      exact other node (fun same => fresh.1 (same ▸ member))
    · apply points_congr path
      rintro node member
      exact other node (fun same => fresh.2.1 (same ▸ member))
    · apply reaches_congr accounted.free
      rintro entry (rfl | member)
      · exact other _ chunk
      · exact other entry (fun same => fresh.2.2 (same ▸ member))
  · show kind.nextfree _ unused = kind.nextfree _ freelist
    rw [other freelist chunk, Kind.nextfree_set, if_pos rfl]
    exact known.symm

/-- `SAC_HM_*CHUNK_NEXTFREE (arena->freelist) = freep` -/
theorem insert_valid (valid : Valid kind freelist state) {unused next : Int}
    (stage : state.drain = .insert unused next) :
    Valid kind freelist
      { state with
        drain := .scan next
        heap := kind.setNextfree state.heap freelist unused } := by
  obtain ⟨pushed, drained, freed, accounted⟩ := valid.accounted
  have known := valid.relinking
  have draining := accounted.draining
  rw [stage] at known draining
  obtain ⟨others, rfl, path⟩ := draining
  have inside : ∀ chunk, state.holder chunk = .arena →
      kind.nextfree (kind.setNextfree state.heap freelist unused) chunk =
        kind.nextfree state.heap chunk := by
    intro chunk arena
    rw [Kind.nextfree_set, if_neg]
    rintro rfl
    exact nomatch arena.symm.trans valid.dummy
  have held := accounted.held
  simp only [List.mem_append, List.mem_cons] at held
  have arena : state.holder unused = .arena := (held unused).mpr (Or.inl (Or.inr (Or.inl rfl)))
  have nonnull : unused ≠ 0 := by
    rintro rfl
    exact nomatch arena.symm.trans valid.null
  apply valid.after_write unused pushed others (unused :: freed) (Or.inl rfl)
  · refine ⟨?_, ?_, ?_, ?_, ?_⟩
    · apply points_congr accounted.unused
      intro node member
      exact inside node ((held node).mpr (Or.inl (Or.inl member)))
    · apply points_congr path
      intro node member
      exact inside node ((held node).mpr (Or.inl (Or.inr (Or.inr member))))
    · apply linked_push accounted.free nonnull
      · rw [Kind.nextfree_set, if_pos rfl]
      · exact (inside unused arena).trans known
      · intro node member
        exact inside node ((held node).mpr (Or.inr member))
    · have moved := accounted.distinct
      rw [List.append_assoc, List.cons_append, List.perm_middle.nodup_iff] at moved
      rw [List.perm_middle.nodup_iff, List.append_assoc]
      exact moved
    · intro chunk
      rw [held]
      simp only [List.mem_append, List.mem_cons]
      tauto
  · exact trivial

theorem drain_valid (valid : Valid kind freelist state) :
    Valid kind freelist (doFreeUnusedChunks kind freelist state) := by
  rw [doFreeUnusedChunks]
  cases stage : state.drain with
  | idle =>
      apply valid.proceed .read _ trivial
      intro drained empty
      rw [stage] at empty
      exact empty
  | read =>
      apply valid.proceed (.swap state.unusedList) _ trivial
      intro drained empty
      rw [stage] at empty
      exact empty
  | swap theirList =>
      dsimp only
      split
      · next unchanged => exact grab_valid valid stage unchanged
      · -- a push has come in between: the loop starts again
        apply valid.proceed .read _ trivial
        intro drained empty
        rw [stage] at empty
        exact empty
  | scan unused =>
      dsimp only
      split
      · next null =>
          subst null
          apply valid.proceed .idle _ trivial
          intro drained path
          rw [stage] at path
          exact points_null path
      · next nonnull =>
          have opened : ∀ drained, Draining (kind.nextfree state.heap) state.drain drained →
              ∃ others, drained = unused :: others ∧
                Points (kind.nextfree state.heap) (kind.nextfree state.heap unused) others := by
            intro drained path
            rw [stage] at path
            exact points_nonnull path nonnull
          cases kind with
          | small => exact valid.proceed (.load unused _) opened trivial
          | large => exact valid.proceed (.size unused _) opened trivial
  | size unused next =>
      -- the word written is no link
      have links : ∀ chunk, kind.nextfree (state.heap.setLargechunkPrevsize
          (unused + state.heap.largechunkSize unused) (state.heap.largechunkSize unused)) chunk =
            kind.nextfree state.heap chunk := by
        intro chunk
        cases kind with
        | small => rfl
        | large => rfl
      have stored := store_valid valid (links freelist) (fun chunk _ => links chunk)
        (fun chunk _ _ => links chunk)
      apply stored.proceed (.load unused next) _ trivial
      intro drained path
      rw [stage] at path
      exact path
  | load unused next =>
      apply valid.proceed (.link unused next _) _ rfl
      intro drained path
      rw [stage] at path
      exact path
  | link unused next first => exact relink_valid valid stage
  | insert unused next => exact insert_valid valid stage

/-- An entry leaves the free list. -/
theorem unlink_valid (valid : Valid kind freelist state) {lastp : Int} {holder : Holder Thread}
    (idle : state.drain = .idle) (walked : Walked (kind.nextfree state.heap) freelist lastp)
    (nonnull : kind.nextfree state.heap lastp ≠ 0) (after : holder ≠ .arena) :
    Valid kind freelist (unlink kind state lastp holder) := by
  obtain ⟨pushed, drained, freed, accounted⟩ := valid.accounted
  have empty := accounted.draining
  rw [idle] at empty
  have nothing : drained = [] := empty
  subst nothing
  obtain ⟨front, back, split, isLast⟩ := walked_splits accounted.free walked nonnull
  have held := accounted.held
  have distinct := accounted.distinct
  have path := accounted.free
  rw [List.append_nil, split] at held distinct
  rw [split] at path
  have inFree : lastp = freelist ∨ lastp ∈ front := isLast ▸ last_entry_mem freelist front
  -- the link is written in the dummy or in a chunk that the arena holds
  have own : lastp = freelist ∨ state.holder lastp = .arena := by
    apply inFree.imp_right
    intro member
    exact (held lastp).mpr (by simp [member])
  have arena : state.holder (kind.nextfree state.heap lastp) = .arena :=
    (held _).mpr (by simp)
  have notDummy : ∀ chunk, state.holder chunk = .arena → chunk ≠ freelist := by
    rintro chunk isArena rfl
    exact nomatch isArena.symm.trans valid.dummy
  have apart : ∀ node, node ∈ pushed → node ≠ lastp := by
    rintro node member rfl
    rcases inFree with same | inFront
    · exact notDummy node ((held node).mpr (by simp [member])) same
    · exact (List.nodup_append.mp distinct).2.2 node member node (by simp [inFront]) rfl
  -- the entry is taken out of the free list; what the chunks are held by follows from that
  have removed := distinct
  rw [← List.append_assoc, List.perm_middle.nodup_iff, List.nodup_cons, List.append_assoc]
    at removed
  refine ⟨⟨pushed, [], front ++ back, ?_, ?_, ?_, ?_, ?_⟩, ?_, ?_, ?_, ?_⟩
  · apply points_congr accounted.unused
    intro node member
    exact (Kind.nextfree_set ..).trans (if_neg (apart node member))
  · exact idle ▸ rfl
  · apply linked_unlink path
    · apply List.nodup_cons.mpr ⟨_, (List.nodup_append.mp distinct).2.1⟩
      intro member
      exact notDummy freelist ((held freelist).mpr (List.mem_append_right pushed member)) rfl
    · rw [isLast]
      exact (Kind.nextfree_set ..).trans (if_pos rfl)
    · intro entry differ
      rw [isLast] at differ
      exact (Kind.nextfree_set ..).trans (if_neg differ)
  · rw [List.append_nil]
    exact removed.2
  · intro chunk
    rw [List.append_nil]
    dsimp only [unlink, State.hold]
    by_cases same : chunk = kind.nextfree state.heap lastp
    · subst same
      rw [Function.update_self]
      exact iff_of_false after removed.1
    · rw [Function.update_of_ne same, held]
      simp only [List.mem_append, List.mem_cons, same, false_or]
  · exact (Function.update_of_ne (Ne.symm (notDummy _ arena)) ..).trans valid.dummy
  · exact (Function.update_of_ne (Ne.symm nonnull) ..).trans valid.null
  · intro thread
    apply pushing_congr (valid.pushing thread)
    · intro chunk isHeld
      have differ : chunk ≠ kind.nextfree state.heap lastp := by
        rintro rfl
        exact nomatch isHeld.symm.trans arena
      exact (Function.update_of_ne differ ..).trans isHeld
    · intro chunk isHeld
      have differ : chunk ≠ lastp := by
        rintro rfl
        exact own.elim (valid.held_apart isHeld).1 (valid.held_apart isHeld).2.2
      exact (Kind.nextfree_set ..).trans (if_neg differ)
  · exact idle ▸ trivial

theorem step_valid [DecidableEq Thread] {before after : State Thread} {action : Action Thread}
    (valid : Valid kind freelist before) (moved : Step kind freelist before action after) :
    Valid kind freelist after := by
  cases moved with
  | free idle held => exact free_valid valid held
  | push moved => exact push_valid valid moved
  | drain => exact drain_valid valid
  | handOut idle walked nonnull => exact unlink_valid valid idle walked nonnull nofun
  | coalesce idle walked nonnull => exact unlink_valid valid idle walked nonnull nofun
  | carve idle unheld nonnull chunk =>
      have after : (Holder.program : Holder Thread) ≠ .arena := nofun
      apply valid.pass nonnull chunk _ _ after
      · exact fun arena => nomatch unheld.symm.trans arena
      · exact fun _ held => nomatch unheld.symm.trans held
  | store dummy listed pushed => exact store_valid valid dummy listed pushed

theorem Started.valid {freed : List Int} (started : Started kind freelist state freed) :
    Valid kind freelist state := by
  refine ⟨⟨[], [], freed, ?_, ?_, started.free, started.distinct, started.held⟩, started.dummy,
    started.null, ?_, ?_⟩
  · exact started.unused
  · rw [started.drain]
    exact rfl
  · intro thread
    rw [started.push thread]
    exact trivial
  · rw [started.drain]
    exact trivial

end Invariant

/-- Whatever the order of the steps, no chunk whose push is complete gets lost. -/
theorem cross_thread_free_accounted [DecidableEq Thread] {before after : State Thread}
    {freed : List Int} {actions : List (Action Thread)}
    (started : Started kind freelist before freed)
    (run : Trace.Run (Step kind freelist) before actions after) :
    ∃ pushed drained freed, Accounted kind freelist after pushed drained freed :=
  (run.invariant (Valid kind freelist) (fun _ _ _ => step_valid) started.valid).accounted

section TwoThreads

/-- The program holds the chunks at 10 and 20 of an arena with an empty free list. -/
def twoChunks : State Nat where
  heap := ⟨fun _ => 0, fun _ => 0, fun _ => 0, [], [], []⟩
  unusedList := 0
  push := fun _ => .idle
  drain := .idle
  holder := fun chunk => if chunk = 10 ∨ chunk = 20 then .program else .nobody

theorem two_chunks_started : Started .small 100 twoChunks [] := by
  refine ⟨rfl, fun _ => rfl, rfl, rfl, List.nodup_nil, ?_, rfl, rfl⟩
  intro chunk
  refine iff_of_false ?_ List.not_mem_nil
  dsimp only [twoChunks]
  split
  · exact nofun
  · exact nofun

/-- Both threads read the head before either swaps, so the second has to try
again; its second push overtakes the owner, which then grabs both chunks. -/
theorem cross_thread_free_accounted_two : ∃ (after : State Nat) (pushed drained freed : List Int),
    after.drain = .insert 20 10 ∧ Accounted .small 100 after pushed drained freed := by
  have run : Trace.Run (Step .small 100) twoChunks [.free 0 10, .free 1 20, .push 0, .push 1,
      .push 0, .push 1, .push 0, .push 1, .push 1, .drain, .drain, .push 1, .push 1, .drain,
      .drain, .drain, .drain, .drain, .drain] _ :=
    .next (.free rfl rfl) <| .next (.free rfl rfl) <| .next (.push rfl) <| .next (.push rfl) <|
    .next (.push rfl) <| .next (.push rfl) <| .next (.push rfl) <| .next (.push rfl) <|
    .next (.push rfl) <| .next .drain <| .next .drain <| .next (.push rfl) <|
    .next (.push rfl) <| .next .drain <| .next .drain <| .next .drain <| .next .drain <|
    .next .drain <| .next .drain <| .refl _
  obtain ⟨pushed, drained, freed, accounted⟩ :=
    cross_thread_free_accounted .small 100 two_chunks_started run
  exact ⟨_, pushed, drained, freed, rfl, accounted⟩

end TwoThreads

end Sac2c.UnusedLists
