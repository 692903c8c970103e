import Mathlib.Data.List.Nodup
import Sac2c.Schedule

/-!
The task selector Factoring. Its four counters belong to one scheduler and are
read and written inside one critical section, so a run is the sequence in which
the threads enter it. Each round of `localThreads` requests gets parts of one
size; the size is computed anew at the start of a round.
-/

namespace Sac2c.Factoring

open Schedule

/-- SAC_MT_REST_ITERATIONS, SAC_MT_LAST_TASKEND, SAC_MT_TASKCOUNT and
SAC_MT_ACT_TASKSIZE of one scheduler. -/
structure Counters where
  restIterations : Int
  lastTaskend : Int
  taskcount : Int
  actTasksize : Int
deriving DecidableEq, Repr

/-- SAC_MT_SCHEDULER_TS_Factoring_INIT, with the bounds that TaskSelectorInit
passes for the distributed dimension. -/
def tsFactoringInit (lower upper localThreads : Int) : Counters :=
  { restIterations := upper - lower
    lastTaskend := 0
    taskcount := 0
    actTasksize := (upper - lower).tdiv (2 * localThreads) + 1 }

/-- The critical section of SAC_MT_SCHEDULER_TS_Factoring: the part that is
handed out, or `none` for `worktodo = 0`. The macro has the segment bounds among
its parameters but does not use them. -/
def tsFactoring (localThreads : Int) (counters : Counters) : Option Part × Counters :=
  let restiter := counters.restIterations
  if 0 < restiter then
    let renewed := counters.taskcount = localThreads
    let size := if renewed then restiter.tdiv (2 * localThreads) + 1 else counters.actTasksize
    let taskcount := if renewed then 0 else counters.taskcount
    let tasksize := if restiter < size then restiter else size
    let start := counters.lastTaskend
    (some { start := start, stop := start + tasksize },
      { restIterations := restiter - tasksize
        lastTaskend := start + tasksize
        taskcount := taskcount + 1
        actTasksize := tasksize })
  else (none, counters)

/-- The threads enter the critical section in the given order. -/
def serve (localThreads : Int) : List Nat → Counters → List (Nat × Option Part) × Counters
  | [], counters => ([], counters)
  | thread :: order, counters =>
      let answer := tsFactoring localThreads counters
      let rest := serve localThreads order answer.2
      ((thread, answer.1) :: rest.1, rest.2)

def answers (lower upper : Int) (threads : Nat) (order : List Nat) : List (Nat × Option Part) :=
  (serve threads order (tsFactoringInit lower upper threads)).1

def handedOut (served : List (Nat × Option Part)) : List Part :=
  served.filterMap Prod.snd

/-- The counters between two requests: what is left is never negative, and the
next part is not empty. -/
def Sound (counters : Counters) : Prop :=
  0 ≤ counters.restIterations ∧ 1 ≤ counters.actTasksize

theorem init_sound (lower upper : Int) (threads : Nat) (ordered : lower ≤ upper) :
    Sound (tsFactoringInit lower upper threads) := by
  have size : 0 ≤ (upper - lower).tdiv (2 * (threads : Int)) :=
    Int.tdiv_nonneg (by omega) (by omega)
  simp only [Sound, tsFactoringInit]
  omega

/-- All that one request can do: refuse when nothing is left, or hand out a
non-empty part from the last task end on. -/
theorem factoring_cases (threads : Nat) (counters : Counters) (sound : Sound counters) :
    (counters.restIterations = 0 ∧ tsFactoring threads counters = (none, counters)) ∨
    ∃ size after, 1 ≤ size ∧ size ≤ counters.restIterations ∧
      tsFactoring threads counters =
        (some ⟨counters.lastTaskend, counters.lastTaskend + size⟩, after) ∧
      after.lastTaskend = counters.lastTaskend + size ∧
      after.restIterations = counters.restIterations - size ∧ Sound after := by
  by_cases work : 0 < counters.restIterations
  · right
    have renewed : 0 ≤ counters.restIterations.tdiv (2 * (threads : Int)) :=
      Int.tdiv_nonneg (by omega) (by omega)
    have positive := sound.2
    simp only [tsFactoring, work, ↓reduceIte]
    refine ⟨_, _, ?_, ?_, rfl, rfl, rfl, ?_⟩
    · split_ifs <;> omega
    · split_ifs <;> omega
    · simp only [Sound]
      constructor <;> split_ifs <;> omega
  · left
    have none := sound.1
    simp only [tsFactoring, work, ↓reduceIte, and_true]
    omega

def bounds (part : Part) : Int × Int := (part.start, part.stop)

/-- A run hands out a chain of parts, and the chain and the rest together always
have the length of the segment. -/
theorem serve_chain (threads : Nat) (order : List Nat) (counters : Counters)
    (sound : Sound counters) :
    Cuts.Chain counters.lastTaskend
      ((handedOut (serve threads order counters).1).map bounds)
      (serve threads order counters).2.lastTaskend ∧
    (serve threads order counters).2.lastTaskend +
      (serve threads order counters).2.restIterations =
        counters.lastTaskend + counters.restIterations ∧
    Sound (serve threads order counters).2 := by
  induction order generalizing counters with
  | nil => exact ⟨Cuts.Chain.nil _, rfl, sound⟩
  | cons thread order ih =>
      rcases factoring_cases threads counters sound with ⟨_, refused⟩ | granted
      · simpa [serve, refused, handedOut] using ih counters sound
      · obtain ⟨size, after, positive, _, given, taskend, rest, soundAfter⟩ := granted
        obtain ⟨chain, total, last⟩ := ih after soundAfter
        rw [taskend] at chain total
        rw [rest] at total
        simp only [serve, given]
        exact ⟨Cuts.Chain.cons (by simp only; omega) chain, by omega, last⟩

/-- Once a thread was refused, nothing is left and nothing is handed out later. -/
theorem serve_refused (threads : Nat) (order : List Nat) (counters : Counters)
    (sound : Sound counters) (thread : Nat)
    (refused : (thread, none) ∈ (serve threads order counters).1) :
    (serve threads order counters).2.restIterations = 0 := by
  induction order generalizing counters with
  | nil => simp [serve] at refused
  | cons next order ih =>
      rcases factoring_cases threads counters sound with ⟨empty, same⟩ | granted
      · have left := serve_chain threads order counters sound
        have grows := left.1.ascends
        have rest := left.2.2.1
        simp only [serve, same]
        omega
      · obtain ⟨size, after, _, _, given, _, _, soundAfter⟩ := granted
        simp only [serve, given, List.mem_cons, Prod.mk.injEq, reduceCtorEq, and_false,
          false_or] at refused ⊢
        exact ih after soundAfter refused

/-- What the claim of covering a segment says: over every order of requests the
parts are non-empty and disjoint, every thread is refused before it has asked
more often than the segment has indices, and once all threads are refused the
parts are exactly the segment. -/
structure CoversOnce (lower upper : Int) (threads : Nat) : Prop where
  nonempty : ∀ order, ∀ part ∈ handedOut (answers lower upper threads order),
    part.start < part.stop
  disjoint : ∀ order, (handedOut (answers lower upper threads order)).Pairwise
    fun left right => ∀ index, ¬ (left.Holds index ∧ right.Holds index)
  refuses : ∀ order thread, (upper - lower).toNat < order.count thread →
    (thread, none) ∈ answers lower upper threads order
  union : ∀ order,
    (∀ thread, thread < threads → (thread, none) ∈ answers lower upper threads order) →
    ∀ index, (lower ≤ index ∧ index < upper) ↔
      ∃ part ∈ handedOut (answers lower upper threads order), part.Holds index

theorem handed_chain (lower upper : Int) (threads : Nat) (order : List Nat)
    (ordered : lower ≤ upper) :
    ∃ last, Cuts.Chain 0 ((handedOut (answers lower upper threads order)).map bounds) last ∧
      last ≤ upper - lower ∧
      ((∃ thread, (thread, none) ∈ answers lower upper threads order) → last = upper - lower) := by
  have sound := init_sound lower upper threads ordered
  obtain ⟨chain, total, left⟩ := serve_chain threads order _ sound
  have nothing := left.1
  refine ⟨_, chain, ?_, ?_⟩
  · simp only [tsFactoringInit] at total nothing ⊢
    omega
  · rintro ⟨thread, refused⟩
    have empty := serve_refused threads order _ sound thread refused
    simp only [tsFactoringInit] at total empty ⊢
    omega

theorem holds_bounds (parts : List Part) (index : Int) :
    (∃ part ∈ parts, part.Holds index) ↔
      ∃ range ∈ parts.map bounds, range.1 ≤ index ∧ index < range.2 := by
  simp [bounds, Part.Holds]

/-- When every thread has been refused, the parts cover the indices from 0 on,
as many as the segment has. -/
theorem handed_union (lower upper : Int) (threads : Nat) (order : List Nat)
    (ordered : lower ≤ upper) (some : 1 ≤ threads)
    (finished : ∀ thread, thread < threads → (thread, none) ∈ answers lower upper threads order)
    (index : Int) :
    (∃ part ∈ handedOut (answers lower upper threads order), part.Holds index) ↔
      0 ≤ index ∧ index < upper - lower := by
  obtain ⟨last, chain, _, complete⟩ := handed_chain lower upper threads order ordered
  rw [complete ⟨0, finished 0 some⟩] at chain
  rw [holds_bounds, ← chain.covers]

theorem served_threads (localThreads : Int) (order : List Nat) (counters : Counters) :
    (serve localThreads order counters).1.map Prod.fst = order := by
  induction order generalizing counters with
  | nil => rfl
  | cons thread order ih => simp [serve, ih]

/-- A thread's answers are grants, of which there are at most as many as parts,
and refusals. -/
theorem refused_or_granted (served : List (Nat × Option Part)) (thread : Nat)
    (granted : (thread, none) ∉ served) :
    (served.map Prod.fst).count thread ≤ (handedOut served).length := by
  induction served with
  | nil => simp
  | cons answer rest ih =>
      have tail := ih (fun member => granted (List.mem_cons_of_mem answer member))
      rcases answer with ⟨asker, reply⟩
      cases reply with
      | none =>
          have other : asker ≠ thread := by
            rintro rfl
            exact granted List.mem_cons_self
          simpa [handedOut, List.count_cons, other] using tail
      | some part =>
          simp only [handedOut, List.map_cons, List.count_cons, List.filterMap_cons,
            List.length_cons] at tail ⊢
          split_ifs <;> omega

theorem thread_refused (lower upper : Int) (threads : Nat) (order : List Nat) (thread : Nat)
    (ordered : lower ≤ upper) (often : (upper - lower).toNat < order.count thread) :
    (thread, none) ∈ answers lower upper threads order := by
  by_contra granted
  obtain ⟨last, chain, within, _⟩ := handed_chain lower upper threads order ordered
  have length := chain.length_le
  have asked := refused_or_granted _ thread granted
  rw [answers, served_threads] at asked
  simp only [List.length_map, answers] at length
  omega

/-- Let every thread ask once more than there are indices. -/
def patientOrder (lower upper : Int) (threads : Nat) : List Nat :=
  (List.replicate ((upper - lower).toNat + 1) (List.range threads)).flatten

theorem patient_order_refused (lower upper : Int) (threads : Nat) (ordered : lower ≤ upper)
    (thread : Nat) (inside : thread < threads) :
    (thread, none) ∈ answers lower upper threads (patientOrder lower upper threads) := by
  apply thread_refused lower upper threads _ thread ordered
  have once : (List.range threads).count thread = 1 :=
    List.count_eq_one_of_mem List.nodup_range (List.mem_range.mpr inside)
  simp [patientOrder, List.count_flatten, once]

/-- Factoring covers the segment exactly when the segment starts at 0 or is
empty: its counters are set up without the lower bound. -/
theorem covers_once_iff (lower upper : Int) (threads : Nat) (ordered : lower ≤ upper)
    (some : 1 ≤ threads) : CoversOnce lower upper threads ↔ lower = 0 ∨ lower = upper := by
  constructor
  · intro covers
    by_contra shifted
    have finished := patient_order_refused lower upper threads ordered
    have union := fun index => (covers.union _ finished index).trans
      (handed_union lower upper threads _ ordered some finished index)
    have first := union lower
    have last := union (upper - 1)
    omega
  · intro unshifted
    constructor
    · intro order part member
      obtain ⟨last, chain, _, _⟩ := handed_chain lower upper threads order ordered
      exact chain.nonempty (bounds part) (List.mem_map_of_mem member)
    · intro order
      obtain ⟨last, chain, _, _⟩ := handed_chain lower upper threads order ordered
      have apart := List.pairwise_map.mp chain.ordered
      refine apart.imp ?_
      rintro left right before index ⟨inLeft, inRight⟩
      simp only [bounds, Part.Holds] at before inLeft inRight
      omega
    · intro order thread often
      exact thread_refused lower upper threads order thread ordered often
    · intro order finished index
      rw [handed_union lower upper threads order ordered some finished index]
      omega

theorem covers_once_iff_two : CoversOnce 0 10 2 :=
  (covers_once_iff 0 10 2 (by decide) (by decide)).mpr (Or.inl rfl)

/-- One thread on `[1, 3)`: the parts are `[0, 2)`. -/
theorem shifted_segment_not_covered : ¬ CoversOnce 1 3 1 := by
  intro covers
  have union := covers.union [0, 0, 0] (by decide) 2
  revert union
  decide

end Sac2c.Factoring
