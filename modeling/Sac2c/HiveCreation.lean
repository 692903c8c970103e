import Mathlib.Data.List.Count
import Sac2c.BinomialTree
import Sac2c.Threads
import Sac2c.Trace

/-!
The creation of the worker threads of a hive (libsac/mt/mt_pth.c and
mt_beehive.c). `SAC_MT_AllocHive` starts bee 1 only, which starts the bees that
are later awaited by the queen; every bee started goes on to start others of its
own. The threads run concurrently, in any order of their steps.
-/

namespace Sac2c.HiveCreation

open BinomialTree

/-- `for (queen_class = 1; queen_class < num_bees; queen_class <<= 1)`; a class
is an unsigned number of 32 bits. -/
def queenClassLoop (numBees : Nat) : Nat → Nat → Option Nat
  | 0, _ => none
  | fuel + 1, queenClass =>
      if queenClass < numBees then queenClassLoop numBees fuel (queenClass * 2 % 2 ^ 32)
      else some queenClass

/-- A hive that `SAC_MT_Helper_AllocHiveCommons` has returned. -/
structure Hive where
  numBees : Nat
  queenClass : Nat
  some_bee : 1 ≤ numBees
  computed : ∃ fuel, (queenClassLoop numBees fuel 1).map (· / 2) = some queenClass

/-- Where the thread of a bee stands: not started, at the head of one of the two
thread control functions, in its loop, or in `ThreadServeLoop`. -/
inductive Thread where
  | absent
  | initialWorker
  | control
  | initialLoop (i : Nat)
  | controlLoop (i : Nat)
  | serving
deriving DecidableEq, Repr

structure Bee where
  thread : Thread
  bClass : Nat

/-- The bees by their local id; `created` lists the calls of pthread_create, which
the code does not record. -/
structure State where
  bees : Nat → Bee
  created : List Nat

def State.set (state : State) (localId : Nat) (bee : Bee) : State :=
  { state with bees := Function.update state.bees localId bee }

def State.bClass (state : State) (localId : Nat) : Nat := (state.bees localId).bClass

/-- pthread_create for the bee, after its b_class has been set. -/
def State.create (state : State) (localId bClass : Nat) : State :=
  { bees := Function.update state.bees localId ⟨.control, bClass⟩
    created := localId :: state.created }

section Access

variable {state : State} {localId other bClass : Nat} {bee : Bee}

theorem bees_set_self : (state.set localId bee).bees localId = bee := Function.update_self ..

theorem bees_set_other (differ : other ≠ localId) :
    (state.set localId bee).bees other = state.bees other := Function.update_of_ne differ ..

theorem bees_create_self : (state.create localId bClass).bees localId = ⟨.control, bClass⟩ :=
  Function.update_self ..

theorem bees_create_other (differ : other ≠ localId) :
    (state.create localId bClass).bees other = state.bees other := Function.update_of_ne differ ..

end Access

variable (hive : Hive)

/-- After `SAC_MT_AllocHive` and `SAC_MT_AttachHive`: the queen has her class,
and the thread of bee 1 has been created. -/
def allocHive : State :=
  { bees := fun localId =>
      if localId = 0 then ⟨.serving, hive.queenClass⟩
      else if localId = 1 ∧ 1 < hive.numBees then ⟨.initialWorker, 0⟩
      else ⟨.absent, 0⟩
    created := if 1 < hive.numBees then [1] else [] }

/-- The next step of `ThreadControlInitialWorker` or `ThreadControl` in a bee. -/
def advance (state : State) (localId : Nat) : Option State :=
  let bee := state.bees localId
  match bee.thread with
  | .absent => none
  | .serving => none
  | .initialWorker => some (state.set localId ⟨.initialLoop hive.queenClass, 0⟩)
  | .control =>
      let bClass := correctClass hive.numBees localId bee.bClass
      some (state.set localId ⟨.controlLoop bClass, bClass⟩)
  | .initialLoop i =>
      if 1 < i then
        some ((state.set localId { bee with thread := .initialLoop (i / 2) }).create i (i / 2))
      else some (state.set localId { bee with thread := .serving })
  | .controlLoop i =>
      if 0 < i then
        some ((state.set localId { bee with thread := .controlLoop (i / 2) }).create
          (localId + i) (i / 2))
      else some (state.set localId { bee with thread := .serving })

def Step (before : State) (localId : Nat) (after : State) : Prop :=
  localId < hive.numBees ∧ advance hive before localId = some after

/-- Every thread there is serves the queen. -/
def Finished (state : State) : Prop :=
  ∀ localId, localId < hive.numBees →
    (state.bees localId).thread = .absent ∨ (state.bees localId).thread = .serving

/-- Each bee has the class it has in the tree. -/
def Classed (bClass : Nat → Nat) : Prop :=
  ∀ localId, localId < hive.numBees →
    (localId, bClass localId) ∈ tree hive.numBees hive.queenClass

/-- The threads cannot go on for ever; no bee is started twice and none outside
the hive; and at the end each bee but the queen has been started. -/
structure CreatesOnce : Prop where
  bounded : ∃ limit, ∀ labels state,
    Trace.Run (Step hive) (allocHive hive) labels state → labels.length ≤ limit
  moves : ∀ state, ¬ Finished hive state → ∃ localId after, Step hive state localId after
  distinct : ∀ labels state,
    Trace.Run (Step hive) (allocHive hive) labels state → state.created.Nodup
  within : ∀ labels state, Trace.Run (Step hive) (allocHive hive) labels state →
    ∀ localId, localId ∈ state.created → 1 ≤ localId ∧ localId < hive.numBees
  all : ∀ labels state, Trace.Run (Step hive) (allocHive hive) labels state →
    Finished hive state → state.created.Perm (List.range' 1 (hive.numBees - 1))

section QueenClass

variable {numBees : Nat}

theorem queen_class_loop_zero (some_bee : 0 < numBees) (fuel : Nat) :
    queenClassLoop numBees fuel 0 = none := by
  induction fuel with
  | zero => rfl
  | succ fuel ih =>
      rw [queenClassLoop, if_pos some_bee]
      exact ih

theorem doubled (k : Nat) (inside : k < 31) : 2 ^ k * 2 % 2 ^ 32 = 2 ^ (k + 1) := by
  rw [← Nat.pow_succ]
  exact Nat.mod_eq_of_lt (Nat.pow_lt_pow_right (by decide) (by omega))

theorem queen_class_loop_some {fuel result k : Nat} (digit : k ≤ 31)
    (below : 2 ^ k / 2 < numBees) (done : queenClassLoop numBees fuel (2 ^ k) = some result) :
    (∃ m, m ≤ 31 ∧ result = 2 ^ m) ∧ numBees ≤ result ∧ result / 2 < numBees := by
  induction fuel generalizing k with
  | zero => exact nomatch done
  | succ fuel ih =>
      rw [queenClassLoop] at done
      split at done
      · next less =>
          rcases Nat.lt_or_eq_of_le digit with inside | rfl
          · rw [doubled k inside] at done
            apply ih inside _ done
            rwa [Nat.pow_succ, Nat.mul_div_cancel _ (by decide)]
          · -- the class has wrapped round to 0 and stays there
            have wrapped : 2 ^ 31 * 2 % 2 ^ 32 = 0 := by decide
            rw [wrapped, queen_class_loop_zero (by omega)] at done
            exact nomatch done
      · cases done
        exact ⟨⟨k, digit, rfl⟩, by omega, below⟩

theorem queen_class_loop_returns (fits : numBees ≤ 2 ^ 31) {k : Nat} (digit : k ≤ 31) :
    ∃ fuel result, queenClassLoop numBees fuel (2 ^ k) = some result := by
  induction left : 31 - k generalizing k with
  | zero =>
      have last : k = 31 := by omega
      subst last
      exact ⟨1, 2 ^ 31, by rw [queenClassLoop, if_neg (by omega)]⟩
  | succ left ih =>
      obtain ⟨fuel, result, done⟩ := ih (by omega : k + 1 ≤ 31) (by omega)
      by_cases less : 2 ^ k < numBees
      · refine ⟨fuel + 1, result, ?_⟩
        rw [queenClassLoop, if_pos less, doubled k (by omega)]
        exact done
      · exact ⟨1, 2 ^ k, by rw [queenClassLoop, if_neg less]⟩

theorem hive_exists (some_bee : 1 ≤ numBees) (fits : numBees ≤ 2 ^ 31) :
    ∃ hive : Hive, hive.numBees = numBees := by
  obtain ⟨fuel, result, done⟩ := queen_class_loop_returns fits (Nat.zero_le 31)
  exact ⟨⟨numBees, result / 2, some_bee, fuel, by rw [← Nat.pow_zero 2, done]; rfl⟩, rfl⟩

theorem Hive.result (hive : Hive) : ∃ m, m ≤ 31 ∧ hive.queenClass = 2 ^ m / 2 ∧
    hive.numBees ≤ 2 ^ m ∧ hive.queenClass < hive.numBees := by
  obtain ⟨fuel, computed⟩ := hive.computed
  obtain ⟨result, done, same⟩ := Option.map_eq_some_iff.mp computed
  have some_bee : 2 ^ 0 / 2 < hive.numBees := hive.some_bee
  obtain ⟨⟨m, bound, rfl⟩, reached, below⟩ :=
    queen_class_loop_some (Nat.zero_le 31) some_bee done
  exact ⟨m, bound, same.symm, reached, same ▸ below⟩

/-- A hive with more bees never gets its class. -/
theorem Hive.fits (hive : Hive) : hive.numBees ≤ 2 ^ 31 := by
  obtain ⟨m, bound, _, reached, _⟩ := hive.result
  exact Nat.le_trans reached (Nat.pow_le_pow_right (by decide) bound)

/-- The class of the queen is the greatest power of two below the number of bees. -/
theorem Hive.shape (hive : Hive) : IsClass hive.queenClass ∧ hive.queenClass < hive.numBees ∧
    (hive.numBees ≤ 2 * hive.queenClass ∨ hive.numBees = 1) := by
  obtain ⟨m, _, same, reached, below⟩ := hive.result
  have some_bee := hive.some_bee
  have power : IsClass (2 ^ m) := Or.inr ⟨m, rfl⟩
  refine ⟨same ▸ power.half, below, ?_⟩
  by_cases one : 1 < 2 ^ m
  · have double := power.double_half one
    omega
  · omega

end QueenClass

section Pending

/-- What `ThreadControlInitialWorker` has yet to start from `i` on, with all that follows. -/
def firstBrood (n i : Nat) : List (Nat × Nat) :=
  if i ≤ 1 then []
  else (i, correctClass n i (i / 2)) :: brood n i (correctClass n i (i / 2)) ++ firstBrood n (i / 2)
termination_by i

/-- Bee 1 and those its thread is to start are the bees below the queen. -/
theorem first_brood_perm {n i : Nat} (positive : 0 < i) (power : IsClass i) :
    (brood n 0 i).Perm ((1, 0) :: firstBrood n i) := by
  induction i using Nat.strong_induction_on with
  | _ i ih =>
      rw [firstBrood, brood_pos positive, Nat.zero_add]
      by_cases one : i ≤ 1
      · have same : i = 1 := by omega
        subst same
        rw [if_pos one]
        have last : correctClass n 1 (1 / 2) = 0 := by rw [correctClass, if_pos (by decide)]
        rw [last, brood_zero]
        simp
      · rw [if_neg one]
        have rest := ih (i / 2) (by omega) (by omega) power.half
        exact (rest.append_left _).trans List.perm_middle

/-- The bees that are started by a thread, or by those it starts, from here on. -/
def pending (localId : Nat) (bee : Bee) : List (Nat × Nat) :=
  match bee.thread with
  | .absent => []
  | .serving => []
  | .initialWorker => firstBrood hive.numBees hive.queenClass
  | .control => brood hive.numBees localId (correctClass hive.numBees localId bee.bClass)
  | .initialLoop i => firstBrood hive.numBees i
  | .controlLoop i => brood hive.numBees localId i

/-- The class of a bee once it has been corrected. -/
def corrected (localId : Nat) (bee : Bee) : Nat :=
  match bee.thread with
  | .control => correctClass hive.numBees localId bee.bClass
  | .initialWorker => 0
  | _ => bee.bClass

def pendingCount (x localId : Nat) (bee : Bee) : Nat :=
  ((pending hive localId bee).map Prod.fst).count x

/-- Each bee but the queen has been started or is pending in one place. -/
structure Sound (state : State) : Prop where
  balance : ∀ x, state.created.count x +
    Threads.total hive.numBees (pendingCount hive x) state.bees =
      if 1 ≤ x ∧ x < hive.numBees then 1 else 0
  absent : ∀ localId, localId ≠ 0 → localId ∉ state.created →
    (state.bees localId).thread = .absent
  started : ∀ localId, localId = 0 ∨ localId ∈ state.created →
    (state.bees localId).thread ≠ .absent ∧
      (localId, corrected hive localId (state.bees localId)) ∈ tree hive.numBees hive.queenClass
  pending : ∀ localId, localId < hive.numBees →
    ∀ entry, entry ∈ pending hive localId (state.bees localId) →
      entry ∈ tree hive.numBees hive.queenClass

variable {hive} {state : State} {localId : Nat}

/-- A thread goes on without a call of pthread_create. -/
theorem set_sound (sound : Sound hive state) (inside : localId < hive.numBees) {bee : Bee}
    (there : (state.bees localId).thread ≠ .absent) (goes_on : bee.thread ≠ .absent)
    (same : pending hive localId bee = pending hive localId (state.bees localId))
    (class_same : corrected hive localId bee = corrected hive localId (state.bees localId)) :
    Sound hive (state.set localId bee) := by
  constructor
  case balance =>
    intro x
    have moved := Threads.total_moved (pendingCount hive x) state.bees inside bee
    have weight : pendingCount hive x localId bee =
        pendingCount hive x localId (state.bees localId) := by
      rw [pendingCount, same, pendingCount]
    rw [← sound.balance x]
    change state.created.count x + Threads.total hive.numBees (pendingCount hive x)
      (Function.update state.bees localId bee) = _
    omega
  case absent =>
    intro other notQueen notCreated
    have differ : other ≠ localId := by
      rintro rfl
      exact there (sound.absent other notQueen notCreated)
    rw [bees_set_other differ]
    exact sound.absent other notQueen notCreated
  case started =>
    intro other started
    by_cases differ : other = localId
    · subst differ
      rw [bees_set_self, class_same]
      exact ⟨goes_on, (sound.started other started).2⟩
    · rw [bees_set_other differ]
      exact sound.started other started
  case pending =>
    intro other inside'
    by_cases differ : other = localId
    · subst differ
      rw [bees_set_self, same]
      exact sound.pending other inside
    · rw [bees_set_other differ]
      exact sound.pending other inside'

/-- The balance leaves room for one bee of each number, so the next one is new. -/
theorem son_fresh (sound : Sound hive state) (inside : localId < hive.numBees) {bee : Bee}
    {son bClass : Nat}
    (next : pending hive localId (state.bees localId) =
      (son, correctClass hive.numBees son bClass) ::
        brood hive.numBees son (correctClass hive.numBees son bClass) ++
          pending hive localId bee) :
    (1 ≤ son ∧ son < hive.numBees) ∧
      (∀ x, pendingCount hive x localId (state.bees localId) =
        (if son = x then 1 else 0) + pendingCount hive x son ⟨.control, bClass⟩ +
          pendingCount hive x localId bee) ∧
      (state.bees son).thread = .absent := by
  have weight : ∀ x, pendingCount hive x localId (state.bees localId) =
      (if son = x then 1 else 0) + pendingCount hive x son ⟨.control, bClass⟩ +
        pendingCount hive x localId bee := by
    intro x
    rw [pendingCount, next, List.map_append, List.map_cons, List.count_append, List.count_cons]
    simp only [pendingCount, pending, beq_iff_eq]
    omega
  have counted := sound.balance son
  have share := Threads.weight_le_total (pendingCount hive son) state.bees inside
  rw [weight son, if_pos rfl] at share
  have within : 1 ≤ son ∧ son < hive.numBees := by
    by_contra outside
    rw [if_neg outside] at counted
    omega
  refine ⟨within, weight, sound.absent son (by omega) ?_⟩
  rw [← List.count_eq_zero]
  rw [if_pos within] at counted
  omega

/-- A thread starts the first of the bees it has pending. -/
theorem create_sound (sound : Sound hive state) (inside : localId < hive.numBees) {bee : Bee}
    {son bClass : Nat} (there : (state.bees localId).thread ≠ .absent)
    (goes_on : bee.thread ≠ .absent)
    (next : pending hive localId (state.bees localId) =
      (son, correctClass hive.numBees son bClass) ::
        brood hive.numBees son (correctClass hive.numBees son bClass) ++ pending hive localId bee)
    (class_same : corrected hive localId bee = corrected hive localId (state.bees localId)) :
    Sound hive ((state.set localId bee).create son bClass) := by
  obtain ⟨within, weight, absent⟩ := son_fresh sound inside next
  have differ : son ≠ localId := by
    rintro rfl
    exact there absent
  have nothing : ∀ x, pendingCount hive x son (state.bees son) = 0 := by
    intro x
    simp [pendingCount, pending, absent]
  constructor
  -- one occurrence of the son moves from what is pending to what is created
  case balance =>
    intro x
    have first := Threads.total_moved (pendingCount hive x) state.bees inside bee
    have second := Threads.total_moved (pendingCount hive x)
      (Function.update state.bees localId bee) within.2 ⟨.control, bClass⟩
    rw [weight x] at first
    rw [Function.update_of_ne differ, nothing x] at second
    rw [← sound.balance x]
    change (son :: state.created).count x + Threads.total hive.numBees (pendingCount hive x)
      (Function.update (Function.update state.bees localId bee) son ⟨.control, bClass⟩) = _
    rw [List.count_cons]
    simp only [beq_iff_eq]
    omega
  case absent =>
    intro other notQueen notCreated
    obtain ⟨notSon, notBefore⟩ := not_or.mp (List.mem_cons.not.mp notCreated)
    have differ' : other ≠ localId := by
      rintro rfl
      exact there (sound.absent other notQueen notBefore)
    rw [bees_create_other notSon, bees_set_other differ']
    exact sound.absent other notQueen notBefore
  case started =>
    intro other started
    by_cases isSon : other = son
    · subst isSon
      rw [bees_create_self]
      refine ⟨nofun, sound.pending localId inside _ ?_⟩
      rw [next]
      exact List.mem_append_left _ (List.mem_cons_self ..)
    · rw [bees_create_other isSon]
      have before : other = 0 ∨ other ∈ state.created :=
        started.imp_right (fun listed => (List.mem_cons.mp listed).resolve_left isSon)
      by_cases same : other = localId
      · subst same
        rw [bees_set_self, class_same]
        exact ⟨goes_on, (sound.started other before).2⟩
      · rw [bees_set_other same]
        exact sound.started other before
  case pending =>
    intro other inside' entry listed
    by_cases isSon : other = son
    · subst isSon
      rw [bees_create_self] at listed
      apply sound.pending localId inside entry
      rw [next]
      exact List.mem_append_left _ (List.mem_cons_of_mem _ listed)
    · rw [bees_create_other isSon] at listed
      by_cases same : other = localId
      · subst same
        rw [bees_set_self] at listed
        apply sound.pending other inside entry
        rw [next]
        exact List.mem_append_right _ listed
      · rw [bees_set_other same] at listed
        exact sound.pending other inside' entry listed

/-- The steps of a thread but for those of its loop. -/
def Thread.cost : Thread → Nat
  | .absent => 0
  | .serving => 0
  | .initialWorker => 2
  | .control => 2
  | .initialLoop _ => 1
  | .controlLoop _ => 1

/-- All that one step of a thread can do. -/
theorem advance_cases {after : State} (moved : advance hive state localId = some after) :
    (∃ bee, after = state.set localId bee ∧ (state.bees localId).thread ≠ .absent ∧
      bee.thread ≠ .absent ∧ pending hive localId bee = pending hive localId (state.bees localId) ∧
      corrected hive localId bee = corrected hive localId (state.bees localId) ∧
      bee.thread.cost < (state.bees localId).thread.cost) ∨
    (∃ bee son bClass, after = (state.set localId bee).create son bClass ∧
      (state.bees localId).thread ≠ .absent ∧ bee.thread ≠ .absent ∧
      pending hive localId (state.bees localId) =
        (son, correctClass hive.numBees son bClass) ::
          brood hive.numBees son (correctClass hive.numBees son bClass) ++
            pending hive localId bee ∧
      corrected hive localId bee = corrected hive localId (state.bees localId) ∧
      bee.thread.cost ≤ (state.bees localId).thread.cost) := by
  rw [advance] at moved
  cases stage : (state.bees localId).thread with
  | absent | serving =>
      simp only [stage] at moved
      exact nomatch moved
  | initialWorker =>
      simp only [stage, Option.some.injEq] at moved
      refine Or.inl ⟨_, moved.symm, nofun, nofun, ?_, ?_, ?_⟩
      · simp only [pending, stage]
      · simp only [corrected, stage]
      · simp only [Thread.cost]
        omega
  | control =>
      simp only [stage, Option.some.injEq] at moved
      refine Or.inl ⟨_, moved.symm, nofun, nofun, ?_, ?_, ?_⟩
      · simp only [pending, stage]
      · simp only [corrected, stage]
      · simp only [Thread.cost]
        omega
  | initialLoop i =>
      simp only [stage] at moved
      split at moved
      · next more =>
          simp only [Option.some.injEq] at moved
          refine Or.inr ⟨_, i, i / 2, moved.symm, nofun, nofun, ?_, ?_, ?_⟩
          · simp only [pending, stage]
            rw [firstBrood, if_neg (by omega)]
          · simp only [corrected, stage]
          · simp only [Thread.cost]
            omega
      · next last =>
          simp only [Option.some.injEq] at moved
          refine Or.inl ⟨_, moved.symm, nofun, nofun, ?_, ?_, ?_⟩
          · simp only [pending, stage]
            rw [firstBrood, if_pos (by omega)]
          · simp only [corrected, stage]
          · simp only [Thread.cost]
            omega
  | controlLoop i =>
      simp only [stage] at moved
      split at moved
      · next more =>
          simp only [Option.some.injEq] at moved
          refine Or.inr ⟨_, localId + i, i / 2, moved.symm, nofun, nofun, ?_, ?_, ?_⟩
          · simp only [pending, stage]
            exact brood_pos more
          · simp only [corrected, stage]
          · simp only [Thread.cost]
            omega
      · next last =>
          simp only [Option.some.injEq] at moved
          refine Or.inl ⟨_, moved.symm, nofun, nofun, ?_, ?_, ?_⟩
          · simp only [pending, stage]
            rw [Nat.eq_zero_of_not_pos last, brood_zero]
          · simp only [corrected, stage]
          · simp only [Thread.cost]
            omega

theorem step_sound {before after : State} (sound : Sound hive before)
    (step : Step hive before localId after) : Sound hive after := by
  obtain ⟨inside, moved⟩ := step
  rcases advance_cases moved with ⟨bee, rfl, there, goes_on, same, class_same, _⟩ |
    ⟨bee, son, bClass, rfl, there, goes_on, next, class_same, _⟩
  · exact set_sound sound inside there goes_on same class_same
  · exact create_sound sound inside there goes_on next class_same

theorem range_count {n : Nat} (x : Nat) :
    (List.range' 1 (n - 1)).count x = if 1 ≤ x ∧ x < n then 1 else 0 := by
  rw [List.Nodup.count List.nodup_range']
  apply if_congr _ rfl rfl
  rw [List.mem_range'_1]
  omega

theorem tree_count (hive : Hive) (x : Nat) :
    ((brood hive.numBees 0 hive.queenClass).map Prod.fst).count x =
      if 1 ≤ x ∧ x < hive.numBees then 1 else 0 := by
  obtain ⟨power, room, reach⟩ := hive.shape
  have below := brood_nodes power (by omega : 0 + hive.queenClass < hive.numBees)
  have all : min hive.numBees (0 + 2 * hive.queenClass) - (0 + 1) = hive.numBees - 1 := by omega
  rw [all] at below
  rw [below.count_eq]
  exact range_count x

theorem alloc_sound (hive : Hive) : Sound hive (allocHive hive) := by
  obtain ⟨power, room, reach⟩ := hive.shape
  have some_bee := hive.some_bee
  have others : ∀ x, ∀ localId, localId < hive.numBees → localId ≠ 1 →
      pendingCount hive x localId ((allocHive hive).bees localId) = 0 := by
    intro x localId _ notFirst
    by_cases queen : localId = 0
    · subst queen
      rfl
    · simp [pendingCount, pending, allocHive, queen, notFirst]
  by_cases several : 1 < hive.numBees
  · have positive : 0 < hive.queenClass := by omega
    have split := first_brood_perm positive power (n := hive.numBees)
    have first : (allocHive hive).bees 1 = ⟨.initialWorker, 0⟩ := by simp [allocHive, several]
    have inTree : ∀ entry, entry ∈ (1, 0) :: firstBrood hive.numBees hive.queenClass →
        entry ∈ tree hive.numBees hive.queenClass := by
      intro entry listed
      exact List.mem_cons_of_mem _ (split.symm.subset listed)
    constructor
    case balance =>
      intro x
      rw [Threads.total_single _ _ several (others x), ← tree_count hive x,
        (split.map Prod.fst).count_eq, List.map_cons, List.count_cons, pendingCount, first]
      simp only [allocHive, if_pos several, pending, List.count_cons, List.count_nil]
      omega
    case absent =>
      intro localId notQueen notCreated
      have notFirst : localId ≠ 1 := by
        rintro rfl
        simp [allocHive, several] at notCreated
      simp [allocHive, notQueen, notFirst]
    case started =>
      intro localId started
      simp only [allocHive, if_pos several, List.mem_singleton] at started
      rcases started with rfl | rfl
      · exact ⟨nofun, List.mem_cons_self ..⟩
      · rw [first]
        exact ⟨nofun, inTree _ (List.mem_cons_self ..)⟩
    case pending =>
      intro localId inside entry listed
      by_cases isFirst : localId = 1
      · subst isFirst
        rw [first] at listed
        exact inTree entry (List.mem_cons_of_mem _ listed)
      · by_cases queen : localId = 0
        · subst queen
          exact nomatch listed
        · simp [pending, allocHive, queen, isFirst] at listed
  · -- the queen is alone and creates nothing
    have single : hive.numBees = 1 := by omega
    constructor
    case balance =>
      intro x
      rw [Threads.total_eq_zero _ _ (fun localId inside => others x localId inside (by omega))]
      simp only [allocHive, if_neg several, List.count_nil]
      split_ifs <;> omega
    case absent =>
      intro localId notQueen _
      simp [allocHive, notQueen, several]
    case started =>
      intro localId started
      simp only [allocHive, if_neg several, List.not_mem_nil, or_false] at started
      subst started
      exact ⟨nofun, List.mem_cons_self ..⟩
    case pending =>
      intro localId inside entry listed
      have queen : localId = 0 := by omega
      subst queen
      exact nomatch listed

theorem run_sound {labels : List Nat} {after : State}
    (run : Trace.Run (Step hive) (allocHive hive) labels after) : Sound hive after :=
  run.invariant (Sound hive) (fun _ _ _ => step_sound) (alloc_sound hive)

/-- Three steps for each bee pending, and those of the thread itself. -/
def beeCost (hive : Hive) (localId : Nat) (bee : Bee) : Nat :=
  3 * (pending hive localId bee).length + bee.thread.cost

theorem step_falls {before after : State} (sound : Sound hive before)
    (step : Step hive before localId after) :
    Threads.total hive.numBees (beeCost hive) after.bees <
      Threads.total hive.numBees (beeCost hive) before.bees := by
  obtain ⟨inside, moved⟩ := step
  rcases advance_cases moved with ⟨bee, rfl, there, goes_on, same, class_same, cheaper⟩ |
    ⟨bee, son, bClass, rfl, there, goes_on, next, class_same, cheaper⟩
  · have first := Threads.total_moved (beeCost hive) before.bees inside bee
    have share := Threads.weight_le_total (beeCost hive) before.bees inside
    change Threads.total hive.numBees (beeCost hive) (Function.update before.bees localId bee) < _
    have less : beeCost hive localId bee < beeCost hive localId (before.bees localId) := by
      rw [beeCost, beeCost, same]
      omega
    omega
  · obtain ⟨within, _, absent⟩ := son_fresh sound inside next
    have differ : son ≠ localId := by
      rintro rfl
      exact there absent
    have first := Threads.total_moved (beeCost hive) before.bees inside bee
    have second := Threads.total_moved (beeCost hive) (Function.update before.bees localId bee)
      within.2 ⟨.control, bClass⟩
    have nothing : beeCost hive son (before.bees son) = 0 := by
      simp [beeCost, pending, absent, Thread.cost]
    rw [Function.update_of_ne differ, nothing] at second
    change Threads.total hive.numBees (beeCost hive)
      (Function.update (Function.update before.bees localId bee) son ⟨.control, bClass⟩) < _
    have spent : beeCost hive son ⟨.control, bClass⟩ + beeCost hive localId bee <
        beeCost hive localId (before.bees localId) := by
      have control : beeCost hive son ⟨.control, bClass⟩ =
          3 * (brood hive.numBees son (correctClass hive.numBees son bClass)).length + 2 := rfl
      rw [control, beeCost, beeCost, next, List.length_append, List.length_cons]
      omega
    omega

theorem unfinished_moves (unfinished : ¬ Finished hive state) :
    ∃ localId after, Step hive state localId after := by
  simp only [Finished, not_forall, not_or] at unfinished
  obtain ⟨localId, inside, there, working⟩ := unfinished
  cases moved : advance hive state localId with
  | some after => exact ⟨localId, after, inside, moved⟩
  | none =>
      rw [advance] at moved
      cases stage : (state.bees localId).thread with
      | absent => exact absurd stage there
      | serving => exact absurd stage working
      | initialWorker | control =>
          simp only [stage] at moved
          exact nomatch moved
      | initialLoop i | controlLoop i =>
          simp only [stage] at moved
          split at moved
          · exact nomatch moved
          · exact nomatch moved

/-- Once the threads serve, each bee has been started. -/
theorem finished_created (sound : Sound hive state) (finished : Finished hive state) :
    state.created.Perm (List.range' 1 (hive.numBees - 1)) := by
  rw [List.perm_iff_count]
  intro x
  have nothing : Threads.total hive.numBees (pendingCount hive x) state.bees = 0 := by
    apply Threads.total_eq_zero
    intro localId inside
    rcases finished localId inside with absent | serving
    · simp [pendingCount, pending, absent]
    · simp [pendingCount, pending, serving]
  have counted := sound.balance x
  rw [nothing, Nat.add_zero] at counted
  rw [counted, range_count]

/-- At the end each bee has the class it has in the tree. -/
theorem finished_classed (sound : Sound hive state) (finished : Finished hive state) :
    Classed hive state.bClass := by
  intro localId inside
  have started : localId = 0 ∨ localId ∈ state.created := by
    by_cases queen : localId = 0
    · exact Or.inl queen
    · apply Or.inr
      rw [(finished_created sound finished).mem_iff, List.mem_range'_1]
      omega
  obtain ⟨there, inTree⟩ := sound.started localId started
  have serving := (finished localId inside).resolve_left there
  simpa only [corrected, serving, State.bClass] using inTree

theorem creates_once (hive : Hive) : CreatesOnce hive := by
  refine ⟨⟨Threads.total hive.numBees (beeCost hive) (allocHive hive).bees, ?_⟩, ?_, ?_, ?_, ?_⟩
  · intro labels state run
    have bound := run.length_le (Sound hive)
      (fun state => Threads.total hive.numBees (beeCost hive) state.bees)
      (fun _ _ _ => step_sound) (fun _ _ _ => step_falls) (alloc_sound hive)
    omega
  · exact fun state => unfinished_moves
  · intro labels state run
    rw [List.nodup_iff_count]
    intro x
    have counted := (run_sound run).balance x
    split at counted <;> omega
  · intro labels state run localId listed
    have counted := (run_sound run).balance localId
    have some_time := List.count_pos_iff.mpr listed
    split at counted
    · assumption
    · omega
  · exact fun labels state run => finished_created (run_sound run)

/-- The creation comes to an end. -/
theorem creation_finishes (hive : Hive) : ∃ labels state,
    Trace.Run (Step hive) (allocHive hive) labels state ∧ Finished hive state :=
  Trace.exists_finished (Sound hive) (Finished hive)
    (fun state => Threads.total hive.numBees (beeCost hive) state.bees)
    (fun _ _ _ => step_sound) (fun _ _ _ => step_falls) (fun _ _ => unfinished_moves)
    (allocHive hive) (alloc_sound hive)

end Pending

end Sac2c.HiveCreation
