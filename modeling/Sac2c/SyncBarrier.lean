import Sac2c.HiveCreation

/-!
The barrier at the end of a multi-threaded function, SAC_MT_SYNC_BEGIN to
SAC_MT_SYNC_END (runtime/mt_h/rt_mt_beehive.h), with the flags of rt_mt_pth.h.
Each bee waits for its sons in the tree, folds their results into its own and
then releases its own flag. The bees reach the barrier in any order, and the
accesses to shared memory are steps of their own.
-/

namespace Sac2c.SyncBarrier

open BinomialTree HiveCreation

/-- Where a bee stands: not yet at the barrier, before one of the accesses in the
inner loop, before it sends its result, before it releases its flag, or past. -/
inductive Stage where
  | working
  | check (readyCount i : Nat)
  | fold (readyCount i : Nat)
  | clear (readyCount i : Nat)
  | send
  | set
  | passed
deriving DecidableEq, Repr

/-- Whether the result of a bee has been folded into another one, and the bees
whose results its own combines by now. -/
structure Share where
  absorbed : Bool
  folded : List Nat

/-- The `stop_lck` of each bee, `rdata` and the local `accu_NT`; `cleared` (who
cleared whose flag) and `share` are records the code does not keep. -/
structure State (Value : Type) where
  stage : Nat → Stage
  locked : Nat → Bool
  rdata : Nat → Value
  accu : Nat → Value
  cleared : List (Nat × Nat)
  share : Nat → Share

variable {Value : Type}

def State.goes (state : State Value) (bee : Nat) (stage : Stage) : State Value :=
  { state with stage := Function.update state.stage bee stage }

variable (hive : Hive) (bClass : Nat → Nat) (foldfun : Value → Value → Value)

/-- `while (SAC_MT_ready_count > 0)`, and the start of the inner loop. -/
def whileReady (workerClass readyCount : Nat) : Stage :=
  if 0 < readyCount then .check readyCount workerClass else .send

/-- `while (SAC_MT_i >>= 1)` -/
def doWhile (workerClass readyCount i : Nat) : Stage :=
  if 0 < i / 2 then .check readyCount (i / 2) else whileReady workerClass readyCount

/-- SAC_MT_SYNC_FOLD for the son at the distance `i`. -/
def syncFold (state : State Value) (bee i : Nat) : State Value :=
  { state with
    accu := Function.update state.accu bee (foldfun (state.accu bee) (state.rdata (bee + i)))
    share := Function.update
      (Function.update state.share bee
        { state.share bee with
          folded := (state.share bee).folded ++ (bee + i) :: (state.share (bee + i)).folded })
      (bee + i) { state.share (bee + i) with absorbed := true } }

/-- SAC_MT_CLEAR_BARRIER for the son at the distance `i`, once its flag is released. -/
def clearBarrier (state : State Value) (bee i : Nat) : State Value :=
  { state with
    locked := Function.update state.locked (bee + i) true
    cleared := (bee, bee + i) :: state.cleared }

/-- The next step of a bee; none once it is past the barrier. -/
def advance (state : State Value) (bee : Nat) : Option (State Value) :=
  match state.stage bee with
  | .working => some (state.goes bee (whileReady (bClass bee) (bClass bee)))
  | .check readyCount i =>
      if state.locked (bee + i) then some (state.goes bee (doWhile (bClass bee) readyCount i))
      else some (state.goes bee (.fold readyCount i))
  | .fold readyCount i => some ((syncFold foldfun state bee i).goes bee (.clear readyCount i))
  | .clear readyCount i =>
      -- SAC_MT_PTH_acquire_lck spins until the flag is released
      if state.locked (bee + i) then some state
      else if readyCount / 2 = 0 then
        some ((clearBarrier state bee i).goes bee (whileReady (bClass bee) (readyCount / 2)))
      else some ((clearBarrier state bee i).goes bee (doWhile (bClass bee) (readyCount / 2) i))
  | .send =>
      some { state.goes bee .set with rdata := Function.update state.rdata bee (state.accu bee) }
  | .set => some { state.goes bee .passed with locked := Function.update state.locked bee false }
  | .passed => none

def Step (before : State Value) (bee : Nat) (after : State Value) : Prop :=
  bee < hive.numBees ∧ advance bClass foldfun before bee = some after

/-- What a step of a bee does, by the stage it is at. -/
inductive Moves (before : State Value) (bee : Nat) : State Value → Prop where
  | working (here : before.stage bee = .working) :
      Moves before bee (before.goes bee (whileReady (bClass bee) (bClass bee)))
  | skips {readyCount i : Nat} (here : before.stage bee = .check readyCount i)
      (locked : before.locked (bee + i) = true) :
      Moves before bee (before.goes bee (doWhile (bClass bee) readyCount i))
  | finds {readyCount i : Nat} (here : before.stage bee = .check readyCount i)
      (released : before.locked (bee + i) = false) :
      Moves before bee (before.goes bee (.fold readyCount i))
  | folds {readyCount i : Nat} (here : before.stage bee = .fold readyCount i) :
      Moves before bee ((syncFold foldfun before bee i).goes bee (.clear readyCount i))
  | spins {readyCount i : Nat} (here : before.stage bee = .clear readyCount i)
      (locked : before.locked (bee + i) = true) : Moves before bee before
  | clearsLast {readyCount i : Nat} (here : before.stage bee = .clear readyCount i)
      (zero : readyCount / 2 = 0) :
      Moves before bee
        ((clearBarrier before bee i).goes bee (whileReady (bClass bee) (readyCount / 2)))
  | clears {readyCount i : Nat} (here : before.stage bee = .clear readyCount i)
      (again : readyCount / 2 ≠ 0) :
      Moves before bee
        ((clearBarrier before bee i).goes bee (doWhile (bClass bee) (readyCount / 2) i))
  | sends (here : before.stage bee = .send) :
      Moves before bee
        { before.goes bee .set with
          rdata := Function.update before.rdata bee (before.accu bee) }
  | sets (here : before.stage bee = .set) :
      Moves before bee
        { before.goes bee .passed with locked := Function.update before.locked bee false }

theorem moves_of_advance {before after : State Value} {bee : Nat}
    (moved : advance bClass foldfun before bee = some after) :
    Moves bClass foldfun before bee after := by
  rw [advance] at moved
  cases here : before.stage bee with
  | working =>
      rw [here] at moved
      cases moved
      exact .working here
  | check readyCount i =>
      simp only [here] at moved
      split at moved
      · next locked =>
          cases moved
          exact .skips here locked
      · next released =>
          cases moved
          exact .finds here (Bool.eq_false_iff.mpr released)
  | fold readyCount i =>
      rw [here] at moved
      cases moved
      exact .folds here
  | clear readyCount i =>
      simp only [here] at moved
      split at moved
      · next locked =>
          cases moved
          exact .spins here locked
      · split at moved
        · next zero =>
            cases moved
            exact .clearsLast here zero
        · next again =>
            cases moved
            exact .clears here again
  | send =>
      rw [here] at moved
      cases moved
      exact .sends here
  | set =>
      rw [here] at moved
      cases moved
      exact .sets here
  | passed =>
      rw [here] at moved
      exact nomatch moved

theorem advance_none_iff {state : State Value} {bee : Nat} :
    advance bClass foldfun state bee = none ↔ state.stage bee = .passed := by
  rw [advance]
  cases here : state.stage bee with
  | working | fold readyCount i | send | set | passed => simp
  | check readyCount i =>
      dsimp only
      split <;> simp
  | clear readyCount i =>
      dsimp only
      split
      · simp
      · split <;> simp

/-- The bees have their partial results and work; all flags are locked but, maybe, the queen's. -/
def begun (queenLocked : Bool) (partialResult rdata : Nat → Value) : State Value where
  stage := fun _ => .working
  locked := fun bee => if bee = 0 then queenLocked else true
  rdata := rdata
  accu := partialResult
  cleared := []
  share := fun _ => ⟨false, []⟩

/-- The bees whose flags a bee awaits. -/
def sons (bee : Nat) : List Nat := (halves (bClass bee)).map (bee + ·)

def SonOf (son bee : Nat) : Prop := bee < hive.numBees ∧ son ∈ sons bClass bee

/-- The runs of the barrier from the start to a state. -/
abbrev Reaches (queenLocked : Bool) (partialResult rdata : Nat → Value) (labels : List Nat)
    (state : State Value) : Prop :=
  Trace.Run (Step hive bClass foldfun) (begun queenLocked partialResult rdata) labels state

/-- What the barrier is for. -/
structure CollectsOnce (queenLocked : Bool) (partialResult rdata : Nat → Value) : Prop where
  awaited : ∀ son, 1 ≤ son → son < hive.numBees → ∃! bee, SonOf hive bClass son bee
  queen_unawaited : ∀ bee, ¬ SonOf hive bClass 0 bee
  cleared_once : ∀ labels state,
    Reaches hive bClass foldfun queenLocked partialResult rdata labels state →
    (state.cleared.map Prod.snd).Nodup ∧
      ∀ bee son, (bee, son) ∈ state.cleared → SonOf hive bClass son bee
  cleared_all : ∀ labels state,
    Reaches hive bClass foldfun queenLocked partialResult rdata labels state →
    state.stage 0 = .passed →
    (state.cleared.map Prod.snd).Perm (List.range' 1 (hive.numBees - 1))
  ordered : ∀ labels state,
    Reaches hive bClass foldfun queenLocked partialResult rdata labels state →
    ∀ bee below, bee < hive.numBees → state.stage bee = .passed →
      Relation.TransGen (SonOf hive bClass) below bee → state.stage below = .passed
  moves : ∀ (state : State Value) bee, bee < hive.numBees → state.stage bee ≠ .passed →
    ∃ after, Step hive bClass foldfun state bee after
  terminates : ∀ bee, bee < hive.numBees → ∃ limit, ∀ labels state,
    Reaches hive bClass foldfun queenLocked partialResult rdata labels state →
    (∀ son, son ∈ sons bClass bee → state.stage son = .passed) →
    ∀ labels' after, Trace.Run (Step hive bClass foldfun) state labels' after →
      limit ≤ labels'.count bee → after.stage bee = .passed
  combines : ∀ labels state,
    Reaches hive bClass foldfun queenLocked partialResult rdata labels state →
    state.stage 0 = .passed → state.accu 0 =
      ((List.range' 1 (hive.numBees - 1)).map partialResult).foldl foldfun (partialResult 0)

section Sons

variable {hive bClass} {bee i : Nat}

theorem mem_sons {son : Nat} :
    son ∈ sons bClass bee ↔ ∃ i, i ∈ halves (bClass bee) ∧ bee + i = son :=
  List.mem_map

theorem sons_nodup (bClass : Nat → Nat) (bee : Nat) : (sons bClass bee).Nodup :=
  (halves_nodup (bClass bee)).map (fun _ _ same => Nat.add_left_cancel same)

theorem tree_inside (hive : Hive) {node c : Nat}
    (member : (node, c) ∈ tree hive.numBees hive.queenClass) : node < hive.numBees := by
  obtain ⟨power, room, reach⟩ := hive.shape
  have listed := (tree_nodes power room reach).subset (List.mem_map_of_mem member)
  exact List.mem_range.mp listed

/-- A node of the tree has one class. -/
theorem tree_class (hive : Hive) {node c d : Nat}
    (first : (node, c) ∈ tree hive.numBees hive.queenClass)
    (second : (node, d) ∈ tree hive.numBees hive.queenClass) : c = d := by
  obtain ⟨power, room, reach⟩ := hive.shape
  have distinct : ((tree hive.numBees hive.queenClass).map Prod.fst).Nodup :=
    (tree_nodes power room reach).nodup_iff.mpr List.nodup_range
  exact (Prod.ext_iff.mp (List.inj_on_of_nodup_map distinct first second rfl)).2

variable (classed : Classed hive bClass)
include classed

theorem son_inside (inside : bee < hive.numBees) (listed : i ∈ halves (bClass bee)) :
    bee + i < hive.numBees :=
  tree_inside hive (tree_son (classed bee inside) listed)

theorem father_exists {son : Nat} (positive : 1 ≤ son) (inside : son < hive.numBees) :
    ∃ bee i, bee < hive.numBees ∧ i ∈ halves (bClass bee) ∧ son = bee + i := by
  obtain ⟨bee, d, i, member, listed, same⟩ := tree_father (classed son inside) (by omega)
  have within := tree_inside hive member
  rw [tree_class hive member (classed bee within)] at listed
  exact ⟨bee, i, within, listed, same⟩

theorem father_unique {bee' i' : Nat} (inside : bee < hive.numBees)
    (inside' : bee' < hive.numBees) (listed : i ∈ halves (bClass bee))
    (listed' : i' ∈ halves (bClass bee')) (same : bee + i = bee' + i') : bee = bee' ∧ i = i' :=
  sons_apart hive.shape.1 (classed bee inside) (classed bee' inside') listed listed' same

end Sons

section Order

variable {hive bClass foldfun} {state : State Value} {bee i : Nat}

/-- How many flags a bee has cleared. -/
def clearedBy (cleared : List (Nat × Nat)) (bee : Nat) : Nat :=
  (cleared.filter (fun entry => entry.1 = bee)).length

/-- The counter of a bee, shifted once for each son, and what the bee waits for. -/
def Fits (bClass : Nat → Nat) (locked : Nat → Bool) (cleared : List (Nat × Nat)) (bee : Nat) :
    Stage → Prop
  | .working => clearedBy cleared bee = 0
  | .check readyCount i => i ∈ halves (bClass bee) ∧ 0 < readyCount ∧
      (halves readyCount).length + clearedBy cleared bee = (halves (bClass bee)).length
  | .fold readyCount i => (i ∈ halves (bClass bee) ∧ 0 < readyCount ∧
      (halves readyCount).length + clearedBy cleared bee = (halves (bClass bee)).length) ∧
        locked (bee + i) = false
  | .clear readyCount i => (i ∈ halves (bClass bee) ∧ 0 < readyCount ∧
      (halves readyCount).length + clearedBy cleared bee = (halves (bClass bee)).length) ∧
        locked (bee + i) = false
  | .send => ∀ son, son ∈ sons bClass bee → (bee, son) ∈ cleared
  | .set => ∀ son, son ∈ sons bClass bee → (bee, son) ∈ cleared
  | .passed => ∀ son, son ∈ sons bClass bee → (bee, son) ∈ cleared

/-- The flags cleared are those of sons, each once. -/
def ClearedSons (hive : Hive) (bClass : Nat → Nat) (cleared : List (Nat × Nat)) : Prop :=
  (∀ bee son, (bee, son) ∈ cleared → SonOf hive bClass son bee) ∧ (cleared.map Prod.snd).Nodup

/-- A flag is released between the time its bee passes and the time it is cleared. -/
structure Ordered (hive : Hive) (bClass : Nat → Nat) (state : State Value) : Prop where
  fits : ∀ bee, bee < hive.numBees → Fits bClass state.locked state.cleared bee (state.stage bee)
  flag : ∀ son, 1 ≤ son → son < hive.numBees → (state.locked son = false ↔
    state.stage son = .passed ∧ son ∉ state.cleared.map Prod.snd)
  cleared : ClearedSons hive bClass state.cleared
  passed : ∀ bee son, (bee, son) ∈ state.cleared → state.stage son = .passed

/-- A bee that does not pass changes its stage only. -/
theorem Ordered.goes (ordered : Ordered hive bClass state) {stage : Stage}
    (before : state.stage bee ≠ .passed) (after : stage ≠ .passed)
    (fits : Fits bClass state.locked state.cleared bee stage) :
    Ordered hive bClass (state.goes bee stage) := by
  have passed : ∀ son, (state.goes bee stage).stage son = .passed ↔ state.stage son = .passed := by
    intro son
    by_cases same : son = bee
    · subst same
      exact iff_of_false (by simpa [State.goes] using after) before
    · simp only [State.goes, Function.update_of_ne same]
  refine ⟨?_, ?_, ordered.cleared, ?_⟩
  · intro other inside
    by_cases same : other = bee
    · subst same
      simpa only [State.goes, Function.update_self] using fits
    · simpa only [State.goes, Function.update_of_ne same] using ordered.fits other inside
  · intro son positive inside
    rw [passed]
    exact ordered.flag son positive inside
  · intro other son listed
    rw [passed]
    exact ordered.passed other son listed

variable {locked : Nat → Bool} {cleared : List (Nat × Nat)} {readyCount : Nat}

/-- A bee that has cleared as many flags as it has sons has cleared theirs. -/
theorem all_cleared (valid : ClearedSons hive bClass cleared)
    (full : clearedBy cleared bee = (halves (bClass bee)).length) :
    ∀ son, son ∈ sons bClass bee → (bee, son) ∈ cleared := by
  have listed : ((cleared.filter (fun entry => entry.1 = bee)).map Prod.snd).Nodup :=
    valid.2.sublist (List.filter_sublist.map Prod.snd)
  have within : (cleared.filter (fun entry => entry.1 = bee)).map Prod.snd ⊆
      sons bClass bee := by
    intro son member
    obtain ⟨⟨father, _⟩, kept, rfl⟩ := List.mem_map.mp member
    obtain ⟨there, same⟩ := List.mem_filter.mp kept
    simp only [decide_eq_true_eq] at same
    subst same
    exact (valid.1 _ _ there).2
  have length : (sons bClass bee).length ≤
      ((cleared.filter (fun entry => entry.1 = bee)).map Prod.snd).length := by
    rw [List.length_map, sons, List.length_map]
    exact Nat.le_of_eq full.symm
  have perm := (List.subperm_of_subset listed within).perm_of_length_le length
  intro son member
  obtain ⟨⟨father, _⟩, kept, rfl⟩ := List.mem_map.mp (perm.symm.subset member)
  obtain ⟨there, same⟩ := List.mem_filter.mp kept
  simp only [decide_eq_true_eq] at same
  subst same
  exact there

theorem while_ready_fits (valid : ClearedSons hive bClass cleared)
    (count : (halves readyCount).length + clearedBy cleared bee = (halves (bClass bee)).length) :
    Fits bClass locked cleared bee (whileReady (bClass bee) readyCount) := by
  rw [whileReady]
  split
  · next more =>
      refine ⟨?_, more, count⟩
      have several : 0 < bClass bee := by
        by_contra none
        rw [Nat.eq_zero_of_not_pos none, halves_zero, halves_pos more] at count
        simp at count
      rw [halves_pos several]
      exact List.mem_cons_self ..
  · next zero =>
      rw [Nat.eq_zero_of_not_pos zero, halves_zero] at count
      exact all_cleared valid (by simpa using count)

theorem do_while_fits (valid : ClearedSons hive bClass cleared)
    (listed : i ∈ halves (bClass bee)) (more : 0 < readyCount)
    (count : (halves readyCount).length + clearedBy cleared bee = (halves (bClass bee)).length) :
    Fits bClass locked cleared bee (doWhile (bClass bee) readyCount i) := by
  rw [doWhile]
  split
  · next positive => exact ⟨halves_half listed positive, more, count⟩
  · exact while_ready_fits valid count

/-- What fits a bee still does when others clear or release flags. -/
theorem Fits.frame {locked' : Nat → Bool} {cleared' : List (Nat × Nat)} {stage : Stage}
    (fits : Fits bClass locked cleared bee stage)
    (counted : clearedBy cleared' bee = clearedBy cleared bee)
    (kept : ∀ entry, entry ∈ cleared → entry ∈ cleared')
    (released : ∀ i, i ∈ halves (bClass bee) → locked (bee + i) = false →
      locked' (bee + i) = false) :
    Fits bClass locked' cleared' bee stage := by
  cases stage with
  | working => exact counted.trans fits
  | check readyCount i => exact ⟨fits.1, fits.2.1, counted ▸ fits.2.2⟩
  | fold readyCount i | clear readyCount i =>
      obtain ⟨⟨listed, more, count⟩, unlocked⟩ := fits
      exact ⟨⟨listed, more, counted ▸ count⟩, released i listed unlocked⟩
  | send | set | passed => exact fun son member => kept _ (fits son member)

theorem while_ready_unpassed (workerClass readyCount : Nat) :
    whileReady workerClass readyCount ≠ .passed := by
  rw [whileReady]
  split <;> exact nofun

theorem do_while_unpassed (workerClass readyCount i : Nat) :
    doWhile workerClass readyCount i ≠ .passed := by
  rw [doWhile]
  split
  · exact nofun
  · exact while_ready_unpassed workerClass readyCount

/-- The flag of a son is cleared; the bee goes on to a stage that fits. -/
theorem clear_ordered (classed : Classed hive bClass) (ordered : Ordered hive bClass state)
    (inside : bee < hive.numBees) {stage : Stage}
    (here : state.stage bee = .clear readyCount i) (after : stage ≠ .passed)
    (fits : ClearedSons hive bClass ((bee, bee + i) :: state.cleared) →
      (halves (readyCount / 2)).length + clearedBy ((bee, bee + i) :: state.cleared) bee =
        (halves (bClass bee)).length →
      Fits bClass (clearBarrier state bee i).locked ((bee, bee + i) :: state.cleared) bee stage) :
    Ordered hive bClass ((clearBarrier state bee i).goes bee stage) := by
  have known := ordered.fits bee inside
  rw [here] at known
  obtain ⟨⟨listed, more, count⟩, released⟩ := known
  have positive := (halves_bounds listed).1
  have within := son_inside classed inside listed
  obtain ⟨sonPassed, uncleared⟩ := (ordered.flag (bee + i) (by omega) within).mp released
  have valid : ClearedSons hive bClass ((bee, bee + i) :: state.cleared) := by
    refine ⟨?_, List.nodup_cons.mpr ⟨uncleared, ordered.cleared.2⟩⟩
    intro father son member
    rcases List.mem_cons.mp member with same | before
    · cases same
      exact ⟨inside, mem_sons.mpr ⟨i, listed, rfl⟩⟩
    · exact ordered.cleared.1 father son before
  -- no bee passes in this step
  have passed : ∀ son, ((clearBarrier state bee i).goes bee stage).stage son = .passed ↔
      state.stage son = .passed := by
    intro son
    by_cases same : son = bee
    · subst same
      refine iff_of_false (by simpa [State.goes] using after) ?_
      rw [here]
      exact nofun
    · simp only [State.goes, clearBarrier, Function.update_of_ne same]
  refine ⟨?_, ?_, valid, ?_⟩
  · intro other inside'
    by_cases same : other = bee
    · subst same
      simp only [State.goes, Function.update_self]
      apply fits valid
      rw [halves_pos more, List.length_cons] at count
      rw [clearedBy, List.filter_cons, if_pos (by simp), List.length_cons, ← clearedBy]
      omega
    · simp only [State.goes, Function.update_of_ne same]
      apply (ordered.fits other inside').frame
      · rw [clearedBy, clearBarrier, List.filter_cons, if_neg (by simpa using Ne.symm same), clearedBy]
      · exact fun entry member => List.mem_cons_of_mem _ member
      · intro i' listed' unlocked
        -- a son has one father, so no other bee has seen this flag released
        have apart : other + i' ≠ bee + i := by
          intro equal
          exact same (father_unique classed inside' inside listed' listed equal).1
        exact (Function.update_of_ne apart ..).trans unlocked
  · intro son positive' inside'
    rw [passed]
    by_cases same : son = bee + i
    · subst same
      refine iff_of_false ?_ ?_
      · simp [State.goes, clearBarrier]
      · exact fun unlisted => unlisted.2 (List.mem_cons_self ..)
    · simp only [State.goes, clearBarrier, Function.update_of_ne same, List.map_cons,
        List.mem_cons, same, false_or]
      exact ordered.flag son positive' inside'
  · intro father son member
    rw [passed]
    rcases List.mem_cons.mp member with same | before
    · cases same
      exact sonPassed
    · exact ordered.passed father son before

/-- A bee releases its flag. -/
theorem set_ordered (ordered : Ordered hive bClass state) (inside : bee < hive.numBees)
    (here : state.stage bee = .set) :
    Ordered hive bClass
      { state.goes bee .passed with locked := Function.update state.locked bee false } := by
  have known := ordered.fits bee inside
  rw [here] at known
  refine ⟨?_, ?_, ordered.cleared, ?_⟩
  · intro other inside'
    have released : ∀ i, i ∈ halves (bClass other) → state.locked (other + i) = false →
        Function.update state.locked bee false (other + i) = false := by
      intro i _ unlocked
      by_cases same : other + i = bee
      · rw [same, Function.update_self]
      · rwa [Function.update_of_ne same]
    by_cases same : other = bee
    · subst same
      simp only [State.goes, Function.update_self]
      exact known
    · simp only [State.goes, Function.update_of_ne same]
      exact (ordered.fits other inside').frame rfl (fun _ member => member) released
  · intro son positive inside'
    by_cases same : son = bee
    · subst same
      simp only [State.goes, Function.update_self, true_iff, true_and]
      intro listed
      obtain ⟨⟨father, _⟩, member, rfl⟩ := List.mem_map.mp listed
      exact nomatch here.symm.trans (ordered.passed father _ member)
    · simp only [State.goes, Function.update_of_ne same]
      exact ordered.flag son positive inside'
  · intro father son member
    by_cases same : son = bee
    · subst same
      simp only [State.goes, Function.update_self]
    · simp only [State.goes, Function.update_of_ne same]
      exact ordered.passed father son member

/-- The step of a bee keeps the order of the flags. -/
theorem step_ordered {before after : State Value} (classed : Classed hive bClass)
    (ordered : Ordered hive bClass before) (step : Step hive bClass foldfun before bee after) :
    Ordered hive bClass after := by
  obtain ⟨inside, moved⟩ := step
  have known := ordered.fits bee inside
  cases moves_of_advance bClass foldfun moved with
  | working here =>
      rw [here] at known
      apply ordered.goes (here ▸ nofun) (while_ready_unpassed _ _)
      exact while_ready_fits ordered.cleared (by simp only [Fits] at known; omega)
  | skips here locked =>
      rw [here] at known
      obtain ⟨listed, more, count⟩ := known
      exact ordered.goes (here ▸ nofun) (do_while_unpassed _ _ _)
        (do_while_fits ordered.cleared listed more count)
  | finds here released =>
      rw [here] at known
      exact ordered.goes (here ▸ nofun) nofun ⟨known, released⟩
  | @folds readyCount i here =>
      rw [here] at known
      have folded : Ordered hive bClass (syncFold foldfun before bee i) :=
        ⟨ordered.fits, ordered.flag, ordered.cleared, ordered.passed⟩
      exact folded.goes (by rw [syncFold, here]; exact nofun) nofun known
  | spins here locked => exact ordered
  | clearsLast here zero =>
      exact clear_ordered classed ordered inside here (while_ready_unpassed _ _)
        (fun valid => while_ready_fits valid)
  | clears here again =>
      rw [here] at known
      exact clear_ordered classed ordered inside here (do_while_unpassed _ _ _)
        (fun valid => do_while_fits valid known.1.1 (Nat.pos_of_ne_zero again))
  | sends here =>
      rw [here] at known
      have sent : Ordered hive bClass (before.goes bee .set) :=
        ordered.goes (here ▸ nofun) nofun known
      exact ⟨sent.fits, sent.flag, sent.cleared, sent.passed⟩
  | sets here => exact set_ordered ordered inside here

theorem begun_ordered (hive : Hive) (bClass : Nat → Nat) (queenLocked : Bool)
    (partialResult rdata : Nat → Value) :
    Ordered hive bClass (begun queenLocked partialResult rdata) := by
  refine ⟨fun _ _ => rfl, ?_, ⟨nofun, List.nodup_nil⟩, nofun⟩
  intro son positive _
  have notQueen : son ≠ 0 := by omega
  simp [begun, notQueen]

/-- A bee past the barrier has cleared its sons, so those below it are past it too. -/
theorem Ordered.below (ordered : Ordered hive bClass state) {below : Nat}
    (inside : bee < hive.numBees) (passed : state.stage bee = .passed)
    (path : Relation.TransGen (SonOf hive bClass) below bee) : state.stage below = .passed := by
  induction path using Relation.TransGen.head_induction_on with
  | single son =>
      have known := ordered.fits bee inside
      rw [passed] at known
      exact ordered.passed bee _ (known _ son.2)
  | head son _ ih =>
      have known := ordered.fits _ son.1
      rw [ih] at known
      exact ordered.passed _ _ (known _ son.2)

end Order

section Values

variable {hive bClass foldfun} {state : State Value} {bee i : Nat} {partialResult : Nat → Value}

/-- How often a result that is not absorbed yet combines the one of `x`. -/
def shareCount (x bee : Nat) (share : Share) : Nat :=
  if share.absorbed then 0 else (bee :: share.folded).count x

/-- A bee is about to clear the flag of a son whose result it has folded. -/
def Folded (hive : Hive) (state : State Value) (son : Nat) : Prop :=
  ∃ bee readyCount i, bee < hive.numBees ∧ state.stage bee = .clear readyCount i ∧ son = bee + i

/-- Each partial result is combined once in the results that are not absorbed. -/
structure Balanced (hive : Hive) (foldfun : Value → Value → Value) (partialResult : Nat → Value)
    (state : State Value) : Prop where
  sent : ∀ bee, bee < hive.numBees → state.stage bee = .set ∨ state.stage bee = .passed →
    state.rdata bee = state.accu bee
  accu : ∀ bee, bee < hive.numBees → state.accu bee =
    ((state.share bee).folded.map partialResult).foldl foldfun (partialResult bee)
  absorbed : ∀ son, son < hive.numBees → ((state.share son).absorbed = true ↔
    son ∈ state.cleared.map Prod.snd ∨ Folded hive state son)
  balance : ∀ x, Threads.total hive.numBees (shareCount x) state.share =
    if x < hive.numBees then 1 else 0

/-- The chunk of the loop in which a bee has folded a result but not cleared the flag. -/
def Stage.isClear : Stage → Bool
  | .clear _ _ => true
  | _ => false

theorem while_ready_not_clear (workerClass readyCount : Nat) :
    (whileReady workerClass readyCount).isClear = false := by
  rw [whileReady]
  split <;> rfl

theorem do_while_not_clear (workerClass readyCount i : Nat) :
    (doWhile workerClass readyCount i).isClear = false := by
  rw [doWhile]
  split
  · rfl
  · exact while_ready_not_clear workerClass readyCount

theorem while_ready_not_set (workerClass readyCount : Nat) :
    whileReady workerClass readyCount ≠ .set := by
  rw [whileReady]
  split <;> exact nofun

theorem do_while_not_set (workerClass readyCount i : Nat) :
    doWhile workerClass readyCount i ≠ .set := by
  rw [doWhile]
  split
  · exact nofun
  · exact while_ready_not_set workerClass readyCount

/-- A change of stage between others than `clear` folds nothing. -/
theorem folded_goes {stage : Stage} (before : (state.stage bee).isClear = false)
    (after : stage.isClear = false) (son : Nat) :
    Folded hive (state.goes bee stage) son ↔ Folded hive state son := by
  have same : ∀ other readyCount i, (state.goes bee stage).stage other = .clear readyCount i ↔
      state.stage other = .clear readyCount i := by
    intro other readyCount i
    by_cases same : other = bee
    · subst same
      refine iff_of_false ?_ ?_
      · rintro equal
        simp only [State.goes, Function.update_self] at equal
        rw [equal] at after
        exact nomatch after
      · rintro equal
        rw [equal] at before
        exact nomatch before
    · simp only [State.goes, Function.update_of_ne same]
  simp only [Folded, same]

theorem folded_clear {readyCount : Nat} (inside : bee < hive.numBees)
    (before : (state.stage bee).isClear = false) (son : Nat) :
    Folded hive (state.goes bee (.clear readyCount i)) son ↔
      son = bee + i ∨ Folded hive state son := by
  constructor
  · rintro ⟨other, readyCount', i', within, here, rfl⟩
    by_cases same : other = bee
    · subst same
      simp only [State.goes, Function.update_self, Stage.clear.injEq] at here
      exact Or.inl (here.2 ▸ rfl)
    · simp only [State.goes, Function.update_of_ne same] at here
      exact Or.inr ⟨other, readyCount', i', within, here, rfl⟩
  · rintro (rfl | ⟨other, readyCount', i', within, here, rfl⟩)
    · exact ⟨bee, readyCount, i, inside, Function.update_self .., rfl⟩
    · have differ : other ≠ bee := by
        rintro rfl
        rw [here] at before
        exact nomatch before
      exact ⟨other, readyCount', i', within, (Function.update_of_ne differ ..).trans here, rfl⟩

theorem Balanced.goes (balanced : Balanced hive foldfun partialResult state) {stage : Stage}
    (before : (state.stage bee).isClear = false) (after : stage.isClear = false)
    (unsent : stage ≠ .set) (unpassed : stage ≠ .passed) :
    Balanced hive foldfun partialResult (state.goes bee stage) := by
  refine ⟨?_, balanced.accu, ?_, balanced.balance⟩
  · intro other inside done
    by_cases same : other = bee
    · subst same
      simp only [State.goes, Function.update_self] at done
      exact (done.elim unsent unpassed).elim
    · simp only [State.goes, Function.update_of_ne same] at done
      exact balanced.sent other inside done
  · intro son inside
    rw [folded_goes before after]
    exact balanced.absorbed son inside

/-- What a bee in the loop has not sent is not absorbed. -/
theorem unpassed_not_absorbed (ordered : Ordered hive bClass state)
    (balanced : Balanced hive foldfun partialResult state) (inside : bee < hive.numBees)
    (unpassed : state.stage bee ≠ .passed) : (state.share bee).absorbed = false := by
  rw [Bool.eq_false_iff]
  intro absorbed
  rcases (balanced.absorbed bee inside).mp absorbed with
    listed | ⟨father, readyCount, i, within, here, same⟩
  · obtain ⟨⟨father, _⟩, member, rfl⟩ := List.mem_map.mp listed
    exact unpassed (ordered.passed father _ member)
  · have known := ordered.fits father within
    rw [here] at known
    obtain ⟨⟨listed, _, _⟩, released⟩ := known
    have positive := (halves_bounds listed).1
    rw [← same] at released
    exact unpassed ((ordered.flag bee (by omega) inside).mp released).1

/-- The flag of the son folded last is cleared. -/
theorem clear_balanced (balanced : Balanced hive foldfun partialResult state)
    (inside : bee < hive.numBees) {readyCount : Nat} {stage : Stage}
    (here : state.stage bee = .clear readyCount i) (after : stage.isClear = false)
    (unsent : stage ≠ .set) (unpassed : stage ≠ .passed) :
    Balanced hive foldfun partialResult ((clearBarrier state bee i).goes bee stage) := by
  refine ⟨?_, balanced.accu, ?_, balanced.balance⟩
  · intro other inside' done
    by_cases same : other = bee
    · subst same
      simp only [State.goes, Function.update_self] at done
      exact (done.elim unsent unpassed).elim
    · simp only [State.goes, Function.update_of_ne same] at done
      exact balanced.sent other inside' done
  · intro son inside'
    refine (balanced.absorbed son inside').trans ?_
    simp only [State.goes, clearBarrier, List.map_cons, List.mem_cons]
    constructor
    · rintro (listed | ⟨other, readyCount', i', within, here', same⟩)
      · exact Or.inl (Or.inr listed)
      · by_cases isBee : other = bee
        · subst isBee
          cases here.symm.trans here'
          exact Or.inl (Or.inl same)
        · exact Or.inr ⟨other, readyCount', i', within,
            (Function.update_of_ne isBee ..).trans here', same⟩
    · rintro ((same | listed) | ⟨other, readyCount', i', within, here', same⟩)
      · exact Or.inr ⟨bee, readyCount, i, inside, here, same⟩
      · exact Or.inl listed
      · by_cases isBee : other = bee
        · subst isBee
          simp only [Function.update_self] at here'
          rw [here'] at after
          exact nomatch after
        · dsimp only at here'
          rw [Function.update_of_ne isBee] at here'
          exact Or.inr ⟨other, readyCount', i', within, here', same⟩

/-- The son whose result is about to be folded has passed and is absorbed by nobody: only
this bee could have folded it. -/
theorem son_unabsorbed (classed : Classed hive bClass) (ordered : Ordered hive bClass state)
    (balanced : Balanced hive foldfun partialResult state) (inside : bee < hive.numBees)
    {readyCount : Nat} (here : state.stage bee = .fold readyCount i) :
    0 < i ∧ bee + i < hive.numBees ∧ state.stage (bee + i) = .passed ∧
      (state.share (bee + i)).absorbed = false := by
  have known := ordered.fits bee inside
  rw [here] at known
  obtain ⟨⟨listed, _, _⟩, released⟩ := known
  have positive := (halves_bounds listed).1
  have within := son_inside classed inside listed
  obtain ⟨passed, uncleared⟩ := (ordered.flag (bee + i) (by omega) within).mp released
  have unfolded : ¬ Folded hive state (bee + i) := by
    rintro ⟨other, readyCount', i', inside', here', same⟩
    have known' := ordered.fits other inside'
    rw [here'] at known'
    obtain ⟨rfl, _⟩ := father_unique classed inside inside' listed known'.1.1 same
    exact nomatch here.symm.trans here'
  refine ⟨positive, within, passed, ?_⟩
  rw [Bool.eq_false_iff]
  intro absorbed
  exact ((balanced.absorbed _ within).mp absorbed).elim uncleared unfolded

/-- A share that takes in another one, which is then absorbed, leaves the total as it is. -/
theorem fold_balance {count son : Nat} (share : Nat → Share) (inside : bee < count)
    (within : son < count) (differ : son ≠ bee) (own : (share bee).absorbed = false)
    (unabsorbed : (share son).absorbed = false) (x : Nat) :
    Threads.total count (shareCount x) (Function.update (Function.update share bee
        { share bee with folded := (share bee).folded ++ son :: (share son).folded }) son
        { share son with absorbed := true }) =
      Threads.total count (shareCount x) share := by
  have first := Threads.total_moved (shareCount x) share inside
    { share bee with folded := (share bee).folded ++ son :: (share son).folded }
  have second := Threads.total_moved (shareCount x) (Function.update share bee
    { share bee with folded := (share bee).folded ++ son :: (share son).folded })
    within { share son with absorbed := true }
  have beeCount : shareCount x bee
      { share bee with folded := (share bee).folded ++ son :: (share son).folded } =
      shareCount x bee (share bee) + shareCount x son (share son) := by
    simp only [shareCount, own, unabsorbed, Bool.false_eq_true, if_false, ← List.cons_append,
      List.count_append]
  have sonCount : shareCount x son { share son with absorbed := true } = 0 := rfl
  rw [beeCount] at first
  rw [Function.update_of_ne differ, sonCount] at second
  omega

variable [Std.Associative foldfun]

/-- A bee folds the result of a son that has passed. -/
theorem fold_balanced (classed : Classed hive bClass) (ordered : Ordered hive bClass state)
    (balanced : Balanced hive foldfun partialResult state) (inside : bee < hive.numBees)
    {readyCount : Nat} (here : state.stage bee = .fold readyCount i) :
    Balanced hive foldfun partialResult
      ((syncFold foldfun state bee i).goes bee (.clear readyCount i)) := by
  obtain ⟨positive, within, passed, unabsorbed⟩ :=
    son_unabsorbed classed ordered balanced inside here
  have differ : bee + i ≠ bee := by omega
  have own := unpassed_not_absorbed ordered balanced inside (here ▸ nofun)
  have sharesBee : ((syncFold foldfun state bee i).goes bee (.clear readyCount i)).share bee =
      { state.share bee with
        folded := (state.share bee).folded ++ (bee + i) :: (state.share (bee + i)).folded } :=
    (Function.update_of_ne (Ne.symm differ) ..).trans (Function.update_self ..)
  have sharesSon : ((syncFold foldfun state bee i).goes bee (.clear readyCount i)).share (bee + i) =
      { state.share (bee + i) with absorbed := true } := Function.update_self ..
  have sharesOther : ∀ other, other ≠ bee → other ≠ bee + i →
      ((syncFold foldfun state bee i).goes bee (.clear readyCount i)).share other =
        state.share other :=
    fun other notBee notSon =>
      (Function.update_of_ne notSon ..).trans (Function.update_of_ne notBee ..)
  constructor
  case sent =>
    intro other inside' done
    by_cases same : other = bee
    · subst same
      simp [State.goes] at done
    · simp only [State.goes, syncFold, Function.update_of_ne same] at done ⊢
      exact balanced.sent other inside' done
  case accu =>
    intro other inside'
    by_cases same : other = bee
    · subst same
      -- the function is associative, so the fold of the son may be taken in as one value
      rw [sharesBee, List.map_append, List.foldl_append, ← balanced.accu other inside',
        List.map_cons, List.foldl_cons, List.foldl_assoc, ← balanced.accu _ within,
        ← balanced.sent _ within (Or.inr passed)]
      exact Function.update_self ..
    · have folded : (((syncFold foldfun state bee i).goes bee (.clear readyCount i)).share
          other).folded = (state.share other).folded := by
        by_cases isSon : other = bee + i
        · rw [isSon, sharesSon]
        · rw [sharesOther other same isSon]
      rw [folded]
      exact (Function.update_of_ne same ..).trans (balanced.accu other inside')
  case absorbed =>
    intro son inside'
    have before : ((syncFold foldfun state bee i).stage bee).isClear = false := by
      rw [syncFold, here]
      rfl
    rw [folded_clear inside before son]
    by_cases isSon : son = bee + i
    · rw [isSon, sharesSon]
      exact iff_of_true rfl (Or.inr (Or.inl rfl))
    · have unchanged : (((syncFold foldfun state bee i).goes bee (.clear readyCount i)).share
          son).absorbed = (state.share son).absorbed := by
        by_cases same : son = bee
        · rw [same, sharesBee]
        · rw [sharesOther son same isSon]
      rw [unchanged, balanced.absorbed son inside', or_iff_right isSon]
      exact Iff.rfl
  case balance =>
    intro x
    rw [← balanced.balance x]
    exact fold_balance state.share inside within differ own unabsorbed x

theorem step_balanced {before after : State Value} (classed : Classed hive bClass)
    (ordered : Ordered hive bClass before)
    (balanced : Balanced hive foldfun partialResult before)
    (step : Step hive bClass foldfun before bee after) :
    Balanced hive foldfun partialResult after := by
  obtain ⟨inside, moved⟩ := step
  cases moves_of_advance bClass foldfun moved with
  | working here =>
      exact balanced.goes (here ▸ rfl) (while_ready_not_clear _ _) (while_ready_not_set _ _)
        (while_ready_unpassed _ _)
  | skips here locked =>
      exact balanced.goes (here ▸ rfl) (do_while_not_clear _ _ _) (do_while_not_set _ _ _)
        (do_while_unpassed _ _ _)
  | finds here released => exact balanced.goes (here ▸ rfl) rfl nofun nofun
  | folds here => exact fold_balanced classed ordered balanced inside here
  | spins here locked => exact balanced
  | clearsLast here zero =>
      exact clear_balanced balanced inside here (while_ready_not_clear _ _)
        (while_ready_not_set _ _) (while_ready_unpassed _ _)
  | clears here again =>
      exact clear_balanced balanced inside here (do_while_not_clear _ _ _)
        (do_while_not_set _ _ _) (do_while_unpassed _ _ _)
  | sends here =>
      refine ⟨?_, balanced.accu, ?_, balanced.balance⟩
      · intro other inside' done
        by_cases same : other = bee
        · subst same
          exact Function.update_self ..
        · simp only [State.goes, Function.update_of_ne same] at done ⊢
          exact balanced.sent other inside' done
      · intro son inside'
        refine (balanced.absorbed son inside').trans ?_
        exact or_congr_right (folded_goes (here ▸ rfl) rfl son).symm
  | sets here =>
      refine ⟨?_, balanced.accu, ?_, balanced.balance⟩
      · intro other inside' done
        by_cases same : other = bee
        · subst same
          exact balanced.sent other inside (Or.inl here)
        · simp only [State.goes, Function.update_of_ne same] at done
          exact balanced.sent other inside' done
      · intro son inside'
        refine (balanced.absorbed son inside').trans ?_
        exact or_congr_right (folded_goes (here ▸ rfl) rfl son).symm

theorem begun_balanced (hive : Hive) (foldfun : Value → Value → Value) (queenLocked : Bool)
    (partialResult rdata : Nat → Value) :
    Balanced hive foldfun partialResult (begun queenLocked partialResult rdata) := by
  refine ⟨?_, fun _ _ => rfl, ?_, ?_⟩
  · rintro bee _ (done | done)
    · exact nomatch done
    · exact nomatch done
  · intro son _
    refine iff_of_false nofun ?_
    rintro (listed | ⟨bee, readyCount, i, _, here, _⟩)
    · exact nomatch listed
    · exact nomatch here
  · intro x
    have single : ∀ bee, shareCount x bee ((begun queenLocked partialResult rdata).share bee) =
        if bee = x then 1 else 0 := by
      intro bee
      simp [shareCount, begun, List.count_cons]
    by_cases inside : x < hive.numBees
    · rw [if_pos inside, Threads.total_single _ _ inside, single, if_pos rfl]
      intro bee _ differ
      rw [single, if_neg differ]
    · rw [if_neg inside, Threads.total_eq_zero]
      intro bee within
      rw [single, if_neg]
      omega

theorem run_sound {before after : State Value} {labels : List Nat} (classed : Classed hive bClass)
    (run : Trace.Run (Step hive bClass foldfun) before labels after)
    (start : Ordered hive bClass before ∧ Balanced hive foldfun partialResult before) :
    Ordered hive bClass after ∧ Balanced hive foldfun partialResult after := by
  apply run.invariant (fun state => Ordered hive bClass state ∧
    Balanced hive foldfun partialResult state) _ start
  rintro before bee after ⟨ordered, balanced⟩ step
  exact ⟨step_ordered classed ordered step, step_balanced classed ordered balanced step⟩

end Values

section Finish

variable {hive bClass foldfun} {state : State Value} {partialResult : Nat → Value}

/-- When the queen has passed the barrier, every bee has: each has a father that has. -/
theorem all_passed (classed : Classed hive bClass) (ordered : Ordered hive bClass state)
    (queen : state.stage 0 = .passed) (bee : Nat) (inside : bee < hive.numBees) :
    state.stage bee = .passed := by
  induction bee using Nat.strong_induction_on with
  | _ bee ih =>
      by_cases isQueen : bee = 0
      · rw [isQueen, queen]
      · obtain ⟨father, i, within, listed, rfl⟩ :=
          father_exists classed (Nat.pos_of_ne_zero isQueen) inside
        have positive := (halves_bounds listed).1
        have known := ordered.fits father within
        rw [ih father (by omega) within] at known
        exact ordered.passed father _ (known _ (mem_sons.mpr ⟨i, listed, rfl⟩))

theorem cleared_perm (classed : Classed hive bClass) (ordered : Ordered hive bClass state)
    (queen : state.stage 0 = .passed) :
    (state.cleared.map Prod.snd).Perm (List.range' 1 (hive.numBees - 1)) := by
  rw [List.perm_ext_iff_of_nodup ordered.cleared.2 List.nodup_range']
  intro son
  rw [List.mem_range'_1]
  constructor
  · intro listed
    obtain ⟨⟨father, _⟩, member, rfl⟩ := List.mem_map.mp listed
    obtain ⟨within, sonOf⟩ := ordered.cleared.1 father _ member
    obtain ⟨i, distance, rfl⟩ := mem_sons.mp sonOf
    have positive := (halves_bounds distance).1
    have inside := son_inside classed within distance
    dsimp only
    omega
  · intro bounds
    obtain ⟨father, i, within, listed, rfl⟩ :=
      father_exists classed bounds.1 (by omega)
    have known := ordered.fits father within
    rw [all_passed classed ordered queen father within] at known
    exact List.mem_map.mpr ⟨_, known _ (mem_sons.mpr ⟨i, listed, rfl⟩), rfl⟩

/-- The results folded into the one of the queen are those of the other bees. -/
theorem folded_perm (classed : Classed hive bClass) (ordered : Ordered hive bClass state)
    (balanced : Balanced hive foldfun partialResult state) (queen : state.stage 0 = .passed) :
    (state.share 0).folded.Perm (List.range' 1 (hive.numBees - 1)) := by
  have some_bee : 0 < hive.numBees := hive.some_bee
  have perm := cleared_perm classed ordered queen
  have others : ∀ x bee, bee < hive.numBees → bee ≠ 0 → shareCount x bee (state.share bee) = 0 := by
    intro x bee inside notQueen
    have listed : bee ∈ state.cleared.map Prod.snd := by
      rw [perm.mem_iff, List.mem_range'_1]
      omega
    rw [shareCount, if_pos ((balanced.absorbed bee inside).mpr (Or.inl listed))]
  have counted : ∀ x, shareCount x 0 (state.share 0) = if x < hive.numBees then 1 else 0 := by
    intro x
    rw [← balanced.balance x, Threads.total_single _ _ some_bee (others x)]
  have own : (state.share 0).absorbed = false := by
    rw [Bool.eq_false_iff]
    intro absorbed
    have one := counted 0
    rw [shareCount, if_pos absorbed, if_pos some_bee] at one
    exact nomatch one
  rw [List.perm_iff_count]
  intro x
  have count := counted x
  rw [shareCount, own, if_neg Bool.false_ne_true, List.count_cons] at count
  rw [range_count]
  simp only [beq_iff_eq] at count
  split_ifs at count ⊢ <;> omega

theorem queen_combines [Std.Associative foldfun] [Std.Commutative foldfun]
    (classed : Classed hive bClass) (ordered : Ordered hive bClass state)
    (balanced : Balanced hive foldfun partialResult state) (queen : state.stage 0 = .passed) :
    state.accu 0 =
      ((List.range' 1 (hive.numBees - 1)).map partialResult).foldl foldfun (partialResult 0) := by
  rw [balanced.accu 0 hive.some_bee]
  exact ((folded_perm classed ordered balanced queen).map partialResult).foldl_eq _

end Finish

section Patience

variable {hive bClass foldfun} {state : State Value} {bee i : Nat} {cleared : List (Nat × Nat)}
  {readyCount : Nat}

/-- A son at a greater distance than `i` has still to be cleared. -/
def behind (bClass : Nat → Nat) (cleared : List (Nat × Nat)) (bee i : Nat) : Bool :=
  (halves (bClass bee)).any (fun j => i < j ∧ (bee, bee + j) ∉ cleared)

theorem behind_iff : behind bClass cleared bee i = true ↔
    ∃ j, j ∈ halves (bClass bee) ∧ i < j ∧ (bee, bee + j) ∉ cleared := by
  simp only [behind, List.any_eq_true, decide_eq_true_eq]

/-- A bound on the steps a bee has left once its sons are past the barrier: the
rest of a round of the inner loop, and one more round if it has left a son behind. -/
def patience (bClass : Nat → Nat) (cleared : List (Nat × Nat)) (bee : Nat) :
    Stage → Nat
  | .working => 3 * (halves (bClass bee)).length + 4
  | .check _ i => 3 * (halves i).length +
      (if behind bClass cleared bee i then 3 * (halves (bClass bee)).length + 1 else 0) + 3
  | .fold _ i => 3 * (halves i).length +
      (if behind bClass cleared bee i then 3 * (halves (bClass bee)).length + 1 else 0) + 2
  | .clear _ i => 3 * (halves i).length +
      (if behind bClass cleared bee i then 3 * (halves (bClass bee)).length + 1 else 0) + 1
  | .send => 2
  | .set => 1
  | .passed => 0

theorem patience_while_ready :
    patience bClass cleared bee (whileReady (bClass bee) readyCount) ≤
      3 * (halves (bClass bee)).length + 3 := by
  rw [whileReady]
  split
  · have none : ¬ behind bClass cleared bee (bClass bee) = true := by
      rw [behind_iff]
      rintro ⟨j, listed, more, _⟩
      have bound := (halves_bounds listed).2
      omega
    simp only [patience, if_neg none]
    omega
  · simp only [patience]
    omega

/-- As long as the counter is not 0 there is a son to be cleared. -/
theorem uncleared_exists (more : 0 < readyCount)
    (count : (halves readyCount).length + clearedBy cleared bee = (halves (bClass bee)).length) :
    ∃ j, j ∈ halves (bClass bee) ∧ (bee, bee + j) ∉ cleared := by
  by_contra none
  push Not at none
  have within : sons bClass bee ⊆
      (cleared.filter (fun entry => entry.1 = bee)).map Prod.snd := by
    intro son member
    obtain ⟨j, listed, rfl⟩ := mem_sons.mp member
    exact List.mem_map.mpr ⟨(bee, bee + j), List.mem_filter.mpr ⟨none j listed, by simp⟩, rfl⟩
  have length := (List.subperm_of_subset (sons_nodup bClass bee) within).length_le
  rw [sons, List.length_map, List.length_map, ← clearedBy] at length
  rw [halves_pos more, List.length_cons] at count
  omega

theorem patience_do_while (listed : i ∈ halves (bClass bee)) (more : 0 < readyCount)
    (done : (bee, bee + i) ∈ cleared)
    (count : (halves readyCount).length + clearedBy cleared bee = (halves (bClass bee)).length) :
    patience bClass cleared bee (doWhile (bClass bee) readyCount i) <
      patience bClass cleared bee (.clear readyCount i) := by
  have positive := (halves_bounds listed).1
  have length := congrArg List.length (halves_pos positive)
  rw [List.length_cons] at length
  rw [doWhile]
  split
  · -- the son cleared last is not behind
    have same : behind bClass cleared bee (i / 2) = true → behind bClass cleared bee i = true := by
      rw [behind_iff, behind_iff]
      rintro ⟨j, member, greater, uncleared⟩
      have differ : j ≠ i := by
        rintro rfl
        exact uncleared done
      refine ⟨j, member, ?_, uncleared⟩
      by_contra below
      have gap := halves_gap listed member (by omega)
      omega
    simp only [patience]
    split_ifs with half whole whole
    · omega
    · exact absurd (same half) whole
    · omega
    · omega
  · next last =>
      have bound : patience bClass cleared bee (whileReady (bClass bee) readyCount) ≤
          3 * (halves (bClass bee)).length + 3 := patience_while_ready
      obtain ⟨j, member, uncleared⟩ := uncleared_exists more count
      have left : behind bClass cleared bee i = true := by
        rw [behind_iff]
        have bound := (halves_bounds member).1
        have differ : j ≠ i := by
          rintro rfl
          exact uncleared done
        exact ⟨j, member, by omega, uncleared⟩
      have whole : patience bClass cleared bee (.clear readyCount i) =
          3 * (halves i).length + (3 * (halves (bClass bee)).length + 1) + 1 := by
        rw [patience, if_pos left]
      omega

theorem patience_clear_mono {cleared' : List (Nat × Nat)}
    (kept : ∀ entry, entry ∈ cleared → entry ∈ cleared') :
    patience bClass cleared' bee (.clear readyCount i) ≤
      patience bClass cleared bee (.clear readyCount i) := by
  have same : behind bClass cleared' bee i = true → behind bClass cleared bee i = true := by
    rw [behind_iff, behind_iff]
    rintro ⟨j, member, greater, uncleared⟩
    exact ⟨j, member, greater, fun old => uncleared (kept _ old)⟩
  simp only [patience]
  split_ifs with after before before
  · exact le_refl _
  · exact absurd (same after) before
  · omega
  · exact le_refl _

/-- The locked flag of a son that has passed the barrier has been cleared by its father. -/
theorem cleared_of_locked (classed : Classed hive bClass) {state : State Value}
    (ordered : Ordered hive bClass state) (inside : bee < hive.numBees)
    (listed : i ∈ halves (bClass bee)) (passed : state.stage (bee + i) = .passed)
    (locked : state.locked (bee + i) = true) : (bee, bee + i) ∈ state.cleared := by
  have positive := (halves_bounds listed).1
  by_contra uncleared
  have released := (ordered.flag (bee + i) (by omega) (son_inside classed inside listed)).mpr
    ⟨passed, ?_⟩
  · exact nomatch released.symm.trans locked
  · intro member
    obtain ⟨⟨father, _⟩, there, same⟩ := List.mem_map.mp member
    dsimp only at same
    subst same
    obtain ⟨fatherInside, sonOf⟩ := ordered.cleared.1 father _ there
    obtain ⟨j, distance, equal⟩ := mem_sons.mp sonOf
    obtain ⟨rfl, _⟩ := father_unique classed fatherInside inside distance listed equal
    exact uncleared there

/-- With its sons past the barrier, each step of a bee brings it nearer to passing. -/
theorem step_patience (classed : Classed hive bClass) {before after : State Value}
    (ordered : Ordered hive bClass before)
    (sonsPassed : ∀ son, son ∈ sons bClass bee → before.stage son = .passed)
    (step : Step hive bClass foldfun before bee after) :
    patience bClass after.cleared bee (after.stage bee) <
      patience bClass before.cleared bee (before.stage bee) := by
  obtain ⟨inside, moved⟩ := step
  have known := ordered.fits bee inside
  cases moves_of_advance bClass foldfun moved with
  | working here =>
      rw [here]
      simp only [State.goes, Function.update_self]
      have bound : patience bClass before.cleared bee (whileReady (bClass bee) (bClass bee)) ≤
          3 * (halves (bClass bee)).length + 3 := patience_while_ready
      rw [patience]
      omega
  | @skips readyCount i here locked =>
      -- a locked flag of a son that has passed has been cleared before
      rw [here] at known ⊢
      obtain ⟨listed, more, count⟩ := known
      simp only [State.goes, Function.update_self]
      have passed := sonsPassed _ (mem_sons.mpr ⟨i, listed, rfl⟩)
      have done := cleared_of_locked classed ordered inside listed passed locked
      have falls := patience_do_while listed more done count
      have check : patience bClass before.cleared bee (.clear readyCount i) + 2 =
          patience bClass before.cleared bee (.check readyCount i) := rfl
      omega
  | finds here released =>
      rw [here]
      simp only [State.goes, Function.update_self]
      exact Nat.lt_succ_self _
  | folds here =>
      rw [here]
      simp only [State.goes, syncFold, Function.update_self]
      exact Nat.lt_succ_self _
  | spins here locked =>
      rw [here] at known
      exact nomatch known.2.symm.trans locked
  | clearsLast here zero =>
      rw [here] at known ⊢
      obtain ⟨⟨listed, more, count⟩, released⟩ := known
      simp only [State.goes, clearBarrier, Function.update_self]
      rw [zero, whileReady, if_neg (by decide)]
      have positive := (halves_bounds listed).1
      have length := congrArg List.length (halves_pos positive)
      rw [List.length_cons] at length
      simp only [patience]
      omega
  | @clears readyCount i here again =>
      rw [here] at known ⊢
      obtain ⟨⟨listed, more, count⟩, released⟩ := known
      simp only [State.goes, clearBarrier, Function.update_self]
      have falls :
          patience bClass ((bee, bee + i) :: before.cleared) bee (.clear (readyCount / 2) i) ≤
            patience bClass before.cleared bee (.clear readyCount i) :=
        patience_clear_mono (fun entry member => List.mem_cons_of_mem _ member)
      have counted : clearedBy ((bee, bee + i) :: before.cleared) bee =
          clearedBy before.cleared bee + 1 := by
        rw [clearedBy, List.filter_cons, if_pos (by simp), List.length_cons, ← clearedBy]
      have left : (halves (readyCount / 2)).length +
          clearedBy ((bee, bee + i) :: before.cleared) bee = (halves (bClass bee)).length := by
        rw [halves_pos more, List.length_cons] at count
        omega
      exact lt_of_lt_of_le (patience_do_while listed (Nat.pos_of_ne_zero again)
        (List.mem_cons_self ..) left) falls
  | sends here =>
      rw [here]
      simp only [State.goes, Function.update_self, patience]
      omega
  | sets here =>
      rw [here]
      simp only [State.goes, Function.update_self, patience]
      omega

theorem patience_le {stage : Stage} (fits : Fits bClass state.locked cleared bee stage) :
    patience bClass cleared bee stage ≤ 6 * (halves (bClass bee)).length + 4 := by
  cases stage with
  | working | send | set | passed =>
      simp only [patience]
      omega
  | check readyCount i =>
      have length := halves_length_le fits.1
      simp only [patience]
      split <;> omega
  | fold readyCount i | clear readyCount i =>
      have length := halves_length_le fits.1.1
      simp only [patience]
      split <;> omega

/-- The step of another bee leaves the stage of a bee and the flags it has cleared. -/
theorem step_other {before after : State Value} {other : Nat} (differ : bee ≠ other)
    (step : Step hive bClass foldfun before other after) :
    after.stage bee = before.stage bee ∧
      ∀ son, (bee, son) ∈ after.cleared ↔ (bee, son) ∈ before.cleared := by
  obtain ⟨_, moved⟩ := step
  have kept : ∀ (state : State Value) (stage : Stage), (state.goes other stage).stage bee =
      state.stage bee := fun state stage => Function.update_of_ne differ ..
  have listed : ∀ i son, (bee, son) ∈ (clearBarrier before other i).cleared ↔
      (bee, son) ∈ before.cleared := by
    intro i son
    simp [clearBarrier, differ]
  cases moves_of_advance bClass foldfun moved with
  | working | skips | finds | folds | sends | sets => exact ⟨kept _ _, fun _ => Iff.rfl⟩
  | spins => exact ⟨rfl, fun _ => Iff.rfl⟩
  | @clearsLast _ i | @clears _ i => exact ⟨kept _ _, listed i⟩

/-- What is past the barrier stays there. -/
theorem step_passed {before after : State Value} {other : Nat}
    (step : Step hive bClass foldfun before other after) (passed : before.stage bee = .passed) :
    after.stage bee = .passed := by
  by_cases same : bee = other
  · subst same
    have stuck := (advance_none_iff bClass foldfun).mpr passed
    exact nomatch stuck.symm.trans step.2
  · exact (step_other same step).1.trans passed

theorem patience_congr {cleared' : List (Nat × Nat)} (stage : Stage)
    (same : ∀ son, (bee, son) ∈ cleared' ↔ (bee, son) ∈ cleared) :
    patience bClass cleared' bee stage = patience bClass cleared bee stage := by
  have left : ∀ i, behind bClass cleared' bee i = behind bClass cleared bee i := by
    intro i
    simp only [behind, same]
  cases stage <;> simp only [patience, left]

/-- With its sons past the barrier, a bee has no more steps than its patience. -/
theorem run_patience (classed : Classed hive bClass) {before after : State Value}
    {labels : List Nat} (run : Trace.Run (Step hive bClass foldfun) before labels after)
    (ordered : Ordered hive bClass before)
    (sonsPassed : ∀ son, son ∈ sons bClass bee → before.stage son = .passed) :
    labels.count bee + patience bClass after.cleared bee (after.stage bee) ≤
      patience bClass before.cleared bee (before.stage bee) := by
  induction run with
  | refl => simp
  | @next before middle after label labels step _ ih =>
      have later := ih (step_ordered classed ordered step)
        (fun son member => step_passed step (sonsPassed son member))
      by_cases same : label = bee
      · subst same
        have falls := step_patience classed ordered sonsPassed step
        rw [List.count_cons_self]
        omega
      · obtain ⟨stage, cleared⟩ := step_other (Ne.symm same) step
        rw [stage, patience_congr _ cleared] at later
        rw [List.count_cons_of_ne same]
        exact later

theorem patience_zero {stage : Stage} (zero : patience bClass cleared bee stage = 0) :
    stage = .passed := by
  cases stage with
  | passed => rfl
  | working | check readyCount i | fold readyCount i | clear readyCount i | send | set =>
      simp only [patience] at zero
      omega

end Patience

theorem unpassed_moves (state : State Value) {bee : Nat} (inside : bee < hive.numBees)
    (unpassed : state.stage bee ≠ .passed) :
    ∃ after, Step hive bClass foldfun state bee after := by
  cases moved : advance bClass foldfun state bee with
  | some after => exact ⟨after, inside, moved⟩
  | none => exact absurd ((advance_none_iff bClass foldfun).mp moved) unpassed

/-- The flag of each bee but the queen has one bee that awaits it. -/
theorem son_awaited {hive : Hive} {bClass : Nat → Nat} (classed : Classed hive bClass) {son : Nat}
    (positive : 1 ≤ son) (inside : son < hive.numBees) : ∃! bee, SonOf hive bClass son bee := by
  obtain ⟨bee, i, within, listed, rfl⟩ := father_exists classed positive inside
  refine ⟨bee, ⟨within, mem_sons.mpr ⟨i, listed, rfl⟩⟩, ?_⟩
  rintro other ⟨within', sonOf⟩
  obtain ⟨i', listed', same⟩ := mem_sons.mp sonOf
  exact (father_unique classed within' within listed' listed same).1

/-- A son has a greater number than its father; the queen is no son. -/
theorem queen_not_awaited (hive : Hive) (bClass : Nat → Nat) (bee : Nat) :
    ¬ SonOf hive bClass 0 bee := by
  rintro ⟨_, sonOf⟩
  obtain ⟨i, listed, same⟩ := mem_sons.mp sonOf
  have positive := (halves_bounds listed).1
  omega

/-- For each number of bees the hive is created as a whole, and its tree collects
every partial result once, in whatever order the bees reach the barrier. -/
theorem hive_creates_and_collects (numBees : Nat) (some_bee : 1 ≤ numBees)
    (fits : numBees ≤ 2 ^ 31) :
    (∃ hive : Hive, hive.numBees = numBees) ∧
      ∀ hive : Hive, hive.numBees = numBees → CreatesOnce hive ∧
        ∀ labels created, Trace.Run (HiveCreation.Step hive) (allocHive hive) labels created →
          Finished hive created →
          ∀ (Value : Type) (foldfun : Value → Value → Value) (queenLocked : Bool)
            (partialResult rdata : Nat → Value),
            Std.Associative foldfun → Std.Commutative foldfun →
            CollectsOnce hive created.bClass foldfun queenLocked partialResult rdata := by
  refine ⟨hive_exists some_bee fits, ?_⟩
  rintro hive rfl
  refine ⟨creates_once hive, ?_⟩
  intro labels created creation finished Value foldfun queenLocked partialResult rdata assoc comm
  have classed := finished_classed (HiveCreation.run_sound creation) finished
  have sound : ∀ labels state,
      Reaches hive created.bClass foldfun queenLocked partialResult rdata labels state →
      Ordered hive created.bClass state ∧ Balanced hive foldfun partialResult state :=
    fun labels state run => run_sound classed run
      ⟨begun_ordered hive _ queenLocked partialResult rdata,
        begun_balanced hive foldfun queenLocked partialResult rdata⟩
  constructor
  · exact fun son positive inside => son_awaited classed positive inside
  · exact queen_not_awaited hive created.bClass
  · intro labels state run
    have cleared := (sound labels state run).1.cleared
    exact ⟨cleared.2, cleared.1⟩
  · exact fun labels state run queen => cleared_perm classed (sound labels state run).1 queen
  · intro labels state run bee below inside passed path
    exact (sound labels state run).1.below inside passed path
  · exact fun state bee inside unpassed => unpassed_moves _ _ _ state inside unpassed
  · intro bee inside
    refine ⟨6 * (halves (created.bClass bee)).length + 4, ?_⟩
    intro labels state run sonsPassed labels' after rest enough
    have ordered := (sound labels state run).1
    have bound := patience_le (ordered.fits bee inside)
    have spent := run_patience classed rest ordered sonsPassed
    have zero : patience created.bClass after.cleared bee (after.stage bee) = 0 := by omega
    exact patience_zero zero
  · intro labels state run queen
    obtain ⟨ordered, balanced⟩ := sound labels state run
    exact queen_combines classed ordered balanced queen

/-- A tree that is not full: bee 5 is a son of bee 4, and bee 6 is missing. -/
def sixBees : Hive := ⟨6, 4, by decide, 4, by decide⟩

theorem hive_creates_and_collects_six : ∃ labels created,
    Trace.Run (HiveCreation.Step sixBees) (allocHive sixBees) labels created ∧
      CollectsOnce sixBees created.bClass (· + ·) true (fun bee => bee * bee) (fun _ => 0) := by
  obtain ⟨labels, created, creation, finished⟩ := creation_finishes sixBees
  obtain ⟨_, whole⟩ := hive_creates_and_collects 6 (by decide) (by decide)
  exact ⟨labels, created, creation, (whole sixBees rfl).2 labels created creation finished Nat
    (· + ·) true (fun bee => bee * bee) (fun _ => 0) inferInstance inferInstance⟩

/-- The queen releases a flag, too, but no bee waits for it; and the class of the
queen of a larger hive wraps round to 0, on which its computation does not end. -/
theorem queen_flag_never_awaited :
    (∀ bClass, ¬ ∀ bee, bee < sixBees.numBees → ∃ other, SonOf sixBees bClass bee other) ∧
      ¬ ∃ hive : Hive, hive.numBees = 2 ^ 31 + 1 := by
  constructor
  · intro bClass awaited
    obtain ⟨other, sonOf⟩ := awaited 0 (by decide)
    exact queen_not_awaited sixBees bClass other sonOf
  · rintro ⟨hive, many⟩
    have fits := hive.fits
    omega

end Sac2c.SyncBarrier
