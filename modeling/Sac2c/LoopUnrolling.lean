import Sac2c.StraightLine
import Mathlib.Logic.Function.Iterate

/-!
Do-loops are functions that call themselves at the end of their body. A loop
that is known to run `n` times becomes one straight-line body (stdopt/SSALUR.c).
-/

namespace Sac2c.LoopUnrolling

open StraightLine

variable {Data : Type}

inductive Value (Data : Type) where
  | bool (b : Bool)
  | data (d : Data)

def Value.isTrue : Value Data → Bool
  | bool b => b
  | data _ => false

/-- The body up to the conditional, the recursive call and the funconds of a do-loop: each
result is that of the recursive call or, in the end, a variable of the body. -/
structure Fundef (Data : Type) where
  args : List Var
  assigns : List (Assign (Value Data))
  cond : Var
  recArgs : List Var
  results : List Var

/-- Nothing is assigned when a function is called. -/
def blank : Frame (Value Data) := fun _ => .bool false

namespace Fundef

variable (fundef : Fundef Data)

/-- The frame of a call at its conditional. -/
def frame (values : List (Value Data)) : Frame (Value Data) :=
  exec fundef.assigns (bind blank fundef.args values)

/-- The values of the recursive call. -/
def recValues (values : List (Value Data)) : List (Value Data) :=
  fundef.recArgs.map (fundef.frame values)

def defined : List Var := targets fundef.assigns ++ fundef.args

end Fundef

/-- A call that runs the body `n` times; the funconds pass its results on. -/
inductive Calls (fundef : Fundef Data) : Nat → List (Value Data) → List (Value Data) → Prop
  | last {values : List (Value Data)} (leaves : (fundef.frame values fundef.cond).isTrue = false) :
      Calls fundef 1 values (fundef.results.map (fundef.frame values))
  | again {n : Nat} {values results : List (Value Data)}
      (continues : (fundef.frame values fundef.cond).isTrue = true)
      (call : Calls fundef n (fundef.recValues values) results) :
      Calls fundef (n + 1) values results

/-- A do-loop function as the optimisation finds it; `tmpVar` is the next variable
`TRAVtmpVar` makes. -/
structure LoopFun (Data : Type) extends Fundef Data where
  tmpVar : Var
  distinct : args.Nodup
  arity : recArgs.length = args.length
  reads : Scoped args assigns
  cond_defined : cond ∈ toFundef.defined
  rec_defined : ∀ v ∈ recArgs, v ∈ toFundef.defined
  results_defined : ∀ v ∈ results, v ∈ toFundef.defined
  fresh : ∀ v ∈ toFundef.defined, v < tmpVar

/-- The copies into temporaries, those into the arguments, and the next temporary. -/
def createCopyAssignsHelper : List Var → List Var → Var →
    List (Assign (Value Data)) × List (Assign (Value Data)) × Var
  | arg :: argChain, recId :: recChain, tmpVar =>
      let (copyAssigns2, copyAssigns, avis) := createCopyAssignsHelper argChain recChain tmpVar
      (copy avis recId :: copyAssigns2, copy arg avis :: copyAssigns, avis + 1)
  | _, _, tmpVar => ([], [], tmpVar)

def createCopyAssigns (argChain recChain : List Var) (tmpVar : Var) :
    List (Assign (Value Data)) × Var :=
  let (copyAssigns2, copyAssigns, tmpVar) := createCopyAssignsHelper argChain recChain tmpVar
  (copyAssigns2 ++ copyAssigns, tmpVar)

/-- The duplicates put before `newBody`. -/
def dupBodies (loopBody : List (Assign (Value Data))) : Nat → List (Assign (Value Data)) →
    List (Assign (Value Data))
  | 0, newBody => newBody
  | unrolling + 1, newBody => dupBodies loopBody unrolling (loopBody ++ newBody)

/-- `predavis = false`. -/
def assignFalse (predavis : Var) : Assign (Value Data) :=
  ⟨[predavis], [], fun _ => [.bool false], fun _ _ => rfl⟩

def unrollLoopBody (fundef : LoopFun Data) (unrolling : Nat) : Fundef Data :=
  let (newBody, predavis) :=
    if unrolling = 1 then (fundef.assigns, fundef.tmpVar)
    else
      let (copies, tmpVar) := createCopyAssigns fundef.args fundef.recArgs fundef.tmpVar
      let loopBody := fundef.assigns ++ copies
      (loopBody ++ dupBodies loopBody (unrolling - 1) [], tmpVar)
  { args := fundef.args
    assigns := newBody ++ [assignFalse predavis]
    cond := predavis
    recArgs := fundef.recArgs
    results := fundef.results }

section Calls

variable {fundef : Fundef Data}

/-- The values the body is run with the `n`-th time. -/
def Fundef.lastValues (fundef : Fundef Data) (n : Nat) (values : List (Value Data)) :
    List (Value Data) :=
  fundef.recValues^[n - 1] values

theorem Calls.pos {n : Nat} {values results : List (Value Data)}
    (calls : Calls fundef n values results) : 0 < n := by
  cases calls <;> omega

theorem Calls.results_eq {n : Nat} {values results : List (Value Data)}
    (calls : Calls fundef n values results) :
    results = fundef.results.map (fundef.frame (fundef.lastValues n values)) := by
  induction calls with
  | last => rfl
  | @again n values results _ call ih =>
      obtain ⟨k, rfl⟩ := Nat.exists_eq_succ_of_ne_zero (ne_of_gt call.pos)
      exact ih

end Calls

section Copies

theorem copy_assigns_helper_eq {argChain recChain : List Var}
    (arity : recChain.length = argChain.length) (tmpVar : Var) :
    (createCopyAssignsHelper argChain recChain tmpVar :
        List (Assign (Value Data)) × List (Assign (Value Data)) × Var) =
      (List.zipWith copy (List.range' tmpVar argChain.length).reverse recChain,
        List.zipWith copy argChain (List.range' tmpVar argChain.length).reverse,
        tmpVar + argChain.length) := by
  induction argChain generalizing recChain with
  | nil => rfl
  | cons arg argChain ih =>
      cases recChain with
      | nil => simp at arity
      | cons recId recChain =>
          rw [createCopyAssignsHelper, ih (by simpa using arity), List.length_cons,
            List.range'_concat]
          simp [Nat.add_assoc]

variable {args recArgs : List Var} {tmpVar : Var}

/-- The temporaries make the copies a parallel assignment of the recursive call. -/
theorem exec_copy_assigns (frame : Frame (Value Data)) (distinct : args.Nodup)
    (arity : recArgs.length = args.length) (args_old : ∀ v ∈ args, v < tmpVar)
    (rec_old : ∀ v ∈ recArgs, v < tmpVar) :
    args.map (exec (createCopyAssigns args recArgs tmpVar).1 frame) = recArgs.map frame ∧
      ∀ v, v < tmpVar → v ∉ args →
        exec (createCopyAssigns args recArgs tmpVar).1 frame v = frame v := by
  rw [createCopyAssigns, copy_assigns_helper_eq arity]
  dsimp only
  generalize temporaries : (List.range' tmpVar args.length).reverse = tmps
  have new : ∀ v ∈ tmps, tmpVar ≤ v := by
    intro v member
    rw [← temporaries, List.mem_reverse, List.mem_range'_1] at member
    exact member.1
  have size : tmps.length = args.length := by
    rw [← temporaries, List.length_reverse, List.length_range']
  have unique : tmps.Nodup := by
    rw [← temporaries, List.nodup_reverse]
    exact List.nodup_range'
  have saved : exec (List.zipWith copy tmps recArgs) frame =
      bind frame tmps (recArgs.map frame) := by
    apply exec_copies (arity.trans size.symm)
    intro v member temporary
    exact absurd (new v temporary) (not_le.mpr (rec_old v member))
  have restored : tmps.map (bind frame tmps (recArgs.map frame)) = recArgs.map frame :=
    map_bind _ unique ((List.length_map _).trans (arity.trans size.symm))
  rw [exec_append, saved, exec_copies size, restored]
  · constructor
    · exact map_bind _ distinct ((List.length_map _).trans arity)
    · intro v old outside
      rw [bind_other outside, bind_other]
      intro temporary
      exact absurd (new v temporary) (not_le.mpr old)
  · intro v temporary member
    exact absurd (new v temporary) (not_le.mpr (args_old v member))

end Copies

theorem dup_bodies_eq (loopBody newBody : List (Assign (Value Data))) (k : Nat) :
    dupBodies loopBody k newBody = (List.replicate k loopBody).flatten ++ newBody := by
  induction k generalizing newBody with
  | zero => rfl
  | succ k ih =>
      rw [dupBodies, ih, List.replicate_succ', List.flatten_append]
      simp

section Instances

variable (fundef : LoopFun Data)

namespace LoopFun

theorem arg_old {v : Var} (arg : v ∈ fundef.args) : v < fundef.tmpVar :=
  fundef.fresh v (List.mem_append_right _ arg)

def copies : List (Assign (Value Data)) :=
  (createCopyAssigns fundef.args fundef.recArgs fundef.tmpVar).1

/-- The frame holds the arguments of a call with `values`. -/
def Holds (frame : Frame (Value Data)) (values : List (Value Data)) : Prop :=
  ∀ v ∈ fundef.args, frame v = bind blank fundef.args values v

variable {fundef} {frame : Frame (Value Data)} {values : List (Value Data)}

/-- One instance of the body computes what a call computes, on top of anything. -/
theorem Holds.body (holds : fundef.Holds frame values) :
    ∀ v ∈ fundef.defined, exec fundef.assigns frame v = fundef.frame values v :=
  exec_agree fundef.reads holds

theorem Holds.copies (holds : fundef.Holds frame values) :
    fundef.Holds (exec fundef.copies (exec fundef.assigns frame))
      (fundef.recValues values) := by
  have copied := (exec_copy_assigns (exec fundef.assigns frame) fundef.distinct fundef.arity
    (fun v => fundef.arg_old) (fun v member => fundef.fresh v (fundef.rec_defined v member))).1
  have passed : fundef.recArgs.map (exec fundef.assigns frame) = fundef.recValues values :=
    List.map_congr_left (fun v member => holds.body v (fundef.rec_defined v member))
  have bound := map_bind blank fundef.distinct
    ((List.length_map (fundef.frame values)).trans fundef.arity)
  rw [passed] at copied
  exact List.map_inj_left.mp (copied.trans bound.symm)

/-- The last instance runs the body in the frame of the last call; only its copies follow. -/
theorem Holds.instances (holds : fundef.Holds frame values) (k : Nat) :
    ∃ last, (∀ v ∈ fundef.defined, last v = fundef.frame (fundef.lastValues (k + 1) values) v) ∧
      exec (List.replicate (k + 1) (fundef.assigns ++ fundef.copies)).flatten frame =
        exec fundef.copies last := by
  induction k generalizing frame values with
  | zero =>
      refine ⟨exec fundef.assigns frame, holds.body, ?_⟩
      simp [exec_append]
  | succ k ih =>
      obtain ⟨last, agree, run⟩ := ih holds.copies
      refine ⟨last, agree, ?_⟩
      rw [List.replicate_succ, List.flatten_cons, exec_append, exec_append]
      exact run

end LoopFun

end Instances

section Unrolled

theorem zip_of_map {ids sources : List Var} {frame last : Frame (Value Data)}
    (same : ids.map frame = sources.map last) :
    ∀ pair ∈ ids.zip sources, frame pair.1 = last pair.2 := by
  induction ids generalizing sources with
  | nil => simp
  | cons id ids ih =>
      cases sources with
      | nil => simp
      | cons source sources =>
          obtain ⟨head, tail⟩ := List.cons.inj same
          intro pair member
          rcases List.mem_cons.mp member with rfl | member
          · exact head
          · exact ih tail pair member

theorem exists_zip {ids sources : List Var} (full : sources.length = ids.length) {v : Var}
    (member : v ∈ ids) : ∃ source, (v, source) ∈ ids.zip sources := by
  induction ids generalizing sources with
  | nil => cases member
  | cons id ids ih =>
      cases sources with
      | nil => simp at full
      | cons source sources =>
          rcases List.mem_cons.mp member with rfl | member
          · exact ⟨source, List.mem_cons_self ..⟩
          · obtain ⟨partner, member⟩ := ih (by simpa using full) member
            exact ⟨partner, List.mem_cons_of_mem _ member⟩

variable (fundef : LoopFun Data)

/-- The instances of the body, and the variable that is false behind them. -/
def instances (n : Nat) : List (Assign (Value Data)) :=
  if n = 1 then fundef.assigns
  else (List.replicate n (fundef.assigns ++ fundef.copies)).flatten

theorem unroll_loop_body_eq {n : Nat} (positive : 0 < n) :
    (unrollLoopBody fundef n).assigns =
        instances fundef n ++ [assignFalse (unrollLoopBody fundef n).cond] ∧
      fundef.tmpVar ≤ (unrollLoopBody fundef n).cond := by
  by_cases once : n = 1
  · simp [unrollLoopBody, instances, once]
  · obtain ⟨k, rfl⟩ := Nat.exists_eq_succ_of_ne_zero (ne_of_gt positive)
    have dup := dup_bodies_eq (fundef.assigns ++ fundef.copies) [] k
    rw [List.append_nil] at dup
    rw [instances, if_neg once, List.replicate_succ, List.flatten_cons, ← dup]
    rw [unrollLoopBody, if_neg once, createCopyAssigns, copy_assigns_helper_eq fundef.arity]
    constructor
    · rw [LoopFun.copies, createCopyAssigns, copy_assigns_helper_eq fundef.arity]
      rfl
    · exact Nat.le_add_right ..

theorem unrolled_frame {n : Nat} (positive : 0 < n) (values : List (Value Data)) (v : Var) :
    (unrollLoopBody fundef n).frame values v =
      if v = (unrollLoopBody fundef n).cond then .bool false
      else exec (instances fundef n) (bind blank fundef.args values) v := by
  have args : (unrollLoopBody fundef n).args = fundef.args := rfl
  rw [Fundef.frame, (unroll_loop_body_eq fundef positive).1, exec_append, args]
  by_cases same : v = (unrollLoopBody fundef n).cond
  · rw [if_pos same, same]
    exact Function.update_self ..
  · rw [if_neg same]
    exact Function.update_of_ne same ..

/-- The condition is false behind the instances: there is no recursion left. -/
theorem unrolled_calls_iff {n m : Nat} (positive : 0 < n) (values results : List (Value Data)) :
    Calls (unrollLoopBody fundef n) m values results ↔ m = 1 ∧
      results = fundef.results.map ((unrollLoopBody fundef n).frame values) := by
  have leaves : ((unrollLoopBody fundef n).frame values
      (unrollLoopBody fundef n).cond).isTrue = false := by
    rw [unrolled_frame fundef positive, if_pos rfl]
    rfl
  constructor
  · intro calls
    cases calls with
    | last => exact ⟨rfl, rfl⟩
    | again continues => exact absurd (leaves.symm.trans continues) (by decide)
  · rintro ⟨rfl, rfl⟩
    exact Calls.last leaves

variable {fundef}

theorem unrolled_result {n : Nat} (positive : 0 < n) (values : List (Value Data)) {v : Var}
    (known : v ∈ fundef.defined) :
    (unrollLoopBody fundef n).frame values v =
      exec (instances fundef n) (bind blank fundef.args values) v := by
  rw [unrolled_frame fundef positive, if_neg]
  exact ne_of_lt (lt_of_lt_of_le (fundef.fresh v known) (unroll_loop_body_eq fundef positive).2)

/-- A result keeps its value unless the copies behind the last instance change it. -/
theorem unrolled_results_iff {n : Nat} (positive : 0 < n) (values : List (Value Data)) :
    fundef.results.map ((unrollLoopBody fundef n).frame values) =
        fundef.results.map (fundef.frame (fundef.lastValues n values)) ↔
      n = 1 ∨ ∀ pair ∈ fundef.args.zip fundef.recArgs, pair.1 ∈ fundef.results →
        fundef.frame (fundef.lastValues n values) pair.1 =
          fundef.frame (fundef.lastValues n values) pair.2 := by
  rw [List.map_inj_left]
  by_cases once : n = 1
  · refine iff_of_true ?_ (Or.inl once)
    intro v member
    rw [unrolled_result positive values (fundef.results_defined v member), instances,
      if_pos once, once]
    rfl
  · obtain ⟨k, rfl⟩ := Nat.exists_eq_succ_of_ne_zero (ne_of_gt positive)
    have holds : fundef.Holds (bind blank fundef.args values) values := fun _ _ => rfl
    obtain ⟨last, agree, run⟩ := holds.instances k
    obtain ⟨copied, kept⟩ := exec_copy_assigns last fundef.distinct fundef.arity
      (fun v => fundef.arg_old) (fun v member => fundef.fresh v (fundef.rec_defined v member))
    have passed := zip_of_map copied
    have final : ∀ v ∈ fundef.defined, (unrollLoopBody fundef (k + 1)).frame values v =
        exec fundef.copies last v := by
      intro v known
      rw [unrolled_result positive values known, instances, if_neg once, run]
    rw [or_iff_right once]
    constructor
    · rintro same ⟨param, source⟩ pair member
      have listed := List.of_mem_zip pair
      rw [← same param member, ← agree source (fundef.rec_defined source listed.2),
        ← passed _ pair]
      exact final param (fundef.results_defined param member)
    · intro same v member
      have known := fundef.results_defined v member
      rw [final v known]
      by_cases arg : v ∈ fundef.args
      · obtain ⟨source, pair⟩ := exists_zip fundef.arity arg
        have listed := List.of_mem_zip pair
        rw [same _ pair member, ← agree source (fundef.rec_defined source listed.2)]
        exact passed _ pair
      · rw [← agree v known]
        exact kept v (fundef.fresh v known) arg

/-- `n` calls that end: the unrolled body returns the same results, unless the value an
argument has in the last call is a result and is not what the next call would get for it. -/
theorem unrolled_returns_iff {n : Nat} {values results : List (Value Data)}
    (calls : Calls fundef.toFundef n values results) :
    (∃ m, Calls (unrollLoopBody fundef n) m values results) ↔
      n = 1 ∨ ∀ pair ∈ fundef.args.zip fundef.recArgs, pair.1 ∈ fundef.results →
        fundef.frame (fundef.lastValues n values) pair.1 =
          fundef.frame (fundef.lastValues n values) pair.2 := by
  simp only [unrolled_calls_iff fundef calls.pos, exists_eq_left]
  rw [calls.results_eq, eq_comm]
  exact unrolled_results_iff calls.pos values

end Unrolled

/-- `do { j = i + 1; c = j < 2; } while (c)` on the argument `i`, which is also the result. -/
def counting : LoopFun Nat where
  args := [0]
  assigns := [⟨[1], [0], fun values => values.map fun
      | .data i => .data (i + 1)
      | .bool b => .bool b, fun _ full => (List.length_map _).trans full⟩,
    ⟨[2], [1], fun values => values.map fun
      | .data j => .bool (decide (j < 2))
      | .bool b => .bool b, fun _ full => (List.length_map _).trans full⟩]
  cond := 2
  recArgs := [1]
  results := [0]
  tmpVar := 3
  distinct := by decide
  arity := rfl
  reads := by simp [Scoped]
  cond_defined := by decide
  rec_defined := by decide
  results_defined := by decide
  fresh := by decide

theorem counting_twice : Calls counting.toFundef 2 [.data 0] [.data 1] :=
  Calls.again rfl (Calls.last rfl)

theorem unrolled_returns_counting :
    (∃ m, Calls (unrollLoopBody counting 2) m [.data 0] [.data 1]) ↔
      2 = 1 ∨ ∀ pair ∈ [(0, 1)], pair.1 ∈ [0] →
        counting.frame (counting.lastValues 2 [.data 0]) pair.1 =
          counting.frame (counting.lastValues 2 [.data 0]) pair.2 :=
  unrolled_returns_iff counting_twice

/-- Unrolled twice, the loop returns 2 for 1. -/
theorem unrolled_differs : ¬ ∃ m, Calls (unrollLoopBody counting 2) m [.data 0] [.data 1] := by
  rintro ⟨m, calls⟩
  have results := ((unrolled_calls_iff counting (by decide) _ _).mp calls).2
  exact absurd results (by intro h; cases h)

end Sac2c.LoopUnrolling
