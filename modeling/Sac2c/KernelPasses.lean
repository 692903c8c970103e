import Sac2c.PragmaSpaces
import Sac2c.ReturnBlocks

/-!
The passes over a whole pragma. The host pass computes the extents of the mappings
and asserts what makes them exact. In the kernel the same extents are computed
again, and every upper bound that the third pass needs stays in its variable, so
that the state before each mapping can be told from the values at the end.
-/

namespace Sac2c.KernelPasses

open GpuKernel ThreadSpaces PragmaSpaces KernelBlocks MappingBlocks ReturnBlocks

section Generators

def boundExtent (vals : Var → Int) (bound : Bound) : Extent :=
  ⟨bound.lb, bound.st, bound.wi, bound.ub.eval vals⟩

/-- The bounds of a generator that fits into the ints of the target -/
structure Sensible (ids0 : List Var) (vals0 : Var → Int) (bounds : List Bound) : Prop where
  ids : bounds.map (·.id) = ids0
  distinct : ids0.Nodup
  named : ∀ v ∈ ids0, ∃ name, v = .named name
  texts : ∀ b ∈ bounds, Program ids0 b.lb ∧ Program ids0 b.ub ∧ Program ids0 b.st ∧ Program ids0 b.wi
  sound : ∀ b ∈ bounds, (boundExtent vals0 b).Sound vals0

variable {arith : Arith} {ids0 : List Var} {vals0 : Var → Int} {bounds : List Bound}
  {gkr gkr' : Shared} {axes : List Axis}

theorem Sensible.block_texts (sensible : Sensible ids0 vals0 bounds) {b : Bound}
    (member : b ∈ bounds) : Texts ids0 vals0 b.lb b.st b.wi ∧ Program ids0 b.ub := by
  have sound := sensible.sound b member
  have positive := sound.wi_pos
  have smaller := sound.wi_le
  have small := sound.st_lt
  simp only [boundExtent] at positive smaller small
  obtain ⟨lbText, ubText, stText, wiText⟩ := sensible.texts b member
  exact ⟨⟨lbText, stText, wiText, by omega, by omega⟩, ubText⟩

/-- On the host each upper bound gets a variable. -/
theorem compGenDim_block (hostPass : gkr.pass.valPreserve = false)
    (tidy : Tidy ids0 vals0 gkr []) {b : Bound}
    (texts : Texts ids0 vals0 b.lb b.st b.wi ∧ Program ids0 b.ub) :
    ∃ gkr' a, compGenDim gkr b = some (gkr', a) ∧
      Block arith ids0 vals0 gkr [] gkr' [a] (fun _ => some [boundExtent vals0 b]) := by
  let id := if gkr.pass.idxCompute then some b.id else none
  let var : Var := .gkco gkr.next .ub
  have declares := varCreate_declares arith gkr .ub
  have computes (frame : Frame) (going : Going vals0 frame) :
      run arith frame ([.opdDeclare var] ++ [.opdRedefine b.ub var]) =
        some (frame.set var (b.ub.eval vals0)) := by
    rw [declares.silent, run_one going.going, ← texts.2.eval going.named]
    rfl
  refine ⟨(varCreate gkr .ub).2.emit (.opdRedefine b.ub var), ⟨b.lb, .read var, b.st, b.wi, id⟩,
    by simp [compGenDim, hostPass, varCreate, var, id], declares.toFollows.trans (emit_follows _ _),
    ⟨?_, ?_, by simp, tidy.helpers⟩, ?_, _, ?_, fun frame going =>
      ⟨_, computes frame going, ?_, (set_keeps _ _ _).weaken ?_⟩⟩
  · exact List.forall_mem_singleton.mpr texts.1
  · exact List.forall_mem_singleton.mpr (Or.inr ⟨gkr.next, Nat.lt_succ_self _, rfl⟩)
  · exact List.forall_mem_singleton.mpr (Or.inr ⟨gkr.next, le_rfl, rfl⟩)
  · simp [varCreate, Shared.emit, var]
  · simp [extentOf, boundExtent, Opd.eval, Frame.set]
  · rintro v rfl
    exact Or.inr (Or.inl ⟨gkr.next, le_rfl, rfl⟩)

theorem compGenDim_loop (arith : Arith) (hostPass : gkr.pass.valPreserve = false)
    (tidy : Tidy ids0 vals0 gkr [])
    (texts : ∀ b ∈ bounds, Texts ids0 vals0 b.lb b.st b.wi ∧ Program ids0 b.ub) :
    ∃ gkr' axes, loopDimensions compGenDim gkr bounds = some (gkr', axes) ∧
      Block arith ids0 vals0 gkr [] gkr' axes
        (fun _ => some (bounds.map (boundExtent vals0))) := by
  induction bounds generalizing gkr with
  | nil => exact ⟨gkr, [], rfl, (Block.nil tidy).congr fun _ => rfl⟩
  | cons b bounds ih =>
      obtain ⟨here, others⟩ := List.forall_mem_cons.mp texts
      obtain ⟨middle, a, first, head⟩ := compGenDim_block hostPass tidy here
      obtain ⟨gkr', axes, later, tail⟩ :=
        ih (head.follows.pass ▸ hostPass) (tidy.later head.follows) others
      refine ⟨gkr', a :: axes, ?_, (Block.append tidy head tail).congr fun _ => rfl⟩
      simp only [loopDimensions, first, later, Option.bind_eq_bind, Option.bind_some]

/-- A variable that the passes make up -/
def Made (var : Var) : Prop := ∃ n kind, var = .gkco n kind

theorem not_made_named (name : String) : ¬ Made (.named name) := by
  rintro ⟨n, kind, same⟩
  cases same

/-- Nothing but made up variables is written, and nothing is collected. -/
structure Clears (start : Shared) (before after : Frame) : Prop where
  keeps : Keeps Made before after
  zero : ∀ r, start.returnCollector = some r → after.vals r = 0

/-- What a pass has compiled so far, and what its code computes -/
structure Built (arith : Arith) (ids0 : List Var) (vals0 : Var → Int) (start : Shared)
    (res : GpuKernelRes) (target : Option (List Extent)) : Prop where
  follows : Follows start res.toShared
  tidy : Tidy ids0 vals0 res.toShared res.axes
  runs : ∃ code, res.out = start.out ++ code ∧ ∀ frame, Going vals0 frame →
    Ends (run arith frame code)
      (fun after extents => res.axes.map (extentOf after.vals) = extents ∧
        Clears start frame after) target

theorem makeGpuKernelRes_silent (pass : Pass) (next : Nat) (frame : Frame) (code : List Icm) :
    run arith frame ((makeGpuKernelRes pass next).out ++ code) = run arith frame code := by
  have silent (var : Var) (code : List Icm) :
      run arith frame (.opdDeclare var :: code) = run arith frame code := by
    cases done : frame.returned with
    | true => rw [run_returned done, run_returned done]
    | false =>
        rw [run_cons done]
        rfl
  cases branchless : pass.branchless <;>
    simp [makeGpuKernelRes, varCreate, Shared.emit, branchless, silent]

/-- What every pass starts with -/
structure Starts (start : Shared) : Prop where
  stacksEmpty : start.toStacks = ⟨[], [], [], [], []⟩
  helpers : (∃ n, start.helperA = .gkco n .tmp) ∧ ∃ n, start.helperB = .gkco n .tmp
  branchless : start.pass.branchless = start.returnCollector.isSome
  collector : ∀ r, start.returnCollector = some r → ∃ n, r = .gkco n .retCol

theorem makeGpuKernelRes_pass (pass : Pass) (next : Nat) :
    (makeGpuKernelRes pass next).pass = pass := by
  cases branchless : pass.branchless <;>
    simp [makeGpuKernelRes, varCreate, Shared.emit, branchless]

theorem makeGpuKernelRes_starts (pass : Pass) (next : Nat) :
    Starts (makeGpuKernelRes pass next) := by
  cases branchless : pass.branchless with
  | true =>
      simp only [makeGpuKernelRes, varCreate, Shared.emit, branchless, if_true]
      exact ⟨rfl, ⟨⟨_, rfl⟩, _, rfl⟩, branchless, fun r same => ⟨_, (Option.some.inj same).symm⟩⟩
  | false =>
      simp only [makeGpuKernelRes, varCreate, Shared.emit, branchless, Bool.false_eq_true, if_false]
      exact ⟨rfl, ⟨⟨_, rfl⟩, _, rfl⟩, branchless, by simp⟩

theorem Tidy.made (tidy : Tidy ids0 vals0 gkr axes) {var : Var}
    (written : Written gkr axes var) : ∃ n kind, var = .gkco n kind ∧ kind ≠ .retCol := by
  rcases written with ⟨n, rfl⟩ | ⟨n, -, rfl⟩ | ⟨isHost, owned⟩
  · exact ⟨n, _, rfl, nofun⟩
  · exact ⟨n, _, rfl, nofun⟩
  · obtain ⟨a, member, text⟩ := List.mem_map.mp owned
    rcases tidy.ubs a member with ⟨preserve, -⟩ | ⟨n, -, same⟩
    · rw [isHost] at preserve
      cases preserve
    · rw [text] at same
      cases same
      exact ⟨n, _, rfl, nofun⟩

theorem Clears.later {start : Shared} {before middle after : Frame}
    (clears : Clears start before middle) (starts : Starts start)
    (tidy : Tidy ids0 vals0 gkr axes) (keeps : Keeps (Written gkr axes) middle after) :
    Clears start before after where
  keeps := clears.keeps.trans <| keeps.weaken fun var written => by
    obtain ⟨n, kind, rfl, -⟩ := Tidy.made tidy written
    exact ⟨n, kind, rfl⟩
  zero r collects := by
    obtain ⟨n, rfl⟩ := starts.collector r collects
    rw [← clears.zero _ collects]
    refine keeps.vals _ fun written => ?_
    obtain ⟨m, kind, same, notRet⟩ := Tidy.made tidy written
    exact notRet (Var.gkco.inj same).2.symm

theorem compGen_host (sensible : Sensible ids0 vals0 bounds) {start : Shared}
    (starts : Starts start) (hostPass : start.pass.valPreserve = false)
    (branches : start.pass.branchless = false) :
    ∃ res, compGen bounds start = some res ∧
      Built arith ids0 vals0 start res (some (bounds.map (boundExtent vals0))) := by
  have tidy : Tidy ids0 vals0 start [] := ⟨by simp, by simp, by simp, starts.helpers⟩
  obtain ⟨gkr', axes, compiled, block⟩ :=
    compGenDim_loop arith hostPass tidy fun b member => sensible.block_texts member
  obtain ⟨code, printed, computes⟩ := block.runs
  have branched : start.returnCollector = none := by
    have collects := starts.branchless
    rw [branches] at collects
    exact Option.not_isSome_iff_eq_none.mp (by simp [← collects])
  refine ⟨{ gkr' with axes := axes }, by simp [compGen, branches, compiled], block.follows,
    block.tidy, code, printed, fun frame going => ?_⟩
  refine (computes frame going).imp fun after extents ⟨same, keeps⟩ => ⟨same, ?_⟩
  refine Clears.later ⟨Keeps.refl _ _, fun r collects => ?_⟩ starts tidy keeps
  rw [branched] at collects
  cases collects

theorem compGenDim_kernel (bounds : List Bound) (preserve : gkr.pass.valPreserve = true)
    (compute : gkr.pass.idxCompute = true) :
    loopDimensions compGenDim gkr bounds =
      some (gkr, bounds.map fun b => ⟨b.lb, b.ub, b.st, b.wi, some b.id⟩) := by
  induction bounds with
  | nil => rfl
  | cons b bounds ih =>
      have first : compGenDim gkr b = some (gkr, ⟨b.lb, b.ub, b.st, b.wi, some b.id⟩) := by
        simp [compGenDim, preserve, compute]
      simp only [loopDimensions, first, ih, Option.bind_eq_bind, Option.bind_some, List.map_cons]

theorem compGen_kernel (sensible : Sensible ids0 vals0 bounds) {start : Shared}
    (starts : Starts start) (preserve : start.pass.valPreserve = true)
    (compute : start.pass.idxCompute = true) :
    ∃ res, compGen bounds start = some res ∧ res.toStacks = start.toStacks ∧
      res.axes.map (·.idx) = ids0.map some ∧
      Built arith ids0 vals0 start res (some (bounds.map (boundExtent vals0))) := by
  let axes := bounds.map fun b => (⟨b.lb, b.ub, b.st, b.wi, some b.id⟩ : Axis)
  let clears : List Icm := (start.returnCollector.map Icm.returnColInit).toList
  let shared : Shared := { start with out := start.out ++ clears }
  have names : axes.map (·.idx) = ids0.map some := by
    simp only [axes, ← sensible.ids, List.map_map]
    rfl
  have compiled : compGen bounds start = some { shared with axes := axes } := by
    have branchless := starts.branchless
    cases collects : start.returnCollector with
    | none =>
        rw [collects] at branchless
        have silent : clears = [] := by simp [clears, collects]
        have same : shared = start := by simp only [shared, silent, List.append_nil]
        rw [same]
        simp [compGen, branchless, compGenDim_kernel bounds preserve compute, axes]
    | some r =>
        rw [collects] at branchless
        have looped := compGenDim_kernel bounds
          (show (start.emit (.returnColInit r)).pass.valPreserve = true from preserve) compute
        simp only [compGen, branchless, Option.isSome_some, if_true, collects, Option.map_some,
          Option.bind_eq_bind, Option.bind_some, looped]
        simp [shared, clears, collects, axes, Shared.emit]
  refine ⟨_, compiled, rfl, names, ⟨rfl, rfl, rfl, rfl, le_rfl⟩,
    ⟨?_, ?_, ?_, starts.helpers⟩, clears, rfl, ?_⟩
  · intro a member
    obtain ⟨b, inBounds, rfl⟩ := List.mem_map.mp member
    exact (sensible.block_texts inBounds).1
  · intro a member
    obtain ⟨b, inBounds, rfl⟩ := List.mem_map.mp member
    exact Or.inl ⟨preserve, (sensible.texts b inBounds).2.1⟩
  · intro isHost
    rw [preserve] at isHost
    cases isHost
  · intro frame going
    have extents (after : Frame) (going : Going vals0 after) :
        axes.map (extentOf after.vals) = bounds.map (boundExtent vals0) := by
      rw [List.map_map]
      refine List.map_congr_left fun b inBounds => ?_
      simp only [Function.comp_apply, extentOf, boundExtent,
        (sensible.texts b inBounds).2.1.eval going.named]
    cases collects : start.returnCollector with
    | none =>
        have silent : clears = [] := by simp [clears, collects]
        rw [silent]
        refine ⟨frame, rfl, extents frame going, ⟨Keeps.refl _ _, fun r same => ?_⟩⟩
        rw [collects] at same
        cases same
    | some r =>
        have one : clears = [.returnColInit r] := by simp [clears, collects]
        obtain ⟨n, rfl⟩ := starts.collector r collects
        have wrote := set_keeps frame (.gkco n .retCol) 0
        rw [one, run_one going.going]
        refine ⟨_, rfl, extents _ (wrote.going (fun name => Var.noConfusion) going),
          ⟨wrote.weaken ?_, ?_⟩⟩
        · rintro v rfl
          exact ⟨n, _, rfl⟩
        · intro r same
          rw [collects] at same
          cases same
          exact Function.update_self ..

end Generators

section Built

variable {arith : Arith} {ids0 : List Var} {vals0 : Var → Int} {bounds : List Bound}
  {start : Shared} {res res' : GpuKernelRes} {target : Option (List Extent)} {mapping : Mapping}

/-- One more mapping -/
theorem Built.step (exact : Exact arith) (starts : Starts start)
    (built : Built arith ids0 vals0 start res target) (preserving : start.pass.valConsume = false)
    (checked : mapping.checkArgs = true) (compiled : mapping.comp res = some res') :
    Built arith ids0 vals0 start res' (target.bind (forward arith vals0 mapping)) := by
  have block := comp_block exact built.tidy (built.follows.pass ▸ preserving) checked compiled
  obtain ⟨code, printed, computes⟩ := built.runs
  obtain ⟨code', printed', computes'⟩ := block.runs
  refine ⟨built.follows.trans block.follows, block.tidy, code ++ code',
    by rw [printed', printed, List.append_assoc], fun frame going => ?_⟩
  refine (computes frame going).bind fun middle extents ⟨same, clears⟩ => ?_
  have there := computes' middle (clears.keeps.going not_made_named going)
  rw [same] at there
  exact there.imp fun after extents' ⟨same', keeps⟩ =>
    ⟨same', clears.later starts built.tidy keeps⟩

theorem dispatch_built (exact : Exact arith) (starts : Starts start)
    (preserving : start.pass.valConsume = false) {extents : List Extent}
    (generates : ∀ res, compGen bounds start = some res →
      Built arith ids0 vals0 start res (some extents))
    {mappings : List Mapping} (checked : ∀ m ∈ mappings, m.checkArgs = true)
    (compiled : dispatch bounds start mappings = some res) :
    Built arith ids0 vals0 start res (forwards arith vals0 mappings extents) := by
  induction mappings generalizing res with
  | nil => exact generates res compiled
  | cons mapping inner ih =>
      obtain ⟨before, first, compiled⟩ := Option.bind_eq_some_iff.mp compiled
      have built := ih (fun m member => checked m (List.mem_cons_of_mem _ member)) first
      exact built.step exact starts preserving (checked mapping (List.mem_cons_self ..)) compiled

/-- Some frame to run the code of a pass on -/
def someFrame (vals0 : Var → Int) : Frame :=
  ⟨vals0, fun _ => 0, fun _ => 0, [], [], fun _ => 0, false⟩

/-- If the code computes extents at all, the dimensions have their texts. -/
theorem Built.extents {extents : List Extent}
    (built : Built arith ids0 vals0 start res (some extents)) :
    ∃ vals, res.axes.map (extentOf vals) = extents := by
  obtain ⟨code, -, computes⟩ := built.runs
  obtain ⟨after, -, same, -⟩ := computes (someFrame vals0) ⟨rfl, fun name => rfl⟩
  exact ⟨after.vals, same⟩

end Built

section Assertions

variable {ids0 : List Var} {vals : Var → Int} {mapping : Mapping} {res res' : GpuKernelRes}

/-- What a loop has done to each dimension it was able to do -/
theorem loop_some {α β : Type} {body : Shared → α → Option (Shared × β)} {gkr gkr' : Shared}
    {entries : List α} {results : List β} (ok : Pass → α → Prop)
    (compiled : loopDimensions body gkr entries = some (gkr', results))
    (each : ∀ gkr a gkr' b, body gkr a = some (gkr', b) → gkr'.pass = gkr.pass ∧ ok gkr.pass a) :
    ∀ a ∈ entries, ok gkr.pass a := by
  induction entries generalizing gkr results with
  | nil => simp
  | cons a entries ih =>
      obtain ⟨⟨middle, b⟩, here, rest⟩ := Option.bind_eq_some_iff.mp compiled
      obtain ⟨⟨last, bs⟩, later, equal⟩ := Option.bind_eq_some_iff.mp rest
      cases equal
      obtain ⟨pass, fine⟩ := each _ _ _ _ here
      exact List.forall_mem_cons.mpr ⟨fine, pass ▸ ih later⟩

/-- A loop that can do each dimension does them all. -/
theorem loop_total {α β : Type} (body : Shared → α → Option (Shared × β)) (entries : List α)
    (gkr : Shared) (each : ∀ a (other : Shared), other.pass = gkr.pass →
      ∃ gkr' b, body other a = some (gkr', b) ∧ gkr'.pass = other.pass) :
    ∃ gkr' results, loopDimensions body gkr entries = some (gkr', results) := by
  induction entries generalizing gkr with
  | nil => exact ⟨gkr, [], rfl⟩
  | cons a entries ih =>
      obtain ⟨middle, b, here, pass⟩ := each a gkr rfl
      obtain ⟨gkr', bs, rest⟩ := ih middle fun a other same => each a other (same.trans pass)
      exact ⟨gkr', b :: bs, by simp [loopDimensions, here, rest]⟩

theorem assertNormalized_eq_some {a : Axis} : assertNormalized a = some () ↔ a.lb = constZero := by
  unfold assertNormalized
  split <;> simp [*]

theorem assertDense_eq_some {a : Axis} :
    assertDense a = some () ↔ a.lb = constZero ∧ a.st = a.wi := by
  simp only [assertDense, Option.bind_eq_bind, Option.bind_eq_some_iff]
  constructor
  · rintro ⟨_, normalized, dense⟩
    refine ⟨assertNormalized_eq_some.mp normalized, ?_⟩
    by_contra different
    rw [if_neg different] at dense
    cases dense
  · rintro ⟨zero, dense⟩
    exact ⟨(), assertNormalized_eq_some.mpr zero, if_pos dense⟩

theorem forM_normalized {axes : List Axis} :
    axes.forM assertNormalized = some () ↔ ∀ a ∈ axes, a.lb = constZero := by
  induction axes with
  | nil => simp
  | cons a axes ih =>
      have step : (a :: axes).forM assertNormalized =
          (assertNormalized a).bind fun _ => axes.forM assertNormalized := rfl
      rw [step, List.forall_mem_cons, ← ih, ← assertNormalized_eq_some, Option.bind_eq_some_iff]
      exact ⟨fun ⟨_, here, rest⟩ => ⟨here, rest⟩, fun ⟨here, rest⟩ => ⟨(), here, rest⟩⟩

theorem checkDimensionSettings_eq_some {config : Config} {gridDims dims : Nat} :
    checkDimensionSettings config gridDims dims = some () ↔
      gridDims ≤ config.cudaDimGrid ∧ gridDims ≤ dims ∧ dims - gridDims ≤ config.cudaDimBlock := by
  unfold checkDimensionSettings
  split
  · next fits => exact iff_of_true rfl fits
  · next unfit => exact iff_of_false nofun unfit

theorem checkNormalized_eq_some {gkr : Shared} {a : Axis} :
    checkNormalized gkr a = some () ↔ (gkr.pass.checkPragma = true → a.lb = constZero) := by
  unfold checkNormalized
  split
  · next checks => simp [assertNormalized_eq_some, checks]
  · next unchecked => simp [unchecked]

theorem newUpperboundVariable_pass (gkr : Shared) (a : Axis) :
    (newUpperboundVariable gkr a).2.pass = gkr.pass := by
  unfold newUpperboundVariable
  split <;> rfl

theorem checkNormalized_congr {gkr gkr' : Shared} (pass : gkr'.pass = gkr.pass) (a : Axis) :
    checkNormalized gkr' a = checkNormalized gkr a := by
  simp only [checkNormalized, pass]

theorem pushes_pass (gkr : Shared) (ub st wi : Opd) :
    (((gkr.pushUb ub).pushSt st).pushWi wi).pass = gkr.pass :=
  (pushWi_declares device _ _).pass.trans
    ((pushSt_declares device _ _).pass.trans (pushUb_declares device _ _).pass)

theorem compShiftLBDim_total (gkr : Shared) (a : Axis) :
    ∃ gkr' a', compShiftLBDim gkr a = some (gkr', a') ∧ gkr'.pass = gkr.pass := by
  have pushed : ((gkr.pushLb a.lb).pushUb a.ub).pass = gkr.pass :=
    (pushUb_declares device _ _).pass.trans (pushLb_declares device _ _).pass
  simp only [compShiftLBDim]
  split
  · exact ⟨_, _, rfl, pushed⟩
  · exact ⟨_, _, rfl, (newUpperboundVariable_pass _ _).trans pushed⟩

theorem compCompressGridDim_total {gkr : Shared} {entry : Bool × Axis}
    (normalized : entry.1 = true → checkNormalized gkr entry.2 = some ()) :
    ∃ gkr' a, compCompressGridDim gkr entry = some (gkr', a) ∧ gkr'.pass = gkr.pass := by
  have pushes := pushes_pass gkr entry.2.ub entry.2.st entry.2.wi
  simp only [compCompressGridDim]
  split
  · exact ⟨_, _, rfl, pushes⟩
  · next on =>
      simp only [checkNormalized_congr pushes, normalized (by simpa using on),
        Option.bind_eq_bind, Option.bind_some]
      split
      · exact ⟨_, _, rfl, pushes⟩
      · exact ⟨_, _, rfl, (newUpperboundVariable_pass _ _).trans pushes⟩

theorem compCompressGridDim_some {gkr gkr' : Shared} {entry : Bool × Axis} {a : Axis}
    (compiled : compCompressGridDim gkr entry = some (gkr', a)) :
    gkr'.pass = gkr.pass ∧ (gkr.pass.checkPragma = true → entry.1 = true →
      entry.2.lb = constZero) := by
  have normalized (on : entry.1 = true) : checkNormalized gkr entry.2 = some () := by
    simp only [compCompressGridDim, on, Bool.not_true, Bool.false_eq_true, if_false] at compiled
    obtain ⟨_, normalized, -⟩ := Option.bind_eq_some_iff.mp compiled
    rwa [checkNormalized_congr (pushes_pass ..)] at normalized
  obtain ⟨_, _, compiled', pass⟩ := compCompressGridDim_total normalized
  cases compiled.symm.trans compiled'
  exact ⟨pass, fun checks on => checkNormalized_eq_some.mp (normalized on) checks⟩

theorem compPruneGridDim_total {gkr : Shared} {a : Axis}
    (normalized : checkNormalized gkr a = some ()) :
    ∃ gkr' a', compPruneGridDim gkr a = some (gkr', a') ∧ gkr'.pass = gkr.pass := by
  simp only [compPruneGridDim, normalized, Option.bind_eq_bind, Option.bind_some]
  exact ⟨_, _, rfl, (pushWi_declares device _ _).pass.trans (pushSt_declares device _ _).pass⟩

theorem compPruneGridDim_some {gkr gkr' : Shared} {a a' : Axis}
    (compiled : compPruneGridDim gkr a = some (gkr', a')) :
    gkr'.pass = gkr.pass ∧ (gkr.pass.checkPragma = true → a.lb = constZero) := by
  obtain ⟨_, normalized, -⟩ := Option.bind_eq_some_iff.mp compiled
  obtain ⟨_, _, compiled', pass⟩ := compPruneGridDim_total normalized
  cases compiled.symm.trans compiled'
  exact ⟨pass, checkNormalized_eq_some.mp normalized⟩

theorem lastOne_map {α β : Type} {f : α → β} {l : List α} {front : List β} {last : β}
    (split : lastOne (l.map f) = some (front, last)) :
    ∃ front' last', l = front' ++ [last'] ∧ front = front'.map f ∧ last = f last' := by
  obtain ⟨front', lasts, rfl, rfl, ends⟩ := List.map_eq_append_iff.mp (lastOne_eq_some.mp split)
  obtain ⟨last', rest, rfl, rfl, none⟩ := List.map_eq_cons_iff.mp ends
  exact ⟨front', last', by rw [List.map_eq_nil_iff.mp none], rfl, rfl⟩

theorem lastTwo_map {α β : Type} {f : α → β} {l : List α} {front : List β} {major minor : β}
    (split : lastTwo (l.map f) = some (front, major, minor)) :
    ∃ front' major' minor', l = front' ++ [major', minor'] ∧ front = front'.map f ∧
      major = f major' ∧ minor = f minor' := by
  obtain ⟨front', lasts, rfl, rfl, ends⟩ := List.map_eq_append_iff.mp (lastTwo_eq_some.mp split)
  obtain ⟨major', rest, rfl, rfl, tail⟩ := List.map_eq_cons_iff.mp ends
  obtain ⟨minor', rest, rfl, rfl, none⟩ := List.map_eq_cons_iff.mp tail
  exact ⟨front', major', minor', by rw [List.map_eq_nil_iff.mp none], rfl, rfl, rfl⟩

theorem asserted_of_comp (checks : res.pass.checkPragma = true)
    (compiled : mapping.comp res = some res') :
    Asserted mapping (res.axes.map (extentOf vals)) := by
  cases mapping with
  | shiftLB => trivial
  | compressGrid shouldCompress =>
      simp only [Mapping.comp] at compiled
      split at compiled
      · cases compiled
      · obtain ⟨⟨shared, axes⟩, looped, -⟩ := Option.bind_eq_some_iff.mp compiled
        intro entry member taken
        rw [List.zip_map_right] at member
        obtain ⟨source, inAxes, rfl⟩ := List.mem_map.mp member
        exact loop_some (fun pass entry => pass.checkPragma = true → entry.1 = true →
          entry.2.lb = constZero) looped (fun _ _ _ _ => compCompressGridDim_some) source inAxes
          checks taken
  | pruneGrid =>
      obtain ⟨⟨shared, axes⟩, looped, -⟩ := Option.bind_eq_some_iff.mp compiled
      intro e member
      obtain ⟨source, inAxes, rfl⟩ := List.mem_map.mp member
      exact loop_some (fun pass a => pass.checkPragma = true → a.lb = constZero) looped
        (fun _ _ _ _ => compPruneGridDim_some) source inAxes checks
  | permute permutation => trivial
  | foldLast2 =>
      intro front major minor parts
      obtain ⟨front, major, minor, whole, -, rfl, rfl⟩ := lastTwo_map (lastTwo_eq_some.mpr parts)
      simp only [Mapping.comp, compFoldLast2, lastTwo_eq_some.mpr whole, Option.bind_eq_bind,
        Option.bind_some] at compiled
      obtain ⟨_, denseMajor, rest⟩ := Option.bind_eq_some_iff.mp compiled
      obtain ⟨_, denseMinor, -⟩ := Option.bind_eq_some_iff.mp rest
      exact ⟨assertDense_eq_some.mp denseMajor, assertDense_eq_some.mp denseMinor⟩
  | splitLast minorlen =>
      intro front major parts
      obtain ⟨front, major, whole, -, rfl⟩ := lastOne_map (lastOne_eq_some.mpr parts)
      simp only [Mapping.comp, compSplitLast, lastOne_eq_some.mpr whole, Option.bind_eq_bind,
        Option.bind_some] at compiled
      obtain ⟨_, -, rest⟩ := Option.bind_eq_some_iff.mp compiled
      obtain ⟨_, dense, -⟩ := Option.bind_eq_some_iff.mp rest
      exact assertDense_eq_some.mp dense
  | padLast divisibility => trivial

/-- In the kernel a mapping is compiled wherever the host pass let it through. -/
theorem comp_of_asserted {arith : Arith} {vals0 : Var → Int} {outer : List Extent}
    (checked : mapping.checkArgs = true) (unchecked : res.pass.checkPragma = false)
    (preserving : res.pass.valConsume = false)
    (asserted : Asserted mapping (res.axes.map (extentOf vals)))
    (computed : forward arith vals0 mapping (res.axes.map (extentOf vals)) = some outer) :
    ∃ res', mapping.comp res = some res' := by
  have free (gkr : Shared) (pass : gkr.pass = res.pass) (a : Axis) :
      checkNormalized gkr a = some () :=
    checkNormalized_eq_some.mpr fun checks => by rw [pass, unchecked] at checks; cases checks
  cases mapping with
  | shiftLB =>
      obtain ⟨gkr', axes, looped⟩ := loop_total compShiftLBDim res.axes res.toShared
        fun a gkr _ => compShiftLBDim_total gkr a
      exact ⟨_, by rw [Mapping.comp, looped]; rfl⟩
  | compressGrid shouldCompress =>
      simp only [forward, List.length_map] at computed
      split at computed
      · cases computed
      · next same =>
          obtain ⟨gkr', axes, looped⟩ := loop_total compCompressGridDim _ res.toShared
            fun entry gkr pass => compCompressGridDim_total fun _ => free gkr pass entry.2
          exact ⟨_, by rw [Mapping.comp, if_neg same, looped]; rfl⟩
  | pruneGrid =>
      obtain ⟨gkr', axes, looped⟩ := loop_total compPruneGridDim res.axes res.toShared
        fun a gkr pass => compPruneGridDim_total (free gkr pass a)
      exact ⟨_, by rw [Mapping.comp, looped]; rfl⟩
  | permute permutation =>
      simp only [forward, List.length_map] at computed
      split at computed
      · cases computed
      · next same =>
          obtain ⟨axes, permuted⟩ := StrvecPermutations.permuteStrvec_total
            (StrvecPermutations.checked_perm checked) res.axes (by omega)
          exact ⟨_, by rw [Mapping.comp, if_neg same, permuted]; rfl⟩
  | foldLast2 =>
      obtain ⟨⟨front', major', minor'⟩, split, -⟩ := Option.bind_eq_some_iff.mp computed
      obtain ⟨denseMajor, denseMinor⟩ := asserted _ _ _ (lastTwo_eq_some.mp split)
      obtain ⟨front, major, minor, whole, -, rfl, rfl⟩ := lastTwo_map split
      simp only [Mapping.comp, compFoldLast2, lastTwo_eq_some.mpr whole,
        assertDense_eq_some.mpr denseMajor, assertDense_eq_some.mpr denseMinor,
        Option.bind_eq_bind, Option.bind_some]
      exact ⟨_, rfl⟩
  | splitLast minorlen =>
      obtain ⟨⟨front', major'⟩, split, -⟩ := Option.bind_eq_some_iff.mp computed
      have dense := asserted _ _ (lastOne_eq_some.mp split)
      obtain ⟨front, major, whole, -, rfl⟩ := lastOne_map split
      obtain ⟨gkr', idx, declares, adds, -⟩ := addDimension_spec arith preserving
      simp only [Mapping.comp, compSplitLast, adds, lastOne_eq_some.mpr whole,
        assertDense_eq_some.mpr dense, Option.bind_eq_bind, Option.bind_some]
      exact ⟨_, rfl⟩
  | padLast divisibility =>
      obtain ⟨⟨front', last'⟩, split, -⟩ := Option.bind_eq_some_iff.mp computed
      obtain ⟨front, last, whole, -⟩ := lastOne_map split
      simp only [Mapping.comp, lastOne_eq_some.mpr whole, Option.bind_eq_bind, Option.bind_some]
      exact ⟨_, rfl⟩

end Assertions

section Passes

variable {arith : Arith} {ids0 : List Var} {vals0 : Var → Int} {bounds : List Bound}
  {start : Shared} {res : GpuKernelRes} {mappings : List Mapping}

/-- What the host pass compiles has passed its checks. -/
theorem host_admitted (sensible : Sensible ids0 vals0 bounds) (starts : Starts start)
    (pass : start.pass = passHost) (checked : ∀ m ∈ mappings, m.checkArgs = true)
    (compiled : dispatch bounds start mappings = some res) :
    Built host ids0 vals0 start res
      (forwards host vals0 mappings (bounds.map (boundExtent vals0))) ∧
    Admitted vals0 mappings (bounds.map (boundExtent vals0)) := by
  have generates (res : GpuKernelRes) (generated : compGen bounds start = some res) :
      Built host ids0 vals0 start res (some (bounds.map (boundExtent vals0))) := by
    obtain ⟨res', generated', built⟩ := compGen_host sensible starts (by rw [pass]; rfl)
      (by rw [pass]; rfl)
    cases generated.symm.trans generated'
    exact built
  have builds {mappings : List Mapping} (checked : ∀ m ∈ mappings, m.checkArgs = true)
      {res : GpuKernelRes} (compiled : dispatch bounds start mappings = some res) :=
    dispatch_built host_exact starts (by rw [pass]; rfl) generates checked compiled
  refine ⟨builds checked compiled, ?_⟩
  induction mappings generalizing res with
  | nil => trivial
  | cons mapping inner ih =>
      obtain ⟨before, first, compiled⟩ := Option.bind_eq_some_iff.mp compiled
      have inner (m : Mapping) (member : m ∈ inner) := checked m (List.mem_cons_of_mem _ member)
      refine ⟨ih inner first, checked mapping (List.mem_cons_self ..), fun extents computed => ?_⟩
      have built := builds inner first
      rw [computed] at built
      obtain ⟨vals, rfl⟩ := built.extents
      exact asserted_of_comp (by rw [built.follows.pass, pass]; rfl) compiled

end Passes

section Traces

/-- A state of the second pass, the upper bounds of which are still to be found in
the values at the end -/
structure Stage (ids0 : List Var) (vals0 : Var → Int) (start : Shared) (vals : Var → Int)
    (res : GpuKernelRes) (outer : List Extent) : Prop where
  follows : Follows start res.toShared
  tidy : Tidy ids0 vals0 res.toShared res.axes
  extents : res.axes.map (extentOf vals) = outer

/-- The states that the second pass goes through -/
inductive Traces (ids0 : List Var) (vals0 : Var → Int) (start : Shared) (bounds : List Bound)
    (vals : Var → Int) : List Mapping → GpuKernelRes → List Extent → Prop
  | gen {res : GpuKernelRes} (compiled : compGen bounds start = some res)
      (stage : Stage ids0 vals0 start vals res (bounds.map (boundExtent vals0))) :
      Traces ids0 vals0 start bounds vals [] res (bounds.map (boundExtent vals0))
  | step {mapping : Mapping} {inner : List Mapping} {res res' : GpuKernelRes}
      {before after : List Extent}
      (earlier : Traces ids0 vals0 start bounds vals inner res before)
      (checked : mapping.checkArgs = true) (compiled : mapping.comp res = some res')
      (computed : forward host vals0 mapping before = some after) (next : res.next ≤ res'.next)
      (stage : Stage ids0 vals0 start vals res' after) :
      Traces ids0 vals0 start bounds vals (mapping :: inner) res' after

variable {ids0 : List Var} {vals0 vals : Var → Int} {bounds : List Bound} {start : Shared}
  {res : GpuKernelRes} {mappings : List Mapping} {outer : List Extent}

theorem Traces.stage (traces : Traces ids0 vals0 start bounds vals mappings res outer) :
    Stage ids0 vals0 start vals res outer := by
  cases traces with
  | gen compiled stage => exact stage
  | step earlier checked compiled computed next stage => exact stage

theorem Traces.computed (traces : Traces ids0 vals0 start bounds vals mappings res outer) :
    forwards host vals0 mappings (bounds.map (boundExtent vals0)) = some outer := by
  induction traces with
  | gen compiled stage => rfl
  | step earlier checked compiled computed next stage ih =>
      rw [forwards, ih, Option.bind_some, computed]

/-- Code that a later state of the second pass prints leaves the earlier states alone. -/
theorem Traces.keeps {before after : Frame} {gkr : Shared} {axes : List Axis}
    (traces : Traces ids0 vals0 start bounds before.vals mappings res outer)
    (preserve : gkr.pass.valPreserve = true)
    (helpers : (∃ n, gkr.helperA = .gkco n .tmp) ∧ ∃ n, gkr.helperB = .gkco n .tmp)
    (later : res.next ≤ gkr.next) (keeps : Keeps (Written gkr axes) before after) :
    Traces ids0 vals0 start bounds after.vals mappings res outer := by
  have stays {res : GpuKernelRes} {outer : List Extent} (older : res.next ≤ gkr.next)
      (stage : Stage ids0 vals0 start before.vals res outer) :
      Stage ids0 vals0 start after.vals res outer := by
    have tidy : Tidy ids0 vals0 gkr res.axes :=
      { texts := stage.tidy.texts
        ubs := fun a member => (stage.tidy.ubs a member).imp
          (fun kept => ⟨preserve, kept.2⟩) fun ⟨n, old, text⟩ => ⟨n, old.trans_le older, text⟩
        distinct := fun isHost => by rw [preserve] at isHost; cases isHost
        helpers := helpers }
    refine { stage with extents := ?_ }
    rw [← stage.extents]
    exact keeps.extents (tidy.unwritten fun isHost => by rw [preserve] at isHost; cases isHost)
  induction traces with
  | gen compiled stage => exact Traces.gen compiled (stays later stage)
  | step earlier checked compiled computed next stage ih =>
      exact Traces.step (ih (next.trans later)) checked compiled computed next (stays later stage)

/-- The kernel passes compile what the host pass let through, and their code leaves
all states of the second pass traceable. -/
theorem dispatch_traces (sensible : Sensible ids0 vals0 bounds) (starts : Starts start)
    {branchless : Bool} (pass : start.pass = passKernelThreadspace branchless)
    (admitted : Admitted vals0 mappings (bounds.map (boundExtent vals0)))
    (computed : forwards host vals0 mappings (bounds.map (boundExtent vals0)) = some outer) :
    ∃ res code, dispatch bounds start mappings = some res ∧ Follows start res.toShared ∧
      Tidy ids0 vals0 res.toShared res.axes ∧ res.out = start.out ++ code ∧
      ∀ frame, Going vals0 frame → ∃ after, run device frame code = some after ∧
        Clears start frame after ∧ Traces ids0 vals0 start bounds after.vals mappings res outer := by
  induction mappings generalizing outer with
  | nil =>
      cases computed
      obtain ⟨res, generated, -, -, follows, tidy, code, printed, computes⟩ :=
        compGen_kernel sensible starts (by rw [pass]; rfl) (by rw [pass]; rfl)
      refine ⟨res, code, generated, follows, tidy, printed, fun frame going => ?_⟩
      obtain ⟨after, ran, extents, clears⟩ := computes frame going
      exact ⟨after, ran, clears, Traces.gen generated ⟨follows, tidy, extents⟩⟩
  | cons mapping inner ih =>
      obtain ⟨innerAdmitted, checked, asserted⟩ := admitted
      obtain ⟨extents, first, computed⟩ := Option.bind_eq_some_iff.mp computed
      obtain ⟨before, code, dispatched, follows, tidy, printed, computes⟩ := ih innerAdmitted first
      have preserving : before.pass.valConsume = false := by rw [follows.pass, pass]; rfl
      have preserve : before.pass.valPreserve = true := by rw [follows.pass, pass]; rfl
      -- the extents that any run computes tell that the mapping is possible
      obtain ⟨anywhere, _, _, traces⟩ := computes (someFrame vals0) ⟨rfl, fun name => rfl⟩
      have same := traces.stage.extents
      obtain ⟨res, compiled⟩ := comp_of_asserted checked (by rw [follows.pass, pass]; rfl)
        preserving (same ▸ asserted extents first) (same ▸ computed)
      have block := comp_block device_exact tidy preserving checked compiled
      obtain ⟨code', printed', computes'⟩ := block.runs
      refine ⟨res, code ++ code', by simp [dispatch, dispatched, compiled],
        follows.trans block.follows, block.tidy, by rw [printed', printed, List.append_assoc],
        fun frame going => ?_⟩
      obtain ⟨middle, ran, clears, traces⟩ := computes frame going
      have there := computes' middle (clears.keeps.going not_made_named going)
      rw [traces.stage.extents, host_below_device.forward computed] at there
      obtain ⟨after, ran', extents', keeps⟩ := there
      refine ⟨after, by rw [run_append, ran, Option.bind_some, ran'],
        clears.later starts tidy keeps, ?_⟩
      exact Traces.step (traces.keeps preserve tidy.helpers le_rfl keeps) checked compiled computed
        block.follows.next ⟨follows.trans block.follows, block.tidy, extents'⟩

end Traces

section Thirds

variable {ids0 : List Var} {ret : Option Var} {vals0 vals1 : Var → Int} {bounds : List Bound}
  {start : Shared} {res h : GpuKernelRes} {mappings : List Mapping} {outer : List Extent}

/-- A third pass that takes over where the second has ended -/
def takenOver (ret : Option Var) (res : GpuKernelRes) : GpuKernelRes :=
  { res with pass := passKernelWlids ret.isSome, returnCollector := ret }

theorem takenOver_consumes (ret : Option Var) (res : GpuKernelRes) :
    Consumes ret (takenOver ret res).toShared :=
  ⟨rfl, rfl, rfl, rfl, fun _ => rfl⟩

theorem Traces.preserving {branchless : Bool} (setting : Setting ids0 ret)
    (same : ∀ name, vals1 (.named name) = vals0 (.named name))
    (pass : start.pass = passKernelThreadspace branchless)
    (traces : Traces ids0 vals0 start bounds vals1 mappings res outer) :
    Preserving ids0 ret vals0 vals1 res where
  setting := setting
  same := same
  preserve := by rw [traces.stage.follows.pass, pass]; rfl
  consumed := by rw [traces.stage.follows.pass, pass]; rfl
  compute := by rw [traces.stage.follows.pass, pass]; rfl
  tidy := traces.stage.tidy

theorem Sensible.setting (sensible : Sensible ids0 vals0 bounds) (starts : Starts start) :
    Setting ids0 start.returnCollector :=
  ⟨sensible.named, starts.collector⟩

/-- The state at the generator has the index variables of the program. -/
theorem gen_indexed (sensible : Sensible ids0 vals0 bounds) (starts : Starts start)
    {branchless : Bool} (pass : start.pass = passKernelThreadspace branchless)
    (compiled : compGen bounds start = some res) :
    Indexed ids0 res.toShared res.axes ids0 ∧ res.toStacks = start.toStacks := by
  obtain ⟨res', generated, stacksEq, names, -⟩ := @compGen_kernel device _ _ _ sensible _ starts
    (by rw [pass]; rfl) (by rw [pass]; rfl)
  cases compiled.symm.trans generated
  have none : res.idxAt = [] := by rw [stacksEq, starts.stacksEmpty]
  refine ⟨⟨names, ?_, ?_, ?_⟩, stacksEq⟩
  · rw [none, List.append_nil]
    exact sensible.distinct
  · rw [none, List.append_nil]
    exact fun v member => Or.inl member
  · intro n member
    rw [none, List.append_nil] at member
    obtain ⟨name, same⟩ := sensible.named _ member
    cases same

theorem Traces.indexed {branchless : Bool} (sensible : Sensible ids0 vals0 bounds)
    (starts : Starts start) (pass : start.pass = passKernelThreadspace branchless)
    (same : ∀ name, vals1 (.named name) = vals0 (.named name))
    (traces : Traces ids0 vals0 start bounds vals1 mappings res outer) :
    ∃ ids, Indexed ids0 res.toShared res.axes ids := by
  induction traces with
  | gen compiled stage => exact ⟨ids0, (gen_indexed sensible starts pass compiled).1⟩
  | @step mapping inner res res' before after earlier checked compiled computed next stage ih =>
      obtain ⟨ids, indexed⟩ := ih
      obtain ⟨ids', -, indexed', -⟩ := compInv_undone (h := takenOver start.returnCollector res')
        ⟨earlier.preserving (sensible.setting starts) same pass, checked, compiled, indexed,
          takenOver_consumes _ _, rfl, rfl⟩
      exact ⟨ids', indexed'⟩

theorem Indexed.unique {gkr : Shared} {axes : List Axis} {ids ids' : List Var}
    (indexed : Indexed ids0 gkr axes ids) (indexed' : Indexed ids0 gkr axes ids') : ids = ids' :=
  List.map_injective_iff.mpr (Option.some_injective _) (indexed.names.symm.trans indexed'.names)

/-- The third pass takes the names back to those of the generator, and its code the
indices to those of the generator. -/
theorem dispatchInv_undoes {branchless : Bool} (sensible : Sensible ids0 vals0 bounds)
    (starts : Starts start) (pass : start.pass = passKernelThreadspace branchless)
    (same : ∀ name, vals1 (.named name) = vals0 (.named name))
    (traces : Traces ids0 vals0 start bounds vals1 mappings res outer)
    (consumes : Consumes start.returnCollector h.toShared) (kept : h.toStacks = res.toStacks)
    (axes : h.axes = res.axes) :
    ∃ ids code final, Indexed ids0 res.toShared res.axes ids ∧
      dispatchInv h mappings = compInvGen final ∧
      final.toShared = restored h.toShared start code ∧ final.axes.map (·.idx) = ids0.map some ∧
      Undoes ids0 start.returnCollector vals1 ids
        (backs vals0 mappings (bounds.map (boundExtent vals0))) ids0 code := by
  induction traces generalizing h with
  | @gen res compiled stage =>
      obtain ⟨indexed, stacksEq⟩ := gen_indexed sensible starts pass compiled
      refine ⟨ids0, [], h, indexed, rfl, ?_, axes ▸ indexed.names, Undoes.nil fun vals => rfl⟩
      rw [restored, ← stacksEq, ← kept, List.append_nil]
  | @step mapping inner res res' before after earlier checked compiled computed next stage ih =>
      obtain ⟨ids, indexed⟩ := earlier.indexed sensible starts pass same
      obtain ⟨ids', code, indexed', inverted, undoes⟩ := compInv_undone
        ⟨earlier.preserving (sensible.setting starts) same pass, checked, compiled, indexed,
          consumes, kept, axes⟩
      obtain ⟨ids'', code', final, indexed'', dispatched, shared, names, undoes'⟩ :=
        ih (h := { restored h.toShared res.toShared code with axes := res.axes })
          (consumes.restored _ _) rfl rfl
      obtain rfl := Indexed.unique indexed indexed''
      refine ⟨ids', code ++ code', final, indexed', ?_, ?_, names, ?_⟩
      · rw [dispatchInv, inverted, Option.bind_eq_bind, Option.bind_some, dispatched]
      · rw [shared, restored_restored]
      · refine (undoes.comp undoes').congr fun vector _ => ?_
        rw [backs, earlier.computed, earlier.stage.extents]
        rfl

end Thirds

end Sac2c.KernelPasses
