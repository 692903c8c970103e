import Sac2c.KernelPasses

/-!
The launch of a kernel. GridBlock makes the upper bounds of the dimensions the grid
and the block, the x axis last, and the kernel starts from the coordinates of its
thread. Each index of the generator is then computed by exactly one thread, and no
thread computes anything else.
-/

namespace Sac2c.KernelCoverage

open GpuKernel ThreadSpaces PragmaSpaces Reindexing KernelBlocks MappingBlocks ReturnBlocks
  KernelPasses

section Threads

/-- The coordinates of a thread; those of missing axes are 0. -/
@[ext] structure Thread where
  blockIdx : Nat → Int
  threadIdx : Nat → Int

/-- The coordinates that a size for each axis launches; a missing size is 1. -/
def Inside (sizes : List Int) (coordinate : Nat → Int) : Prop :=
  ∀ xyz, 0 ≤ coordinate xyz ∧ coordinate xyz < sizes.getD xyz 1

def Launched (launch : Frame) (thread : Thread) : Prop :=
  Inside launch.grid thread.blockIdx ∧ Inside launch.block thread.threadIdx

/-- The coordinates of `count` axes in the order of the dimensions -/
def axisVector (count : Nat) (coordinate : Nat → Int) : List Int :=
  ((List.range count).map coordinate).reverse

/-- The indices that `GKCOcompInvGridBlock` starts from -/
def threadVector (gridDims dims : Nat) (thread : Thread) : List Int :=
  axisVector gridDims thread.blockIdx ++ axisVector (dims - gridDims) thread.threadIdx

def InRange (i size : Int) : Prop := 0 ≤ i ∧ i < size

theorem axisVector_inside {sizes : List Int} {coordinate : Nat → Int}
    (inside : Inside sizes.reverse coordinate) :
    List.Forall₂ InRange (axisVector sizes.length coordinate) sizes := by
  rw [← List.forall₂_reverse_iff, axisVector, List.reverse_reverse]
  refine List.forall₂_iff_get.mpr ⟨by simp, fun k lt lt' => ?_⟩
  have here := inside k
  rw [List.getD_eq_getElem _ _ lt'] at here
  simpa [InRange] using here

theorem inside_getD {sizes vector : List Int} (within : List.Forall₂ InRange vector sizes) :
    Inside sizes.reverse (fun xyz => vector.reverse.getD xyz 0) := by
  have backwards := List.forall₂_reverse_iff.mpr within
  intro xyz
  dsimp only
  rcases lt_or_ge xyz sizes.length with lt | beyond
  · have lt' : xyz < sizes.reverse.length := by simpa using lt
    have lt'' : xyz < vector.reverse.length := by rw [backwards.length_eq]; exact lt'
    rw [List.getD_eq_getElem _ _ lt', List.getD_eq_getElem _ _ lt'']
    exact backwards.get lt'' lt'
  · have same := within.length_eq
    rw [List.getD_eq_default vector.reverse _ (by rw [List.length_reverse]; omega),
      List.getD_eq_default sizes.reverse _ (by simpa using beyond)]
    exact ⟨le_rfl, one_pos⟩

theorem axisVector_getD {count : Nat} {vector : List Int} (full : vector.length = count) :
    axisVector count (fun xyz => vector.reverse.getD xyz 0) = vector := by
  rw [axisVector, List.reverse_eq_iff]
  refine List.ext_getElem (by simp [full]) fun k lt lt' => ?_
  rw [List.getElem_map, List.getElem_range, List.getD_eq_getElem _ _ lt']

theorem getD_axisVector {sizes : List Int} {coordinate : Nat → Int}
    (inside : Inside sizes.reverse coordinate) :
    (fun xyz => (axisVector sizes.length coordinate).reverse.getD xyz 0) = coordinate := by
  funext xyz
  rw [axisVector, List.reverse_reverse]
  rcases lt_or_ge xyz sizes.length with lt | beyond
  · rw [List.getD_eq_getElem _ _ (by simpa using lt)]
    simp
  · have here := inside xyz
    rw [List.getD_eq_default _ _ (by simpa using beyond)] at here
    rw [List.getD_eq_default _ _ (by simpa using beyond)]
    omega

/-- The launched threads are the vectors below the sizes. -/
theorem threads_exact (gridDims : Nat) (sizes : List Int) (few : gridDims ≤ sizes.length)
    (launched : Thread → Prop)
    (launches : ∀ thread, launched thread ↔ Inside (sizes.take gridDims).reverse thread.blockIdx ∧
      Inside (sizes.drop gridDims).reverse thread.threadIdx) :
    Reindexes launched (fun thread => some (threadVector gridDims sizes.length thread))
      (fun vector => List.Forall₂ InRange vector sizes) := by
  have grid : (sizes.take gridDims).length = gridDims := by simpa using few
  have block : (sizes.drop gridDims).length = sizes.length - gridDims := List.length_drop ..
  refine Reindexes.of_inverse (fun vector =>
    ⟨fun xyz => (vector.take gridDims).reverse.getD xyz 0,
      fun xyz => (vector.drop gridDims).reverse.getD xyz 0⟩) ?_ ?_ ?_ ?_
  · intro thread inside
    obtain ⟨inGrid, inBlock⟩ := (launches thread).mp inside
    have first := axisVector_inside inGrid
    have second := axisVector_inside inBlock
    rw [grid] at first
    rw [block] at second
    have whole := List.rel_append first second
    simp only [List.take_append_drop] at whole
    exact whole
  · intro vector within
    exact (launches _).mpr ⟨inside_getD (List.forall₂_take gridDims within),
      inside_getD (List.forall₂_drop gridDims within)⟩
  · intro vector within
    have same : vector.length = sizes.length := within.length_eq
    simp only [threadVector]
    rw [axisVector_getD (by rw [List.length_take]; omega),
      axisVector_getD (by rw [List.length_drop]; omega), List.take_append_drop]
  · intro thread inside
    obtain ⟨inGrid, inBlock⟩ := (launches thread).mp inside
    have count : (axisVector gridDims thread.blockIdx).length = gridDims := by simp [axisVector]
    have first := getD_axisVector inGrid
    have second := getD_axisVector inBlock
    rw [grid] at first
    rw [block] at second
    ext xyz
    · simp only [threadVector, List.take_left' count]
      exact congrFun first xyz
    · simp only [threadVector, List.drop_left' count]
      exact congrFun second xyz

end Threads

section Coordinates

variable {ids0 : List Var} {ret : Option Var} {vals1 : Var → Int}

/-- The coordinates are read, one after another, into the index variables. -/
theorem redefines_spec (coordinate : Nat → Coordinate) (xyz : Nat) {axes : List Axis}
    {ids : List Var} (names : axes.map (·.idx) = ids.map some) (distinct : ids.Nodup) :
    ∃ code, redefines coordinate xyz axes = some code ∧ ∀ frame, frame.returned = false →
      ∃ after, run device frame code = some after ∧ Keeps (· ∈ ids) frame after ∧
        ids.map after.vals =
          (List.range' xyz ids.length).map fun k => (coordinate k).read frame := by
  induction ids generalizing xyz axes with
  | nil =>
      rw [List.map_nil, List.map_eq_nil_iff] at names
      subst names
      exact ⟨[], rfl, fun frame _ => ⟨frame, rfl, Keeps.refl _ _, rfl⟩⟩
  | cons id ids ih =>
      obtain ⟨axis, rest, rfl, idx, restNames⟩ := List.map_eq_cons_iff.mp names
      obtain ⟨fresh, distinct⟩ := List.nodup_cons.mp distinct
      obtain ⟨code, compiled, computes⟩ := ih (xyz + 1) restNames distinct
      refine ⟨code ++ [.opdRedefineCoordinate (coordinate xyz) id], ?_, fun frame going => ?_⟩
      · simp only [redefines, compiled, idx, Option.bind_eq_bind, Option.bind_some]
      · obtain ⟨middle, ran, keeps, values⟩ := computes frame going
        have going' : middle.returned = false := keeps.returned.trans going
        have wrote := set_keeps middle id ((coordinate xyz).read middle)
        have readSame : (coordinate xyz).read middle = (coordinate xyz).read frame := by
          cases coordinate xyz with
          | blockIdx k => exact congrFun keeps.blockIdx k
          | threadIdx k => exact congrFun keeps.threadIdx k
        refine ⟨_, by rw [run_append, ran, Option.bind_some, run_one going']; rfl, ?_, ?_⟩
        · refine (keeps.weaken fun v member => List.mem_cons_of_mem _ member).trans
            (wrote.weaken ?_)
          rintro v rfl
          exact List.mem_cons_self ..
        · have others : ids.map (middle.set id ((coordinate xyz).read middle)).vals =
              ids.map middle.vals :=
            List.map_congr_left fun v member => wrote.vals v fun same => fresh (same ▸ member)
          have own : (middle.set id ((coordinate xyz).read middle)).vals id =
              (coordinate xyz).read frame := (Function.update_self ..).trans readSame
          rw [List.map_cons, others, own, values, List.length_cons, List.range'_succ, List.map_cons]

/-- `GKCOcompInvGridBlock`: the thread begins with its coordinates. -/
theorem compInvGridBlock_spec (gridDims : Nat) {h : GpuKernelRes} {ids : List Var}
    (names : h.axes.map (·.idx) = ids.map some) (distinct : ids.Nodup)
    (few : gridDims ≤ ids.length) :
    ∃ code, compInvGridBlock gridDims h = some { h with out := h.out ++ code } ∧
      ∀ frame, frame.returned = false → ∃ after, run device frame code = some after ∧
        Keeps (· ∈ ids) frame after ∧
        ids.map after.vals =
          threadVector gridDims ids.length ⟨frame.blockIdx, frame.threadIdx⟩ := by
  have blockNames : (h.axes.drop gridDims).reverse.map (·.idx) =
      (ids.drop gridDims).reverse.map some := by
    rw [List.map_reverse, List.map_drop, names, ← List.map_drop, ← List.map_reverse]
  have gridNames : (h.axes.take gridDims).reverse.map (·.idx) =
      (ids.take gridDims).reverse.map some := by
    rw [List.map_reverse, List.map_take, names, ← List.map_take, ← List.map_reverse]
  have parts : (ids.take gridDims ++ ids.drop gridDims).Nodup := by rwa [List.take_append_drop]
  obtain ⟨gridDistinct, blockDistinct, apart⟩ := List.nodup_append.mp parts
  obtain ⟨block, blockCompiled, blockRuns⟩ := redefines_spec .threadIdx 0 blockNames
    (List.nodup_reverse.mpr blockDistinct)
  obtain ⟨grid, gridCompiled, gridRuns⟩ := redefines_spec .blockIdx 0 gridNames
    (List.nodup_reverse.mpr gridDistinct)
  refine ⟨block ++ grid, ?_, fun frame going => ?_⟩
  · simp only [compInvGridBlock, blockCompiled, gridCompiled, Option.bind_eq_bind,
      Option.bind_some, List.append_assoc]
  · obtain ⟨middle, ran, keeps, values⟩ := blockRuns frame going
    obtain ⟨after, ran', keeps', values'⟩ := gridRuns middle (keeps.returned.trans going)
    refine ⟨after, by rw [run_append, ran, Option.bind_some, ran'], ?_, ?_⟩
    · refine (keeps.weaken fun v member => ?_).trans (keeps'.weaken fun v member => ?_)
      · exact List.mem_of_mem_drop (List.mem_reverse.mp member)
      · exact List.mem_of_mem_take (List.mem_reverse.mp member)
    · have stays : (ids.drop gridDims).map after.vals = (ids.drop gridDims).map middle.vals :=
        List.map_congr_left fun v member => keeps'.vals v fun inGrid =>
          apart v (List.mem_reverse.mp inGrid) v member rfl
      have gridValues : (ids.take gridDims).map after.vals = axisVector gridDims frame.blockIdx := by
        rw [List.map_reverse, List.reverse_eq_iff] at values'
        rw [values', axisVector, List.length_reverse, List.length_take, min_eq_left few,
          ← List.range_eq_range']
        refine congrArg List.reverse (List.map_congr_left fun k _ => ?_)
        exact congrFun keeps.blockIdx k
      have blockValues : (ids.drop gridDims).map after.vals =
          axisVector (ids.length - gridDims) frame.threadIdx := by
        rw [stays]
        rw [List.map_reverse, List.reverse_eq_iff] at values
        rw [values, axisVector, List.length_reverse, List.length_drop, ← List.range_eq_range']
        rfl
      rw [← List.take_append_drop gridDims ids, List.map_append, gridValues, blockValues,
        List.take_append_drop, threadVector]

end Coordinates

section Vectors

variable {ids0 : List Var} {ret : Option Var}

/-- The definitions of the index vector, its last entry first -/
theorem defIvs_spec (dim : Nat) {axes : List Axis} {ids : List Var}
    (names : axes.map (·.idx) = ids.map some) :
    ∃ code, defIvs dim axes = some code ∧ ∀ frame, frame.returned = false →
      ∃ after, run device frame code = some after ∧ after.returned = false ∧
        after.vals = frame.vals ∧ (∀ k < dim, after.iv k = frame.iv k) ∧
        (List.range' dim ids.length).map after.iv = ids.map frame.vals := by
  induction ids generalizing dim axes with
  | nil =>
      rw [List.map_nil, List.map_eq_nil_iff] at names
      subst names
      exact ⟨[], rfl, fun frame going => ⟨frame, rfl, going, rfl, fun _ _ => rfl, rfl⟩⟩
  | cons id ids ih =>
      obtain ⟨axis, rest, rfl, idx, restNames⟩ := List.map_eq_cons_iff.mp names
      obtain ⟨code, compiled, computes⟩ := ih (dim + 1) restNames
      refine ⟨code ++ [.defIv dim id], ?_, fun frame going => ?_⟩
      · simp only [defIvs, compiled, idx, Option.bind_eq_bind, Option.bind_some]
      · obtain ⟨middle, ran, going', same, below, values⟩ := computes frame going
        refine ⟨{ middle with iv := Function.update middle.iv dim (middle.vals id) },
          by rw [run_append, ran, Option.bind_some, run_one going']; rfl, going', same,
          fun k lt => ?_, ?_⟩
        · exact (Function.update_of_ne lt.ne _ _).trans (below k (Nat.lt_succ_of_lt lt))
        · rw [List.length_cons, List.range'_succ, List.map_cons, List.map_cons, ← values]
          refine congrArg₂ List.cons ?_ (List.map_congr_left fun k member => ?_)
          · exact (Function.update_self ..).trans (congrFun same id)
          · have later := (List.mem_range'_1.mp member).1
            exact Function.update_of_ne (by omega) _ _

/-- `GKCOcompInvGen`: who is alive has its index vector, who is gone returns. -/
theorem compInvGen_spec {final : GpuKernelRes} (consumes : Consumes ret final.toShared)
    (names : final.axes.map (·.idx) = ids0.map some) :
    ∃ code, compInvGen final = some { final with out := final.out ++ code } ∧
      (∀ frame, Alive ret frame → ∃ after, run device frame code = some after ∧
        after.returned = false ∧ (List.range ids0.length).map after.iv = ids0.map frame.vals) ∧
      ∀ frame, Gone ret frame → ∃ after, run device frame code = some after ∧
        after.returned = true := by
  obtain ⟨ivs, compiled, computes⟩ := defIvs_spec 0 names
  rw [← List.range_eq_range'] at computes
  have branchless := consumes.branchless
  cases ret with
  | none =>
      refine ⟨ivs, ?_, fun frame alive => ?_, fun frame gone => ?_⟩
      · have off : final.pass.branchless = false := branchless
        simp only [compInvGen, off, Bool.false_eq_true, if_false, compiled, Option.bind_eq_bind,
          Option.bind_some]
      · obtain ⟨after, ran, going, -, -, values⟩ := computes frame alive.1
        exact ⟨after, ran, going, values⟩
      · rcases gone with returned | ⟨r, none, -⟩
        · exact ⟨frame, run_returned returned, returned⟩
        · cases none
  | some r =>
      refine ⟨.returnIfCollected r :: ivs, ?_, fun frame alive => ?_, fun frame gone => ?_⟩
      · have on : final.pass.branchless = true := branchless
        have collects := consumes.collector rfl
        simp only [compInvGen, on, if_true, collects, Option.map_some, compiled,
          Option.bind_eq_bind, Option.bind_some, Shared.emit, List.append_assoc,
          List.singleton_append]
      · have zero := alive.2 r rfl
        obtain ⟨after, ran, going, -, -, values⟩ := computes frame alive.1
        refine ⟨after, ?_, going, values⟩
        rw [run_cons alive.1]
        simpa [Icm.exec, zero] using ran
      · rcases gone with returned | ⟨r', same, set⟩
        · exact ⟨frame, run_returned returned, returned⟩
        · cases same
          cases done : frame.returned with
          | true => exact ⟨frame, run_returned done, done⟩
          | false =>
              refine ⟨{ frame with returned := true }, ?_, rfl⟩
              rw [run_cons done]
              simp [Icm.exec, set, run_returned]

end Vectors

section Launches

variable {ids0 : List Var} {vals0 : Var → Int} {bounds : List Bound} {config : Config}
  {pragma : Pragma} {outer : List Extent}

/-- The sizes that GridBlock writes for some of the axes, x first -/
theorem getD_sizes (dims : List Opd) (vals : Var → Int) (xyz : Nat) :
    ((if dims.reverse.isEmpty then [constOne] else dims.reverse).map (·.eval vals)).getD xyz 1 =
      (dims.map (·.eval vals)).reverse.getD xyz 1 := by
  cases dims with
  | nil => cases xyz <;> rfl
  | cons dim dims => simp [← List.map_reverse]

/-- What the pragma comes to on the host -/
structure Planned (vals0 : Var → Int) (bounds : List Bound) (pragma : Pragma)
    (outer : List Extent) : Prop where
  admitted : Admitted vals0 pragma.inner (bounds.map (boundExtent vals0))
  computed : forwards host vals0 pragma.inner (bounds.map (boundExtent vals0)) = some outer
  normalized : ∀ e ∈ outer, e.lb = constZero
  few : pragma.gridDims ≤ outer.length

/-- The host code computes the extents and launches a thread for each of their indices. -/
theorem host_launch (sensible : Sensible ids0 vals0 bounds) {next : Nat} {code : List Icm}
    (checked : ∀ m ∈ pragma.inner, m.checkArgs = true)
    (compiled : compHostKernelPragma config pragma bounds next = some code)
    {frame launch : Frame} (going : Going vals0 frame) (ran : run host frame code = some launch) :
    ∃ outer, Planned vals0 bounds pragma outer ∧
      ∀ thread, Launched launch thread ↔
        Inside ((outer.map (·.ub)).take pragma.gridDims).reverse thread.blockIdx ∧
        Inside ((outer.map (·.ub)).drop pragma.gridDims).reverse thread.threadIdx := by
  have starts := makeGpuKernelRes_starts passHost next
  have isHost := makeGpuKernelRes_pass passHost next
  have silent (code : List Icm) :
      run host frame ((makeGpuKernelRes passHost next).out ++ code) = run host frame code :=
    makeGpuKernelRes_silent passHost next frame code
  unfold compHostKernelPragma at compiled
  generalize makeGpuKernelRes passHost next = start at *
  obtain ⟨res, dispatched, rest⟩ := Option.bind_eq_some_iff.mp compiled
  obtain ⟨res', gridded, equal⟩ := Option.bind_eq_some_iff.mp rest
  cases equal
  obtain ⟨built, admitted⟩ := host_admitted sensible starts isHost checked dispatched
  have hostPass : res.pass = passHost := built.follows.pass.trans isHost
  have checks : res.pass.checkPragma = true := by rw [hostPass]; rfl
  have emits : res.pass.gbEmit = true := by rw [hostPass]; rfl
  simp only [compGridBlock, checks, emits, if_true] at gridded
  obtain ⟨_, normalized, gridded⟩ := Option.bind_eq_some_iff.mp gridded
  obtain ⟨_, settings, equal⟩ := Option.bind_eq_some_iff.mp gridded
  cases equal
  have few := (checkDimensionSettings_eq_some.mp settings).2.1
  obtain ⟨code, printed, computes⟩ := built.runs
  have here := computes frame going
  simp only [Shared.emit, printed, List.append_assoc, silent] at ran
  rw [run_append] at ran
  cases planned : forwards host vals0 pragma.inner (bounds.map (boundExtent vals0)) with
  | none =>
      rw [planned] at here
      rw [show run host frame code = none from here] at ran
      cases ran
  | some outer =>
      rw [planned] at here
      obtain ⟨middle, ranCode, extents, clears⟩ := here
      have going' := clears.keeps.going not_made_named going
      have zero := forM_normalized.mp normalized
      have sizes : (res.axes.map (·.ub)).map (·.eval middle.vals) = outer.map (·.ub) := by
        rw [← extents, List.map_map, List.map_map]
        rfl
      have count : res.axes.length = outer.length := by
        simpa using congrArg List.length extents
      rw [ranCode, Option.bind_some, List.singleton_append, run_cons going'.going] at ran
      simp only [Icm.exec, Option.bind_some] at ran
      rw [run_one (by exact going'.going)] at ran
      simp only [Icm.exec, Option.some.injEq] at ran
      subst ran
      refine ⟨outer, ⟨admitted, planned, ?_, count ▸ few⟩, fun thread => ?_⟩
      · intro e member
        rw [← extents] at member
        obtain ⟨a, inAxes, rfl⟩ := List.mem_map.mp member
        exact zero a inAxes
      · have grid (xyz : Nat) := getD_sizes ((res.axes.map (·.ub)).take pragma.gridDims)
          middle.vals xyz
        have block (xyz : Nat) := getD_sizes ((res.axes.map (·.ub)).drop pragma.gridDims)
          middle.vals xyz
        simp only [List.map_take, sizes] at grid
        simp only [List.map_drop, sizes] at block
        simp only [Launched, Inside, grid, block]

/-- A frame in which a thread enters the kernel -/
structure Enters (vals0 : Var → Int) (thread : Thread) (frame : Frame) : Prop where
  going : Going vals0 frame
  blockIdx : frame.blockIdx = thread.blockIdx
  threadIdx : frame.threadIdx = thread.threadIdx

/-- The thread computes its index vector, or returns. -/
def Ended (dims : Nat) (after : Frame) : Option (List Int) → Prop
  | some vector => after.returned = false ∧ (List.range dims).map after.iv = vector
  | none => after.returned = true

/-- The kernel is compiled, the pragma's stacks come out even, and a thread ends
with the index that its coordinates go back to. -/
theorem kernel_ends (config : Config) (sensible : Sensible ids0 vals0 bounds)
    (planned : Planned vals0 bounds pragma outer) (branchless : Bool) (next : Nat)
    {thread : Thread} {frame : Frame} (enters : Enters vals0 thread frame) :
    ∃ res, compGpudKernelPragma config branchless pragma bounds next = some res ∧
      checkGpuKernelRes bounds res ∧ ∃ after, run device frame res.out = some after ∧
        Ended bounds.length after (backs vals0 pragma.inner (bounds.map (boundExtent vals0))
          (threadVector pragma.gridDims outer.length thread)) := by
  have starts := makeGpuKernelRes_starts (passKernelThreadspace branchless) next
  have pass := makeGpuKernelRes_pass (passKernelThreadspace branchless) next
  have silent (code : List Icm) : run device frame
      ((makeGpuKernelRes (passKernelThreadspace branchless) next).out ++ code) =
        run device frame code :=
    makeGpuKernelRes_silent _ next frame code
  unfold compGpudKernelPragma
  generalize makeGpuKernelRes (passKernelThreadspace branchless) next = start at *
  have setting := sensible.setting starts
  obtain ⟨res, code, dispatched, follows, -, printed, computes⟩ :=
    dispatch_traces sensible starts pass planned.admitted planned.computed
  obtain ⟨middle, ran, ⟨keeps, cleared⟩, traces⟩ := computes frame enters.going
  have going := keeps.going not_made_named enters.going
  have collects : branchless = start.returnCollector.isSome := by
    rw [← starts.branchless, pass]
    rfl
  have takesOver : { res with pass := passKernelWlids branchless } =
      takenOver start.returnCollector res := by
    rw [takenOver, ← collects, ← follows.collector]
  have zero : ∀ a ∈ res.axes, a.lb = constZero := by
    intro a member
    exact planned.normalized _ (traces.stage.extents ▸ List.mem_map_of_mem member)
  have gridded : compGridBlock config pragma.gridDims res = some res := by
    have emits : res.pass.gbEmit = false := by rw [follows.pass, pass]; rfl
    have checks : res.pass.checkPragma = false := by rw [follows.pass, pass]; rfl
    simp [compGridBlock, forM_normalized.mpr zero, emits, checks]
  -- the third pass
  obtain ⟨ids, indexed⟩ := traces.indexed sensible starts pass going.named
  have distinct : ids.Nodup := indexed.distinct.sublist (by simp)
  have count : ids.length = outer.length := by
    rw [← traces.stage.extents]
    simpa using (congrArg List.length indexed.names).symm
  let taken := takenOver start.returnCollector res
  have consumes : Consumes start.returnCollector taken.toShared := takenOver_consumes _ _
  obtain ⟨codeBlock, blockInverted, blockRuns⟩ := compInvGridBlock_spec pragma.gridDims
    (h := taken) indexed.names distinct (by rw [count]; exact planned.few)
  obtain ⟨ids', codeInv, final, indexed', inverted, shared, names, undoes⟩ :=
    dispatchInv_undoes (h := { taken with out := taken.out ++ codeBlock }) sensible starts pass
      going.named traces ⟨rfl, rfl, rfl, rfl, fun _ => rfl⟩ rfl rfl
  obtain rfl := Indexed.unique indexed indexed'
  have finalConsumes : Consumes start.returnCollector final.toShared :=
    shared ▸ ⟨rfl, rfl, rfl, rfl, fun _ => rfl⟩
  obtain ⟨codeGen, generated, computed, returned⟩ := compInvGen_spec finalConsumes names
  have dims : ids0.length = bounds.length := by rw [← sensible.ids, List.length_map]
  refine ⟨{ final with out := final.out ++ codeGen }, ?_, ?_, ?_⟩
  · simp only [dispatched, gridded, Option.bind_eq_bind, Option.bind_some, takesOver]
    rw [blockInverted, Option.bind_some, inverted, generated]
  · have empty : final.toStacks = ⟨[], [], [], [], []⟩ :=
      (congrArg Shared.toStacks shared).trans starts.stacksEmpty
    refine ⟨?_, ?_, ?_⟩
    · simpa [dims] using congrArg List.length names
    · rw [names, ← sensible.ids, List.map_map]
      rfl
    · simp only [empty, and_self]
  · have isIdx (v : Var) (member : v ∈ ids) : IdxVar ids0 v := indexed.isIdx v (by simp [member])
    obtain ⟨placed, ranBlock, keepsBlock, values⟩ := blockRuns middle going.going
    have agrees : Agrees ids0 start.returnCollector middle.vals placed :=
      ⟨fun var notIdx _ => keepsBlock.vals var fun member => notIdx (isIdx var member)⟩
    have alive : Alive start.returnCollector placed := by
      refine ⟨keepsBlock.returned.trans going.going, fun r isRet => ?_⟩
      rw [keepsBlock.vals r fun member => setting.notRet (isIdx r member) isRet]
      exact cleared r isRet
    obtain ⟨undone, ranInv, -, landed⟩ := undoes.lands placed agrees alive
    have sameThread : (⟨middle.blockIdx, middle.threadIdx⟩ : Thread) = thread := by
      ext xyz
      · exact congrFun (keeps.blockIdx.trans enters.blockIdx) xyz
      · exact congrFun (keeps.threadIdx.trans enters.threadIdx) xyz
    rw [values, sameThread, count] at landed
    have whole (codeLast : List Icm) : run device frame ((final.out ++ codeLast)) =
        run device undone codeLast := by
      have printedAll : final.out = start.out ++ (code ++ (codeBlock ++ codeInv)) := by
        rw [shared]
        simp [restored, taken, takenOver, printed]
      rw [printedAll, List.append_assoc, silent, List.append_assoc, run_append, ran,
        Option.bind_some, List.append_assoc, run_append, ranBlock, Option.bind_some, run_append,
        ranInv, Option.bind_some]
    rw [← dims]
    cases result : backs vals0 pragma.inner (bounds.map (boundExtent vals0))
        (threadVector pragma.gridDims outer.length thread) with
    | none =>
        rw [result] at landed
        obtain ⟨after, ranGen, done⟩ := returned undone landed
        exact ⟨after, (whole codeGen).trans ranGen, done⟩
    | some vector =>
        rw [result] at landed
        obtain ⟨after, ranGen, goes, vectorEq⟩ := computed undone landed.1
        exact ⟨after, (whole codeGen).trans ranGen, goes, vectorEq.trans landed.2⟩

end Launches

section Coverage

/-- The index vectors of a with-loop generator -/
def generator (vals : Var → Int) (bounds : List Bound) : Set (List Int) :=
  space vals (bounds.map (boundExtent vals))

/-- The kernel computes this index vector. -/
def Computes (code : List Icm) (dims : Nat) (frame : Frame) (vector : List Int) : Prop :=
  ∃ after, run device frame code = some after ∧ after.returned = false ∧
    (List.range dims).map after.iv = vector

def Returns (code : List Icm) (frame : Frame) : Prop :=
  ∃ after, run device frame code = some after ∧ after.returned = true

theorem Ended.computes_iff {dims : Nat} {after frame : Frame} {result : Option (List Int)}
    {code : List Icm} (ended : Ended dims after result) (ran : run device frame code = some after)
    (vector : List Int) : Computes code dims frame vector ↔ result = some vector := by
  constructor
  · rintro ⟨after', ran', goes, rfl⟩
    cases ran.symm.trans ran'
    cases result with
    | none => cases goes.symm.trans ended
    | some vector => exact congrArg some ended.2.symm
  · rintro rfl
    exact ⟨after, ran, ended⟩

variable {ids0 : List Var} {vals0 : Var → Int} {bounds : List Bound} {config : Config}
  {pragma : Pragma}

/-- Dense extents from 0 on are the vectors below their upper bounds. -/
theorem space_dense {outer : List Extent} (normalized : ∀ e ∈ outer, e.lb = constZero)
    (dense : ∀ e ∈ outer, DenseExtent vals0 e) (sound : ∀ e ∈ outer, e.Sound vals0) :
    space vals0 outer = fun vector => List.Forall₂ InRange vector (outer.map (·.ub)) := by
  ext vector
  change List.Forall₂ (fun i axis => i ∈ axis) vector (outer.map (members vals0)) ↔
    List.Forall₂ InRange vector (outer.map (·.ub))
  induction outer generalizing vector with
  | nil => simp
  | cons e outer ih =>
      rw [List.forall_mem_cons] at normalized dense sound
      cases vector with
      | nil => simp
      | cons i vector =>
          rw [List.map_cons, List.map_cons, List.forall₂_cons, List.forall₂_cons,
            ih normalized.2 dense.2 sound.2, mem_dense normalized.1 dense.1 sound.1]
          rfl

/-- A strided generator up to `n`, split over the grid and the block -/
def strided : List Bound :=
  [⟨.num 0, .num 7, .num 1, .num 1, .named "i"⟩,
    ⟨.num 2, .read (.named "n"), .num 3, .num 2, .named "j"⟩]

def stridedPragma : Pragma :=
  ⟨1, [.permute [1, 2, 0], .splitLast 4, .compressGrid [true, true], .shiftLB]⟩

def elevenFor (var : Var) : Int := if var = .named "n" then 11 else 0

theorem strided_sensible : Sensible [.named "i", .named "j"] elevenFor strided where
  ids := rfl
  distinct := by decide
  named := by
    intro v member
    rcases List.mem_pair.mp member with rfl | rfl
    · exact ⟨_, rfl⟩
    · exact ⟨_, rfl⟩
  texts := by
    intro b member
    rcases List.mem_pair.mp member with rfl | rfl
    · exact ⟨program_num 0, program_num 7, program_num 1, program_num 1⟩
    · refine ⟨program_num 2, ?_, program_num 3, program_num 2⟩
      rintro var same
      cases same
      exact ⟨by decide, _, rfl⟩
  sound := by
    intro b member
    rcases List.mem_pair.mp member with rfl | rfl
    · exact ⟨by decide, by decide, by decide, by decide, by decide, by decide⟩
    · exact ⟨by decide, by decide, by decide, by decide, by decide, by decide⟩

/-- What the host prints for it -/
def stridedCode : List Icm :=
  (compHostKernelPragma ⟨3, 3⟩ stridedPragma strided 0).getD []

theorem stridedCode_runs : (run host (someFrame elevenFor) stridedCode).isSome = true := by
  decide +kernel

end Coverage

end Sac2c.KernelCoverage
