import Mathlib.Data.List.Basic
import Mathlib.Data.Int.Bitwise
import Mathlib.Logic.Function.Basic

/-!
The gpukernel pragma of the CUDA backend, as cuda/gpukernel_comp_funs.c compiles it
and the ICMs of runtime/cuda_h/cuda.h run it. A pragma is a nesting of mappings
around Gen. Three passes walk it. On the host the bounds of the generator become
the grid and the block; in the kernel the same bounds are recomputed in fresh
variables, the replaced names kept on stacks; the third pass goes the other way,
takes the names back from the stacks and turns the coordinates of a thread into
the index vector. Messages, traces and the variables' declarations have no effect
here. The ICMs of the host are run in int arithmetic that must not overflow; the
device wraps.
-/

namespace Sac2c.GpuKernel

inductive Postfix where
  | ub
  | idx
  | tmp
  | retCol
  deriving DecidableEq

/-- A name of the program, or one that `VarCreate` makes up. -/
inductive Var where
  | named (name : String)
  | gkco (number : Nat) (kind : Postfix)
  deriving DecidableEq

/-- The strings the mappings handle: a constant or the read of a variable. -/
inductive Opd where
  | num (value : Int)
  | read (var : Var)
  deriving DecidableEq

def constZero : Opd := .num 0
def constOne : Opd := .num 1

structure Pass where
  valPreserve : Bool
  valConsume : Bool
  idxCompute : Bool
  gbEmit : Bool
  checkPragma : Bool
  branchless : Bool

def passHost : Pass where
  valPreserve := false
  valConsume := false
  idxCompute := false
  gbEmit := true
  checkPragma := true
  branchless := false

def passKernelThreadspace (branchless : Bool) : Pass where
  valPreserve := true
  valConsume := false
  idxCompute := true
  gbEmit := false
  checkPragma := false
  branchless := branchless

def passKernelWlids (branchless : Bool) : Pass where
  valPreserve := false
  valConsume := true
  idxCompute := true
  gbEmit := false
  checkPragma := false
  branchless := branchless

/-- The coordinates of a thread; 0, 1 and 2 stand for x, y and z. -/
inductive Coordinate where
  | blockIdx (xyz : Nat)
  | threadIdx (xyz : Nat)
  deriving DecidableEq

inductive Icm where
  | opdDeclare (var : Var)
  | opdRedefine (source : Opd) (target : Var)
  | opdRedefineCoordinate (source : Coordinate) (target : Var)
  | returnColInit (retCol : Var)
  | pad (ubR ubW : Opd) (divisibility : Nat)
  | shiftLB (lb ubR ubW : Opd)
  | compressS (ubR ubW st : Opd)
  | compressSW (ubR ubW st wi : Opd) (tmp : Var)
  | compressSWBL (ubR ubW st wi : Opd) (tmpA tmpB : Var)
  | foldLast (ubMajR ubMajW ubMin : Opd)
  | splitLast (ubMajR ubMajW ubMin : Opd) (lenMin : Nat)
  | setGrid (dims : List Opd)
  | setBlock (dims : List Opd)
  | unstepwidth (lb st wi : Opd) (idx : Var)
  | unstepwidthBL (lb st wi : Opd) (idx retCol : Var)
  | unpad (ub : Opd) (idx : Var)
  | unpadBL (ub : Opd) (idx retCol : Var)
  | unshiftLB (lb : Opd) (idx : Var)
  | uncompressS (st : Opd) (idx : Var)
  | uncompressSW (st wi : Opd) (idx : Var)
  | unfoldLast (idxMaj idxMin : Var) (ubMin : Opd)
  | unsplitLast (idxMaj idxMin : Var) (lenMin : Nat)
  | returnIfCollected (retCol : Var)
  | defIv (dim : Nat) (id : Var)

/-- What `GPUKERNELRES` holds for one dimension. -/
structure Axis where
  lb : Opd
  ub : Opd
  st : Opd
  wi : Opd
  idx : Option Var
  deriving DecidableEq

/-- The stacks of replaced names, their top first -/
structure Stacks where
  lowerboundAt : List Opd
  upperboundAt : List Opd
  stepAt : List Opd
  widthAt : List Opd
  idxAt : List Var

/-- What `GPUKERNELRES` holds for all dimensions together: besides the stacks the
helper variables, the number of the next variable and the text printed. -/
structure Shared extends Stacks where
  pass : Pass
  helperA : Var
  helperB : Var
  returnCollector : Option Var
  next : Nat
  out : List Icm

structure GpuKernelRes extends Shared where
  axes : List Axis

section Helpers

def Shared.emit (gkr : Shared) (icm : Icm) : Shared :=
  { gkr with out := gkr.out ++ [icm] }

def varCreate (gkr : Shared) (kind : Postfix) : Var × Shared :=
  let var := .gkco gkr.next kind
  (var, { gkr with next := gkr.next + 1 }.emit (.opdDeclare var))

def makeGpuKernelRes (pass : Pass) (next : Nat) : Shared :=
  let start : Shared :=
    { pass := pass, lowerboundAt := [], upperboundAt := [], stepAt := [], widthAt := [],
      idxAt := [], helperA := .gkco next .tmp, helperB := .gkco next .tmp,
      returnCollector := none, next := next, out := [] }
  let (a, first) := varCreate start .tmp
  let (b, second) := varCreate first .tmp
  let withHelpers := { second with helperA := a, helperB := b }
  if pass.branchless then
    let (ret, third) := varCreate withHelpers .retCol
    { third with returnCollector := some ret }
  else withHelpers

/-- `GKR_UB_NEW`: where the next upper bound goes, kept apart if the old one is
still needed. -/
def newUpperboundVariable (gkr : Shared) (axis : Axis) : Opd × Shared :=
  if gkr.pass.valPreserve then
    let (var, gkr) := varCreate gkr .ub
    (.read var, gkr)
  else (axis.ub, gkr)

def Shared.pushLb (gkr : Shared) (lb : Opd) : Shared :=
  if gkr.pass.valPreserve then { gkr with lowerboundAt := lb :: gkr.lowerboundAt } else gkr

def Shared.pushUb (gkr : Shared) (ub : Opd) : Shared :=
  if gkr.pass.valPreserve then { gkr with upperboundAt := ub :: gkr.upperboundAt } else gkr

def Shared.pushSt (gkr : Shared) (st : Opd) : Shared :=
  if gkr.pass.valPreserve then { gkr with stepAt := st :: gkr.stepAt } else gkr

def Shared.pushWi (gkr : Shared) (wi : Opd) : Shared :=
  if gkr.pass.valPreserve then { gkr with widthAt := wi :: gkr.widthAt } else gkr

/-- A pop from an empty vector trips its assertion. -/
def Shared.popLb (gkr : Shared) (axis : Axis) : Option (Shared × Axis) :=
  if gkr.pass.valConsume then
    match gkr.lowerboundAt with
    | [] => none
    | lb :: rest => some ({ gkr with lowerboundAt := rest }, { axis with lb := lb })
  else some (gkr, axis)

def Shared.popUb (gkr : Shared) (axis : Axis) : Option (Shared × Axis) :=
  if gkr.pass.valConsume then
    match gkr.upperboundAt with
    | [] => none
    | ub :: rest => some ({ gkr with upperboundAt := rest }, { axis with ub := ub })
  else some (gkr, axis)

def Shared.popSt (gkr : Shared) (axis : Axis) : Option (Shared × Axis) :=
  if gkr.pass.valConsume then
    match gkr.stepAt with
    | [] => none
    | st :: rest => some ({ gkr with stepAt := rest }, { axis with st := st })
  else some (gkr, axis)

def Shared.popWi (gkr : Shared) (axis : Axis) : Option (Shared × Axis) :=
  if gkr.pass.valConsume then
    match gkr.widthAt with
    | [] => none
    | wi :: rest => some ({ gkr with widthAt := rest }, { axis with wi := wi })
  else some (gkr, axis)

def Shared.popId (gkr : Shared) (axis : Axis) : Option (Shared × Axis) :=
  if gkr.pass.valConsume then
    match gkr.idxAt with
    | [] => none
    | id :: rest => some ({ gkr with idxAt := rest }, { axis with idx := some id })
  else some (gkr, axis)

/-- `LOOP_DIMENSIONS` -/
def loopDimensions {α β : Type} (body : Shared → α → Option (Shared × β)) :
    Shared → List α → Option (Shared × List β)
  | gkr, [] => some (gkr, [])
  | gkr, a :: rest => do
      let (gkr, b) ← body gkr a
      let (gkr, bs) ← loopDimensions body gkr rest
      some (gkr, b :: bs)

/-- `LOOP_DIMENSIONS_INV` -/
def loopDimensionsInv {α β : Type} (body : Shared → α → Option (Shared × β)) :
    Shared → List α → Option (Shared × List β)
  | gkr, [] => some (gkr, [])
  | gkr, a :: rest => do
      let (gkr, bs) ← loopDimensionsInv body gkr rest
      let (gkr, b) ← body gkr a
      some (gkr, b :: bs)

/-- The last dimension and those before it. -/
def lastOne {α : Type} : List α → Option (List α × α)
  | [] => none
  | [a] => some ([], a)
  | a :: rest => (lastOne rest).map fun (front, last) => (a :: front, last)

/-- The two last dimensions and those before them. -/
def lastTwo {α : Type} : List α → Option (List α × α × α)
  | [] => none
  | [_] => none
  | [major, minor] => some ([], major, minor)
  | a :: rest => (lastTwo rest).map fun (front, major, minor) => (a :: front, major, minor)

theorem lastOne_eq_some {α : Type} {l front : List α} {last : α} :
    lastOne l = some (front, last) ↔ l = front ++ [last] := by
  constructor
  · intro split
    fun_induction lastOne l generalizing front with
    | case1 => cases split
    | case2 a => cases split; rfl
    | case3 a rest _ ih =>
        obtain ⟨⟨inner, _⟩, found, equal⟩ := Option.map_eq_some_iff.mp split
        cases equal
        rw [ih found, List.cons_append]
  · rintro rfl
    induction front with
    | nil => rfl
    | cons a front ih =>
        cases front with
        | nil => rfl
        | cons b front => simp only [List.cons_append, lastOne] at ih ⊢; rw [ih]; rfl

theorem lastTwo_eq_some {α : Type} {l front : List α} {major minor : α} :
    lastTwo l = some (front, major, minor) ↔ l = front ++ [major, minor] := by
  constructor
  · intro split
    fun_induction lastTwo l generalizing front with
    | case1 => cases split
    | case2 => cases split
    | case3 a b => cases split; rfl
    | case4 a rest _ _ ih =>
        obtain ⟨⟨inner, _, _⟩, found, equal⟩ := Option.map_eq_some_iff.mp split
        cases equal
        rw [ih found, List.cons_append]
  · rintro rfl
    induction front with
    | nil => rfl
    | cons a front ih =>
        rcases front with _ | ⟨b, _ | ⟨c, front⟩⟩
        · rfl
        · rfl
        · simp only [List.cons_append, lastTwo] at ih ⊢
          rw [ih]
          rfl

/-- `AddDimension` -/
def addDimension (gkr : Shared) : Option (Shared × Axis) :=
  if gkr.pass.valConsume then do
    let unset : Axis := ⟨constZero, constZero, constZero, constZero, none⟩
    let (gkr, axis) ← gkr.popLb unset
    let (gkr, axis) ← gkr.popUb axis
    let (gkr, axis) ← gkr.popSt axis
    let (gkr, axis) ← gkr.popWi axis
    if gkr.pass.idxCompute then gkr.popId axis else some (gkr, axis)
  else
    let (ub, gkr) := varCreate gkr .ub
    if gkr.pass.idxCompute then
      let (id, gkr) := varCreate gkr .idx
      some (gkr, ⟨constZero, .read ub, constOne, constOne, some id⟩)
    else some (gkr, ⟨constZero, .read ub, constOne, constOne, none⟩)

/-- `RemoveDimension`, given the dimension that is removed -/
def removeDimension (gkr : Shared) (axis : Axis) : Shared :=
  let gkr := (((gkr.pushLb axis.lb).pushUb axis.ub).pushSt axis.st).pushWi axis.wi
  if gkr.pass.valPreserve && gkr.pass.idxCompute then
    { gkr with idxAt := axis.idx.toList ++ gkr.idxAt }
  else gkr

/-- `GKCOcompAssertNormalized` -/
def assertNormalized (axis : Axis) : Option Unit :=
  if axis.lb = constZero then some () else none

/-- The assertion of the passes that check the pragma -/
def checkNormalized (gkr : Shared) (axis : Axis) : Option Unit :=
  if gkr.pass.checkPragma then assertNormalized axis else some ()

/-- `GKCOcompAssertDense` -/
def assertDense (axis : Axis) : Option Unit := do
  assertNormalized axis
  if axis.st = axis.wi then some () else none

end Helpers

section Mappings

/-- `GKCOcompPad` in the dimension given -/
def compPad (divisibility : Nat) (gkr : Shared) (axis : Axis) : Shared × Axis :=
  let gkr := gkr.pushUb axis.ub
  let (ubWrite, gkr) := newUpperboundVariable gkr axis
  (gkr.emit (.pad axis.ub ubWrite divisibility), { axis with ub := ubWrite })

def compInvPad (gkr : Shared) (axis : Axis) : Option (Shared × Axis) := do
  let (gkr, axis) ← gkr.popUb axis
  let id ← axis.idx
  if gkr.pass.branchless then
    let ret ← gkr.returnCollector
    some (gkr.emit (.unpadBL axis.ub id ret), axis)
  else some (gkr.emit (.unpad axis.ub id), axis)

/-- One dimension of `GKCOcompShiftLB` -/
def compShiftLBDim (gkr : Shared) (axis : Axis) : Option (Shared × Axis) :=
  let gkr := (gkr.pushLb axis.lb).pushUb axis.ub
  if axis.lb = constZero then some (gkr, axis)
  else
    let (ubWrite, gkr) := newUpperboundVariable gkr axis
    some (gkr.emit (.shiftLB axis.lb axis.ub ubWrite),
      { axis with lb := constZero, ub := ubWrite })

def compInvShiftLBDim (gkr : Shared) (axis : Axis) : Option (Shared × Axis) := do
  let (gkr, axis) ← gkr.popLb axis
  let (gkr, axis) ← gkr.popUb axis
  if axis.lb = constZero then some (gkr, axis)
  else
    let id ← axis.idx
    some (gkr.emit (.unshiftLB axis.lb id), axis)

/-- The ICM for a dimension that is compressed -/
def compressIcm (gkr : Shared) (axis : Axis) (ubWrite : Opd) : Icm :=
  if axis.wi = constOne then .compressS axis.ub ubWrite axis.st
  else if !gkr.pass.branchless then .compressSW axis.ub ubWrite axis.st axis.wi gkr.helperA
  else .compressSWBL axis.ub ubWrite axis.st axis.wi gkr.helperA gkr.helperB

/-- One dimension of `GKCOcompCompressGrid`, with its entry of the argument -/
def compCompressGridDim (gkr : Shared) (entry : Bool × Axis) : Option (Shared × Axis) :=
  let axis := entry.2
  let gkr := ((gkr.pushUb axis.ub).pushSt axis.st).pushWi axis.wi
  if !entry.1 then some (gkr, axis)
  else do
    checkNormalized gkr axis
    if axis.st = constOne then some (gkr, axis)
    else
      let (ubWrite, gkr) := newUpperboundVariable gkr axis
      some (gkr.emit (compressIcm gkr axis ubWrite),
        { axis with ub := ubWrite, st := constOne, wi := constOne })

def compInvCompressGridDim (gkr : Shared) (entry : Bool × Axis) :
    Option (Shared × Axis) := do
  let (gkr, axis) ← gkr.popUb entry.2
  let (gkr, axis) ← gkr.popSt axis
  let (gkr, axis) ← gkr.popWi axis
  if !entry.1 then some (gkr, axis)
  else if axis.st = constOne then some (gkr, axis)
  else
    let id ← axis.idx
    if axis.wi = constOne then some (gkr.emit (.uncompressS axis.st id), axis)
    else some (gkr.emit (.uncompressSW axis.st axis.wi id), axis)

/-- One dimension of `GKCOcompPruneGrid` -/
def compPruneGridDim (gkr : Shared) (axis : Axis) : Option (Shared × Axis) := do
  checkNormalized gkr axis
  let gkr := (gkr.pushSt axis.st).pushWi axis.wi
  some (gkr, { axis with st := constOne, wi := constOne })

def compInvPruneGridDim (gkr : Shared) (axis : Axis) : Option (Shared × Axis) := do
  let (gkr, axis) ← gkr.popSt axis
  let (gkr, axis) ← gkr.popWi axis
  if axis.st = constOne then some (gkr, axis)
  else
    let id ← axis.idx
    if gkr.pass.branchless then
      let ret ← gkr.returnCollector
      some (gkr.emit (.unstepwidthBL axis.lb axis.st axis.wi id ret), axis)
    else some (gkr.emit (.unstepwidth axis.lb axis.st axis.wi id), axis)

/-- `PermuteStrvec` -/
def permuteStrvec {α : Type} (permutation : List Nat) (vec : List α) : Option (List α) :=
  (List.range vec.length).mapM fun i => do
    let oldIndex ← permutation[i]?
    vec[oldIndex]?

/-- `InvPermuteStrvec`; an entry that is never written stays NULL. -/
def invPermuteStrvec {α : Type} (permutation : List Nat) (vec : List α) : Option (List α) :=
  let newvec : List (Option α) := (List.range vec.length).foldl
    (fun newvec i => newvec.set (permutation.getD i vec.length) vec[i]?)
    (List.replicate vec.length none)
  newvec.mapM fun entry => entry

/-- The mappings of gpukernel_funs.mac other than the outermost GridBlock -/
inductive Mapping where
  | shiftLB
  | compressGrid (shouldCompress : List Bool)
  | pruneGrid
  | permute (permutation : List Nat)
  | foldLast2
  | splitLast (minorlen : Nat)
  | padLast (divisibility : Nat)
  deriving DecidableEq

/-- The hits of `checkPermutationArg`: each entry is in range and not seen before. -/
def permutationHits (length : Nat) : List Nat → List Nat → Bool
  | [], _ => true
  | point :: rest, hits =>
      decide (point < length) && !hits.contains point && permutationHits length rest (point :: hits)

/-- What the parser checks of the arguments of a mapping -/
def Mapping.checkArgs : Mapping → Bool
  | .permute permutation => permutationHits permutation.length permutation []
  | _ => true

/-- `GKCOcompFoldLast2` -/
def compFoldLast2 (gkr : GpuKernelRes) : Option GpuKernelRes := do
  let (front, major, minor) ← lastTwo gkr.axes
  assertDense major
  assertDense minor
  let shared := gkr.toShared.pushUb major.ub
  let (ubWrite, shared) := newUpperboundVariable shared major
  let shared := shared.emit (.foldLast major.ub ubWrite minor.ub)
  some { removeDimension shared minor with axes := front ++ [{ major with ub := ubWrite }] }

def compInvFoldLast2 (gkr : GpuKernelRes) : Option GpuKernelRes := do
  let (shared, minor) ← addDimension gkr.toShared
  let (front, major) ← lastOne gkr.axes
  let (shared, major) ← shared.popUb major
  let idMajor ← major.idx
  let idMinor ← minor.idx
  let shared := shared.emit (.unfoldLast idMajor idMinor minor.ub)
  some { shared with axes := front ++ [major, minor] }

/-- `GKCOcompSplitLast` -/
def compSplitLast (minorlen : Nat) (gkr : GpuKernelRes) : Option GpuKernelRes := do
  let (shared, minor) ← addDimension gkr.toShared
  let (front, major) ← lastOne gkr.axes
  assertDense major
  let (shared, major) := compPad minorlen shared major
  let shared := shared.pushUb major.ub
  let (ubWrite, shared) := newUpperboundVariable shared major
  let shared := shared.emit (.splitLast major.ub ubWrite minor.ub minorlen)
  some { shared with axes := front ++ [{ major with ub := ubWrite }, minor] }

def compInvSplitLast (minorlen : Nat) (gkr : GpuKernelRes) : Option GpuKernelRes := do
  let (front, major, minor) ← lastTwo gkr.axes
  let (shared, major) ← gkr.toShared.popUb major
  let idMajor ← major.idx
  let idMinor ← minor.idx
  let shared := shared.emit (.unsplitLast idMajor idMinor minorlen)
  let (shared, major) ← compInvPad shared major
  some { removeDimension shared minor with axes := front ++ [major] }

/-- The functions that `dispatch` calls for a mapping -/
def Mapping.comp (gkr : GpuKernelRes) : Mapping → Option GpuKernelRes
  | .shiftLB => do
      let (shared, axes) ← loopDimensions compShiftLBDim gkr.toShared gkr.axes
      some { shared with axes := axes }
  | .compressGrid shouldCompress =>
      if shouldCompress.length ≠ gkr.axes.length then none
      else do
        let (shared, axes) ← loopDimensions compCompressGridDim gkr.toShared
          (shouldCompress.zip gkr.axes)
        some { shared with axes := axes }
  | .pruneGrid => do
      let (shared, axes) ← loopDimensions compPruneGridDim gkr.toShared gkr.axes
      some { shared with axes := axes }
  | .permute permutation =>
      if permutation.length ≠ gkr.axes.length then none
      else do
        let axes ← permuteStrvec permutation gkr.axes
        some { gkr with axes := axes }
  | .foldLast2 => compFoldLast2 gkr
  | .splitLast minorlen => compSplitLast minorlen gkr
  | .padLast divisibility => do
      let (front, last) ← lastOne gkr.axes
      let (shared, last) := compPad divisibility gkr.toShared last
      some { shared with axes := front ++ [last] }

/-- The functions that `dispatchInv` calls for a mapping -/
def Mapping.compInv (gkr : GpuKernelRes) : Mapping → Option GpuKernelRes
  | .shiftLB => do
      let (shared, axes) ← loopDimensionsInv compInvShiftLBDim gkr.toShared gkr.axes
      some { shared with axes := axes }
  | .compressGrid shouldCompress =>
      if shouldCompress.length ≠ gkr.axes.length then none
      else do
        let (shared, axes) ← loopDimensionsInv compInvCompressGridDim gkr.toShared
          (shouldCompress.zip gkr.axes)
        some { shared with axes := axes }
  | .pruneGrid => do
      let (shared, axes) ← loopDimensionsInv compInvPruneGridDim gkr.toShared gkr.axes
      some { shared with axes := axes }
  | .permute permutation =>
      if permutation.length ≠ gkr.axes.length then none
      else do
        let axes ← invPermuteStrvec permutation gkr.axes
        some { gkr with axes := axes }
  | .foldLast2 => compInvFoldLast2 gkr
  | .splitLast minorlen => compInvSplitLast minorlen gkr
  | .padLast _ => do
      let (front, last) ← lastOne gkr.axes
      let (shared, last) ← compInvPad gkr.toShared last
      some { shared with axes := front ++ [last] }

end Mappings

section Passes

/-- The bounds of one dimension of the generator and its index variable -/
structure Bound where
  lb : Opd
  ub : Opd
  st : Opd
  wi : Opd
  id : Var

/-- The resources of the target that `checkDimensionSettings` reads -/
structure Config where
  cudaDimGrid : Nat
  cudaDimBlock : Nat

/-- One dimension of `GKCOcompGen` -/
def compGenDim (gkr : Shared) (bound : Bound) : Option (Shared × Axis) :=
  let id := if gkr.pass.idxCompute then some bound.id else none
  if !gkr.pass.valPreserve then
    let (ub, gkr) := varCreate gkr .ub
    some (gkr.emit (.opdRedefine bound.ub ub), ⟨bound.lb, .read ub, bound.st, bound.wi, id⟩)
  else some (gkr, ⟨bound.lb, bound.ub, bound.st, bound.wi, id⟩)

/-- `GKCOcompGen` -/
def compGen (bounds : List Bound) (gkr : Shared) : Option GpuKernelRes := do
  let gkr ← if gkr.pass.branchless then gkr.returnCollector.map (gkr.emit <| .returnColInit ·)
    else some gkr
  let (shared, axes) ← loopDimensions compGenDim gkr bounds
  some { shared with axes := axes }

/-- The entries of the index vector in the order of `GKCOcompInvGen` -/
def defIvs : Nat → List Axis → Option (List Icm)
  | _, [] => some []
  | dim, axis :: rest => do
      let later ← defIvs (dim + 1) rest
      let id ← axis.idx
      some (later ++ [.defIv dim id])

/-- `GKCOcompInvGen` -/
def compInvGen (gkr : GpuKernelRes) : Option GpuKernelRes := do
  let shared ← if gkr.pass.branchless then
      gkr.returnCollector.map (gkr.toShared.emit <| .returnIfCollected ·)
    else some gkr.toShared
  let ivs ← defIvs 0 gkr.axes
  some { shared with out := shared.out ++ ivs, axes := gkr.axes }

/-- The mappings of a pragma below its GridBlock, the outermost first -/
def dispatch (bounds : List Bound) (gkr : Shared) : List Mapping → Option GpuKernelRes
  | [] => compGen bounds gkr
  | mapping :: inner => do
      let res ← dispatch bounds gkr inner
      mapping.comp res

def dispatchInv (gkr : GpuKernelRes) : List Mapping → Option GpuKernelRes
  | [] => compInvGen gkr
  | mapping :: inner => do
      let res ← mapping.compInv gkr
      dispatchInv res inner

/-- `checkDimensionSettings`; the difference is unsigned, so more grid dimensions
than there are dimensions is an error too. -/
def checkDimensionSettings (config : Config) (gridDims dims : Nat) : Option Unit :=
  if gridDims ≤ config.cudaDimGrid ∧ gridDims ≤ dims ∧ dims - gridDims ≤ config.cudaDimBlock
  then some () else none

/-- `GKCOcompGridBlock`; the last dimension is the x axis. -/
def compGridBlock (config : Config) (gridDims : Nat) (gkr : GpuKernelRes) :
    Option GpuKernelRes := do
  gkr.axes.forM assertNormalized
  let () ← if gkr.pass.checkPragma then
      checkDimensionSettings config gridDims gkr.axes.length
    else some ()
  let ubs := gkr.axes.map (·.ub)
  let atLeastOne (dims : List Opd) := if dims.isEmpty then [constOne] else dims
  if gkr.pass.gbEmit then
    let shared := gkr.toShared.emit (.setGrid (atLeastOne (ubs.take gridDims).reverse))
    let shared := shared.emit (.setBlock (atLeastOne (ubs.drop gridDims).reverse))
    some { shared with axes := gkr.axes }
  else some gkr

/-- The index variables of one part of the dimensions, x first, read from a
coordinate each. The loop runs from the highest coordinate down to x. -/
def redefines (coordinate : Nat → Coordinate) : Nat → List Axis → Option (List Icm)
  | _, [] => some []
  | xyz, axis :: rest => do
      let higher ← redefines coordinate (xyz + 1) rest
      let id ← axis.idx
      some (higher ++ [.opdRedefineCoordinate (coordinate xyz) id])

/-- `GKCOcompInvGridBlock` -/
def compInvGridBlock (gridDims : Nat) (gkr : GpuKernelRes) : Option GpuKernelRes := do
  let block ← redefines .threadIdx 0 (gkr.axes.drop gridDims).reverse
  let grid ← redefines .blockIdx 0 (gkr.axes.take gridDims).reverse
  some { gkr with out := gkr.out ++ block ++ grid }

/-- A pragma: GridBlock around the other mappings -/
structure Pragma where
  gridDims : Nat
  inner : List Mapping

/-- `GKCOcompHostKernelPragma` -/
def compHostKernelPragma (config : Config) (pragma : Pragma) (bounds : List Bound) (next : Nat) :
    Option (List Icm) := do
  let res ← dispatch bounds (makeGpuKernelRes passHost next) pragma.inner
  let res ← compGridBlock config pragma.gridDims res
  some res.out

/-- `GKCOcompGPUDkernelPragma`, with what its last pass leaves -/
def compGpudKernelPragma (config : Config) (branchless : Bool) (pragma : Pragma)
    (bounds : List Bound) (next : Nat) : Option GpuKernelRes := do
  let res ← dispatch bounds (makeGpuKernelRes (passKernelThreadspace branchless) next)
    pragma.inner
  let res ← compGridBlock config pragma.gridDims res
  let res := { res with pass := passKernelWlids branchless }
  let res ← compInvGridBlock pragma.gridDims res
  dispatchInv res pragma.inner

/-- `GKCOcompCheckGPUkernelRes` -/
def checkGpuKernelRes (bounds : List Bound) (res : GpuKernelRes) : Prop :=
  res.axes.length = bounds.length ∧ res.axes.map (·.idx) = bounds.map (some ·.id) ∧
    res.lowerboundAt = [] ∧ res.upperboundAt = [] ∧ res.stepAt = [] ∧ res.widthAt = [] ∧
    res.idxAt = []

end Passes

section Runs

/-- How the target computes: what becomes of an exact result, and of a division by 0 -/
structure Arith where
  norm : Int → Option Int
  byZero : Option Int

/-- An overflow or a division by 0 ends the run on the host. -/
def host : Arith where
  norm value := if -2 ^ 31 ≤ value ∧ value < 2 ^ 31 then some value else none
  byZero := none

def wrap (value : Int) : Int := value.bmod (2 ^ 32)

def device : Arith where
  norm value := some (wrap value)
  byZero := some 0

def Arith.div (arith : Arith) (a b : Int) : Option Int :=
  if b = 0 then arith.byZero else arith.norm (a.tdiv b)

def Arith.mod (arith : Arith) (a b : Int) : Option Int :=
  if b = 0 then arith.byZero else arith.norm (a.tmod b)

def truth (condition : Prop) [Decidable condition] : Int := if condition then 1 else 0

/-- `SAC_GKCO_HOST_OPD_PAD` -/
def padded (arith : Arith) (ub : Int) (divisibility : Nat) : Option Int := do
  let rest ← arith.mod ub divisibility
  let missing ← arith.norm (divisibility - rest)
  let more ← arith.mod missing divisibility
  arith.norm (ub + more)

/-- `SAC_GKCO_HOST_OPD_COMPRESS_S` -/
def compressedS (arith : Arith) (ub st : Int) : Option Int := do
  let above ← arith.norm (ub + st)
  let above ← arith.norm (above - 1)
  arith.div above st

/-- `SAC_GKCO_HOST_OPD_COMPRESS_SW` -/
def compressedSW (arith : Arith) (ub st wi : Int) : Option Int := do
  let tmp ← arith.mod ub st
  let full ← arith.div ub st
  let full ← arith.norm (full * wi)
  arith.norm (full + if tmp < wi then tmp else wi)

/-- `SAC_GKCO_HOST_OPD_COMPRESS_SW_BL`, with `TERNARY_BL` -/
def compressedSWBL (arith : Arith) (ub st wi : Int) : Option Int := do
  let tmpA ← arith.mod ub st
  let tmpB := truth (tmpA < wi)
  let full ← arith.div ub st
  let full ← arith.norm (full * wi)
  let taken ← arith.norm (tmpB * tmpA)
  let other ← arith.norm (truth (tmpB = 0) * wi)
  let least ← arith.norm (taken + other)
  arith.norm (full + least)

structure Frame where
  vals : Var → Int
  blockIdx : Nat → Int
  threadIdx : Nat → Int
  grid : List Int
  block : List Int
  iv : Nat → Int
  returned : Bool

def Opd.eval (vals : Var → Int) : Opd → Int
  | .num value => value
  | .read var => vals var

@[simp] theorem eval_constZero (vals : Var → Int) : constZero.eval vals = 0 := rfl

@[simp] theorem eval_constOne (vals : Var → Int) : constOne.eval vals = 1 := rfl

def Frame.set (frame : Frame) (var : Var) (value : Int) : Frame :=
  { frame with vals := Function.update frame.vals var value }

/-- An assignment to the text of an operand, which has to be a variable -/
def Frame.assign (frame : Frame) (target : Opd) (value : Int) : Option Frame :=
  match target with
  | .num _ => none
  | .read var => some (frame.set var value)

def Coordinate.read (frame : Frame) : Coordinate → Int
  | .blockIdx xyz => frame.blockIdx xyz
  | .threadIdx xyz => frame.threadIdx xyz

/-- `ret_col |= condition` -/
def Frame.collect (frame : Frame) (retCol : Var) (condition : Prop) [Decidable condition] :
    Frame :=
  frame.set retCol (Int.lor (frame.vals retCol) (truth condition))

/-- What an ICM expands to -/
def Icm.exec (arith : Arith) (frame : Frame) : Icm → Option Frame
  | .opdDeclare _ => some frame
  | .opdRedefine source target => some (frame.set target (source.eval frame.vals))
  | .opdRedefineCoordinate source target => some (frame.set target (source.read frame))
  | .returnColInit retCol => some (frame.set retCol 0)
  | .pad ubR ubW divisibility => do
      frame.assign ubW (← padded arith (ubR.eval frame.vals) divisibility)
  | .shiftLB lb ubR ubW => do
      frame.assign ubW (← arith.norm (ubR.eval frame.vals - lb.eval frame.vals))
  | .compressS ubR ubW st => do
      frame.assign ubW (← compressedS arith (ubR.eval frame.vals) (st.eval frame.vals))
  | .compressSW ubR ubW st wi tmp => do
      let value ← compressedSW arith (ubR.eval frame.vals) (st.eval frame.vals)
        (wi.eval frame.vals)
      let rest ← arith.mod (ubR.eval frame.vals) (st.eval frame.vals)
      (frame.set tmp rest).assign ubW value
  | .compressSWBL ubR ubW st wi tmpA tmpB => do
      let value ← compressedSWBL arith (ubR.eval frame.vals) (st.eval frame.vals)
        (wi.eval frame.vals)
      let rest ← arith.mod (ubR.eval frame.vals) (st.eval frame.vals)
      ((frame.set tmpA rest).set tmpB (truth (rest < wi.eval frame.vals))).assign ubW value
  | .foldLast ubMajR ubMajW ubMin => do
      frame.assign ubMajW (← arith.norm (ubMajR.eval frame.vals * ubMin.eval frame.vals))
  | .splitLast ubMajR ubMajW ubMin lenMin => do
      let frame ← frame.assign ubMin lenMin
      frame.assign ubMajW (← arith.div (ubMajR.eval frame.vals) lenMin)
  | .setGrid dims => some { frame with grid := dims.map (·.eval frame.vals) }
  | .setBlock dims => some { frame with block := dims.map (·.eval frame.vals) }
  | .unstepwidth _ st wi idx => do
      let rest ← arith.mod (frame.vals idx) (st.eval frame.vals)
      if rest < wi.eval frame.vals then some frame else some { frame with returned := true }
  | .unstepwidthBL _ st wi idx retCol => do
      let rest ← arith.mod (frame.vals idx) (st.eval frame.vals)
      some (frame.collect retCol (¬ rest < wi.eval frame.vals))
  | .unpad ub idx =>
      if ub.eval frame.vals ≤ frame.vals idx then some { frame with returned := true }
      else some frame
  | .unpadBL ub idx retCol => some (frame.collect retCol (ub.eval frame.vals ≤ frame.vals idx))
  | .unshiftLB lb idx => do
      let value ← arith.norm (frame.vals idx + lb.eval frame.vals)
      some (frame.set idx value)
  | .uncompressS st idx => do
      let value ← arith.norm (frame.vals idx * st.eval frame.vals)
      some (frame.set idx value)
  | .uncompressSW st wi idx => do
      let full ← arith.div (frame.vals idx) (wi.eval frame.vals)
      let full ← arith.norm (full * st.eval frame.vals)
      let rest ← arith.mod (frame.vals idx) (wi.eval frame.vals)
      let value ← arith.norm (full + rest)
      some (frame.set idx value)
  | .unfoldLast idxMaj idxMin ubMin => do
      let minor ← arith.mod (frame.vals idxMaj) (ubMin.eval frame.vals)
      let frame := frame.set idxMin minor
      let major ← arith.div (frame.vals idxMaj) (ubMin.eval frame.vals)
      some (frame.set idxMaj major)
  | .unsplitLast idxMaj idxMin lenMin => do
      let scaled ← arith.norm (frame.vals idxMaj * lenMin)
      let value ← arith.norm (scaled + frame.vals idxMin)
      some (frame.set idxMaj value)
  | .returnIfCollected retCol =>
      if frame.vals retCol ≠ 0 then some { frame with returned := true } else some frame
  | .defIv dim id => some { frame with iv := Function.update frame.iv dim (frame.vals id) }

/-- A function that has returned runs no further. -/
def run (arith : Arith) : Frame → List Icm → Option Frame
  | frame, [] => some frame
  | frame, icm :: rest =>
      if frame.returned then some frame
      else (icm.exec arith frame).bind fun next => run arith next rest

end Runs

end Sac2c.GpuKernel
