import Sac2c.KernelBlocks

/-!
The code each mapping prints in the first two passes is a block that computes
`forward`. On the host an upper bound is written where it was read; in the kernel
it goes to a fresh variable. Dispatching a whole pragma is the sequence of its
blocks.
-/

namespace Sac2c.MappingBlocks

open GpuKernel ThreadSpaces StrvecPermutations KernelBlocks

variable {arith : Arith} {ids0 : List Var} {vals0 : Var → Int} {gkr gkr' : Shared}

section Parts

/-- Besides the stacks only declarations are added, and they run without effect. -/
structure Declares (arith : Arith) (gkr gkr' : Shared) (declares : List Icm) : Prop
    extends Follows gkr gkr' where
  printed : gkr'.out = gkr.out ++ declares
  silent : ∀ frame code, run arith frame (declares ++ code) = run arith frame code

theorem Declares.trans {middle : Shared} {first second : List Icm}
    (earlier : Declares arith gkr middle first) (later : Declares arith middle gkr' second) :
    Declares arith gkr gkr' (first ++ second) where
  toFollows := earlier.toFollows.trans later.toFollows
  printed := by rw [later.printed, earlier.printed, List.append_assoc]
  silent frame code := by rw [List.append_assoc, earlier.silent, later.silent]

theorem varCreate_declares (arith : Arith) (gkr : Shared) (kind : Postfix) :
    Declares arith gkr (varCreate gkr kind).2 [.opdDeclare (.gkco gkr.next kind)] where
  toFollows := ⟨rfl, rfl, rfl, rfl, Nat.le_succ _⟩
  printed := rfl
  silent frame code := by
    cases done : frame.returned with
    | true => rw [run_returned done, run_returned done]
    | false =>
        rw [List.singleton_append, run_cons done]
        rfl

theorem Declares.of_eq (arith : Arith) (gkr : Shared) (old : Stacks) :
    Declares arith gkr { gkr with toStacks := old } [] where
  toFollows := ⟨rfl, rfl, rfl, rfl, le_rfl⟩
  printed := (List.append_nil _).symm
  silent _ _ := rfl

section Pushes
variable (arith : Arith) (gkr : Shared)

theorem pushLb_declares (lb : Opd) : Declares arith gkr (gkr.pushLb lb) [] := by
  unfold Shared.pushLb
  split <;> exact Declares.of_eq arith gkr _

theorem pushUb_declares (ub : Opd) : Declares arith gkr (gkr.pushUb ub) [] := by
  unfold Shared.pushUb
  split <;> exact Declares.of_eq arith gkr _

theorem pushSt_declares (st : Opd) : Declares arith gkr (gkr.pushSt st) [] := by
  unfold Shared.pushSt
  split <;> exact Declares.of_eq arith gkr _

theorem pushWi_declares (wi : Opd) : Declares arith gkr (gkr.pushWi wi) [] := by
  unfold Shared.pushWi
  split <;> exact Declares.of_eq arith gkr _

theorem removeDimension_declares (axis : Axis) :
    Declares arith gkr (removeDimension gkr axis) [] := by
  have pushed := (((pushLb_declares arith gkr axis.lb).trans (pushUb_declares _ _ axis.ub)).trans
    (pushSt_declares _ _ axis.st)).trans (pushWi_declares _ _ axis.wi)
  simp only [removeDimension]
  split
  · exact pushed.trans (Declares.of_eq arith _ _)
  · exact pushed

end Pushes

/-- What is declared and pushed before a block does not matter to it. -/
theorem Block.before {middle : Shared} {axes axes' : List Axis} {target : Change}
    {declares : List Icm} (declared : Declares arith gkr middle declares)
    (block : Block arith ids0 vals0 middle axes gkr' axes' target) :
    Block arith ids0 vals0 gkr axes gkr' axes' target := by
  obtain ⟨code, printed, computes⟩ := block.runs
  refine
    { follows := declared.toFollows.trans block.follows
      tidy := block.tidy
      owns := fun a member => declared.toFollows.owned (block.owns a member)
      runs := ⟨declares ++ code, by rw [printed, declared.printed, List.append_assoc],
        fun frame going => ?_⟩ }
  rw [declared.silent]
  refine (computes frame going).imp fun after extents good => ⟨good.1, good.2.weaken ?_⟩
  exact fun var => declared.toFollows.written

/-- Nor is what is pushed after it. -/
theorem Block.after {middle : Shared} {axes axes' : List Axis} {target : Change}
    (pushed : Declares arith middle gkr' [])
    (block : Block arith ids0 vals0 gkr axes middle axes' target) :
    Block arith ids0 vals0 gkr axes gkr' axes' target := by
  obtain ⟨code, printed, computes⟩ := block.runs
  exact
    { follows := block.follows.trans pushed.toFollows
      tidy := block.tidy.later pushed.toFollows
      owns := block.owns
      runs := ⟨code, by rw [pushed.printed, List.append_nil, printed], computes⟩ }

/-- A dimension whose upper bound stays and whose other texts may change -/
theorem Block.skip (arith : Arith) {a : Axis} (a' : Axis) (tidy : Tidy ids0 vals0 gkr [a])
    (same : a'.ub = a.ub) (texts : Texts ids0 vals0 a'.lb a'.st a'.wi) :
    Block arith ids0 vals0 gkr [a] gkr [a']
      (onOne fun e => some { e with lb := a'.lb, st := a'.st, wi := a'.wi }) where
  follows := Follows.refl gkr
  tidy := by
    refine ⟨by simpa using texts, ?_, by simp, tidy.helpers⟩
    have old := tidy.ubs a (List.mem_singleton_self a)
    simpa [same] using old
  owns b member := by
    rw [List.mem_singleton.mp member]
    exact Or.inl (by simp [same])
  runs := by
    refine ⟨[], (List.append_nil _).symm, fun frame _ => ⟨frame, rfl, ?_, Keeps.refl _ _⟩⟩
    simp [extentOf, same]

/-- What an ICM stores in the variable it writes, besides a helper -/
def Stores (arith : Arith) (icm : Opd → Icm) (frame : Frame) : Option Int → Prop
  | none => ∀ var, (icm (.read var)).exec arith frame = none
  | some value => ∀ var, ∃ after, (icm (.read var)).exec arith frame = some after ∧
      after.vals var = value ∧ Keeps (fun v => v = var ∨ ∃ n, v = .gkco n .tmp) frame after

theorem set_keeps (frame : Frame) (var : Var) (value : Int) :
    Keeps (· = var) frame (frame.set var value) where
  vals _ different := Function.update_of_ne different _ _
  returned := rfl
  blockIdx := rfl
  threadIdx := rfl

theorem Stores.of_assign {icm : Opd → Icm} {frame : Frame} {value : Option Int}
    (exec : ∀ var, (icm (.read var)).exec arith frame =
      value.bind fun u => some (frame.set var u)) : Stores arith icm frame value := by
  cases value with
  | none => exact fun var => exec var
  | some u =>
      intro var
      refine ⟨_, exec var, Function.update_self .., ?_⟩
      exact (set_keeps frame var u).weaken fun v => Or.inl

/-- Where the next upper bound goes is nothing that is still needed. -/
theorem newUpperboundVariable_spec (arith : Arith) {a : Axis} (tidy : Tidy ids0 vals0 gkr [a]) :
    ∃ var declares gkr', newUpperboundVariable gkr a = (.read var, gkr') ∧
      Declares arith gkr gkr' declares ∧ Written gkr [a] var ∧
      (∃ n, n < gkr'.next ∧ var = .gkco n .ub) ∧ Owned gkr [a] (.read var) := by
  cases preserve : gkr.pass.valPreserve with
  | true =>
      refine ⟨.gkco gkr.next .ub, _, (varCreate gkr .ub).2, ?_, varCreate_declares arith gkr .ub,
        Or.inr (Or.inl ⟨_, le_rfl, rfl⟩), ⟨_, Nat.lt_succ_self _, rfl⟩, Or.inr ⟨_, le_rfl, rfl⟩⟩
      simp only [newUpperboundVariable, preserve, if_true]
      rfl
  | false =>
      rcases tidy.ubs a (List.mem_singleton_self a) with ⟨other, -⟩ | ⟨n, old, text⟩
      · rw [preserve] at other
        cases other
      · refine ⟨.gkco n .ub, [], gkr, ?_, Declares.of_eq arith gkr _,
          Or.inr (Or.inr ⟨preserve, by simp [text]⟩), ⟨n, old, rfl⟩, Or.inl (by simp [text])⟩
        simp [newUpperboundVariable, preserve, text]

/-- One upper bound computed from some dimensions, of which it replaces the first -/
theorem Block.compute {a : Axis} {others : List Axis} (lb st wi : Opd) {ub : Opd}
    (idx : Option Var) {icm : Opd → Icm} {middle : Shared}
    (tidy : Tidy ids0 vals0 gkr (a :: others)) (value : List Extent → Option Int)
    (texts : Texts ids0 vals0 lb st wi) (fresh : newUpperboundVariable gkr a = (ub, middle))
    (stores : ∀ frame, Going vals0 frame →
      Stores arith icm frame (value ((a :: others).map (extentOf frame.vals)))) :
    Block arith ids0 vals0 gkr (a :: others) (middle.emit (icm ub)) [⟨lb, ub, st, wi, idx⟩]
      (fun es => (value es).map fun u => [⟨lb, st, wi, u⟩]) := by
  have tidyFirst : Tidy ids0 vals0 gkr [a] := tidy.sublist (by simp)
  obtain ⟨var, declares, gkr', spec, declared, written, ⟨n, old, named⟩, owned⟩ :=
    newUpperboundVariable_spec arith tidyFirst
  obtain ⟨rfl, rfl⟩ := Prod.mk.inj (fresh.symm.trans spec)
  refine
    { follows := declared.toFollows.trans (emit_follows _ _)
      tidy := ⟨by simpa using texts, ?_, by simp, (tidy.later declared.toFollows).helpers⟩
      owns := ?_
      runs := ⟨declares ++ [icm (.read var)], by simp [Shared.emit, declared.printed],
        fun frame going => ?_⟩ }
  · exact List.forall_mem_singleton.mpr (Or.inr ⟨n, old, congrArg Opd.read named⟩)
  · refine List.forall_mem_singleton.mpr (owned.imp_left fun own => ?_)
    simp [List.mem_singleton.mp own]
  · have stored := stores frame going
    rw [declared.silent, run_one going.going]
    cases computed : value ((a :: others).map (extentOf frame.vals)) with
    | none =>
        rw [computed] at stored
        exact stored var
    | some u =>
        rw [computed] at stored
        obtain ⟨after, ran, holds, keeps⟩ := stored var
        refine ⟨after, ran, ?_, keeps.weaken ?_⟩
        · simp [extentOf, Opd.eval, holds]
        · rintro other (rfl | tmp)
          · exact written.mono (by simp)
          · exact Or.inl tmp

/-- A dimension whose upper bound is computed anew -/
theorem Block.update {a : Axis} (lb st wi : Opd) {ub : Opd} (idx : Option Var)
    {icm : Opd → Icm} {middle : Shared} (tidy : Tidy ids0 vals0 gkr [a])
    (value : Extent → Option Int) (texts : Texts ids0 vals0 lb st wi)
    (fresh : newUpperboundVariable gkr a = (ub, middle))
    (stores : ∀ frame, Going vals0 frame →
      Stores arith icm frame (value (extentOf frame.vals a))) :
    Block arith ids0 vals0 gkr [a] (middle.emit (icm ub)) [⟨lb, ub, st, wi, idx⟩]
      (onOne fun e => (value e).map fun u => ⟨lb, st, wi, u⟩) := by
  have block := Block.compute lb st wi idx tidy (fun es => es.head?.bind value) texts fresh stores
  refine block.congr fun vals => ?_
  simp [onOne, Function.comp_def]

end Parts

section Dimensions

theorem Going.eval {frame : Frame} (going : Going vals0 frame) {opd : Opd}
    (program : Program ids0 opd) : opd.eval frame.vals = opd.eval vals0 :=
  program.eval going.named

theorem compPad_block {a : Axis} (tidy : Tidy ids0 vals0 gkr [a]) (divisibility : Nat) :
    Block arith ids0 vals0 gkr [a] (compPad divisibility gkr a).1 [(compPad divisibility gkr a).2]
      (onOne (padExtent arith divisibility)) := by
  have pushed := pushUb_declares arith gkr a.ub
  have stores (frame : Frame) (_ : Going vals0 frame) :
      Stores arith (fun w => .pad a.ub w divisibility) frame
        (padded arith (extentOf frame.vals a).ub divisibility) := Stores.of_assign fun var => rfl
  have block := Block.update a.lb a.st a.wi a.idx
    (tidy.later pushed.toFollows) (fun e => padded arith e.ub divisibility) (tidy.texts a (by simp)) rfl stores
  refine (Block.before pushed block).congr fun vals => ?_
  simp [onOne, padExtent, extentOf, Function.comp_def]

theorem compShiftLBDim_block {a a' : Axis} (tidy : Tidy ids0 vals0 gkr [a])
    (compiled : compShiftLBDim gkr a = some (gkr', a')) :
    Block arith ids0 vals0 gkr [a] gkr' [a'] (onOne (shiftExtent arith vals0)) := by
  have pushed := (pushLb_declares arith gkr a.lb).trans (pushUb_declares _ _ a.ub)
  have texts := tidy.texts a (by simp)
  simp only [compShiftLBDim] at compiled
  split at compiled
  · next zero =>
      cases compiled
      have block := Block.skip arith a tidy rfl texts
      refine (Block.after pushed block).congr fun vals => ?_
      simp [onOne, shiftExtent, extentOf, zero]
  · next nonzero =>
      cases compiled
      have stores (frame : Frame) (going : Going vals0 frame) :
          Stores arith (fun w => .shiftLB a.lb a.ub w) frame
            (arith.norm ((extentOf frame.vals a).ub - a.lb.eval vals0)) := by
        rw [← Going.eval going texts.1]
        exact Stores.of_assign fun var => rfl
      have block := Block.update constZero a.st a.wi a.idx
        (tidy.later pushed.toFollows) (fun e => arith.norm (e.ub - a.lb.eval vals0))
        ⟨program_num 0, texts.2⟩ rfl stores
      refine (Block.before pushed block).congr fun vals => ?_
      simp [onOne, shiftExtent, extentOf, nonzero, Function.comp_def]

theorem one_texts : Program ids0 constOne ∧ Program ids0 constOne ∧ InInt (constOne.eval vals0) :=
  ⟨program_num 1, program_num 1, by rw [eval_constOne]; exact ⟨by norm_num, by norm_num⟩⟩

theorem compPruneGridDim_block {a a' : Axis} (tidy : Tidy ids0 vals0 gkr [a])
    (compiled : compPruneGridDim gkr a = some (gkr', a')) :
    Block arith ids0 vals0 gkr [a] gkr' [a'] (onOne fun e => some (pruneExtent e)) := by
  have pushed := (pushSt_declares arith gkr a.st).trans (pushWi_declares _ _ a.wi)
  obtain ⟨-, -, compiled⟩ := Option.bind_eq_some_iff.mp compiled
  cases compiled
  have block := Block.skip arith { a with st := constOne, wi := constOne } tidy rfl ⟨(tidy.texts a (by simp)).1, one_texts⟩
  exact (Block.after pushed block).congr fun vals => rfl

/-- A helper and then the target are written. -/
theorem sets_keeps (frame : Frame) (var : Var) (value : Int) {tmp : Var} (number : Nat)
    (named : tmp = .gkco number .tmp) (rest : Int) :
    Keeps (fun v => v = var ∨ ∃ n, v = .gkco n .tmp) frame ((frame.set tmp rest).set var value) :=
  ((set_keeps frame tmp rest).weaken fun _ same => Or.inr ⟨number, same.trans named⟩).trans
    ((set_keeps _ var value).weaken fun _ => Or.inl)

theorem stores_compressSW {ubR st wi : Opd} {tmp : Var} {number : Nat}
    (named : tmp = .gkco number .tmp) (frame : Frame) :
    Stores arith (fun w => .compressSW ubR w st wi tmp) frame
      (compressedSW arith (ubR.eval frame.vals) (st.eval frame.vals) (wi.eval frame.vals)) := by
  cases computed : compressedSW arith (ubR.eval frame.vals) (st.eval frame.vals)
      (wi.eval frame.vals) with
  | none =>
      intro var
      simp [Icm.exec, computed]
  | some value =>
      intro var
      obtain ⟨rest, restEq, -⟩ := Option.bind_eq_some_iff.mp computed
      refine ⟨(frame.set tmp rest).set var value, ?_, Function.update_self ..,
        sets_keeps frame var value number named rest⟩
      simp [Icm.exec, computed, restEq, Frame.assign]

theorem stores_compressSWBL (exact : Exact arith) {ubR st wi : Opd} {tmpA tmpB : Var}
    {numberA numberB : Nat} (namedA : tmpA = .gkco numberA .tmp)
    (namedB : tmpB = .gkco numberB .tmp) (frame : Frame) (small : InInt (wi.eval frame.vals)) :
    Stores arith (fun w => .compressSWBL ubR w st wi tmpA tmpB) frame
      (compressedSW arith (ubR.eval frame.vals) (st.eval frame.vals) (wi.eval frame.vals)) := by
  have same := exact.compressedSWBL_eq (ubR.eval frame.vals) (st.eval frame.vals) small
  cases computed : compressedSW arith (ubR.eval frame.vals) (st.eval frame.vals)
      (wi.eval frame.vals) with
  | none =>
      intro var
      simp [Icm.exec, same, computed]
  | some value =>
      intro var
      obtain ⟨rest, restEq, -⟩ := Option.bind_eq_some_iff.mp computed
      refine ⟨((frame.set tmpA rest).set tmpB (truth (rest < wi.eval frame.vals))).set var value,
        ?_, Function.update_self .., ?_⟩
      · simp [Icm.exec, same, computed, restEq, Frame.assign]
      · exact ((set_keeps frame tmpA rest).weaken fun _ same =>
          Or.inr ⟨numberA, same.trans namedA⟩).trans (sets_keeps _ var value numberB namedB _)

theorem newUpperboundVariable_helpers (gkr : Shared) (a : Axis) :
    (newUpperboundVariable gkr a).2.helperA = gkr.helperA ∧
      (newUpperboundVariable gkr a).2.helperB = gkr.helperB := by
  unfold newUpperboundVariable
  split <;> exact ⟨rfl, rfl⟩

theorem stores_compressIcm (exact : Exact arith) {a : Axis}
    (texts : Program ids0 a.st ∧ Program ids0 a.wi ∧ InInt (a.wi.eval vals0))
    (helpers : (∃ n, gkr.helperA = .gkco n .tmp) ∧ ∃ n, gkr.helperB = .gkco n .tmp)
    (frame : Frame) (going : Going vals0 frame) :
    Stores arith (compressIcm gkr a) frame
      (if a.wi = constOne then compressedS arith (a.ub.eval frame.vals) (a.st.eval vals0)
        else compressedSW arith (a.ub.eval frame.vals) (a.st.eval vals0) (a.wi.eval vals0)) := by
  obtain ⟨stText, wiText, small⟩ := texts
  obtain ⟨⟨numberA, helperA⟩, numberB, helperB⟩ := helpers
  rw [← Going.eval going stText, ← Going.eval going wiText]
  unfold compressIcm
  split
  · exact Stores.of_assign fun var => rfl
  · split
    · exact stores_compressSW helperA frame
    · exact stores_compressSWBL exact helperA helperB frame (Going.eval going wiText ▸ small)

theorem compCompressGridDim_block (exact : Exact arith) {flag : Bool} {a a' : Axis}
    (tidy : Tidy ids0 vals0 gkr [a]) (compiled : compCompressGridDim gkr (flag, a) = some (gkr', a')) :
    Block arith ids0 vals0 gkr [a] gkr' [a'] (onOne fun e => compressExtent arith vals0 (flag, e)) := by
  have pushed := ((pushUb_declares arith gkr a.ub).trans (pushSt_declares _ _ a.st)).trans (pushWi_declares _ _ a.wi)
  have texts := tidy.texts a (by simp)
  have skipped := Block.after pushed (Block.skip arith a tidy rfl texts)
  simp only [compCompressGridDim] at compiled
  split at compiled
  · next off =>
      cases compiled
      refine skipped.congr fun vals => ?_
      simp [onOne, compressExtent, extentOf, off]
  · next on =>
      obtain ⟨-, -, compiled⟩ := Option.bind_eq_some_iff.mp compiled
      split at compiled
      · next one =>
          cases compiled
          refine skipped.congr fun vals => ?_
          simp [onOne, compressExtent, extentOf, one]
      · next more =>
          cases compiled
          have helpers := (tidy.later pushed.toFollows).helpers
          rw [← (newUpperboundVariable_helpers _ a).1, ← (newUpperboundVariable_helpers _ a).2]
            at helpers
          have block := Block.update a.lb constOne constOne a.idx (tidy.later pushed.toFollows)
            (fun e => if a.wi = constOne then compressedS arith e.ub (a.st.eval vals0)
              else compressedSW arith e.ub (a.st.eval vals0) (a.wi.eval vals0))
            ⟨texts.1, one_texts⟩ rfl
            (stores_compressIcm exact texts.2 helpers)
          refine (Block.before pushed block).congr fun vals => ?_
          simp [onOne, compressExtent, extentOf, more, on, Function.comp_def]

end Dimensions

section Lasts

/-- A step on two dimensions that leaves one -/
def onTwo (step : Extent → Extent → Option Extent) : List Extent → Option (List Extent)
  | [e, e'] => (step e e').map ([·])
  | _ => none

def productUb (arith : Arith) : List Extent → Option Int
  | [e, e'] => arith.norm (e.ub * e'.ub)
  | _ => none

/-- `GKCOcompFoldLast2` on the two last dimensions -/
theorem fold_block {major minor : Axis} (tidy : Tidy ids0 vals0 gkr [major, minor])
    {ubWrite : Opd} {middle : Shared}
    (fresh : newUpperboundVariable (gkr.pushUb major.ub) major = (ubWrite, middle)) :
    Block arith ids0 vals0 gkr [major, minor]
      (removeDimension (middle.emit (.foldLast major.ub ubWrite minor.ub)) minor)
      [{ major with ub := ubWrite }] (onTwo (foldExtents arith)) := by
  have pushed := pushUb_declares arith gkr major.ub
  have texts := tidy.texts major (by simp)
  have stores (frame : Frame) (_ : Going vals0 frame) :
      Stores arith (fun w => .foldLast major.ub w minor.ub) frame
        (arith.norm (major.ub.eval frame.vals * minor.ub.eval frame.vals)) :=
    Stores.of_assign fun var => rfl
  have block := Block.compute major.lb major.st major.wi major.idx (tidy.later pushed.toFollows)
    (productUb arith) texts fresh stores
  refine (Block.after (removeDimension_declares _ _ minor) (Block.before pushed block)).congr
    fun vals => ?_
  simp [onTwo, productUb, foldExtents, extentOf, Function.comp_def]

/-- `AddDimension` where the stacks are not consumed: declarations and a fresh dimension -/
theorem addDimension_spec (arith : Arith) (preserving : gkr.pass.valConsume = false) :
    ∃ gkr' idx declares,
      addDimension gkr = some (gkr', ⟨constZero, .read (.gkco gkr.next .ub), constOne, constOne,
        idx⟩) ∧ Declares arith gkr gkr' declares ∧ gkr.next < gkr'.next := by
  have ub := varCreate_declares arith gkr .ub
  cases idx : gkr.pass.idxCompute with
  | true =>
      refine ⟨(varCreate (varCreate gkr .ub).2 .idx).2, some (.gkco (gkr.next + 1) .idx), _, ?_,
        ub.trans (varCreate_declares arith _ .idx), ?_⟩
      · simp [addDimension, preserving, varCreate, Shared.emit, idx]
      · simp only [varCreate, Shared.emit]
        omega
  | false =>
      refine ⟨(varCreate gkr .ub).2, none, _, ?_, ub, Nat.lt_succ_self _⟩
      simp [addDimension, preserving, varCreate, Shared.emit, idx]

/-- The frame after the ICM that splits: the size of the pieces, then their number -/
theorem exec_splitLast {major minor var : Var} {minorlen : Nat} (different : major ≠ minor)
    (frame : Frame) :
    (Icm.splitLast (.read major) (.read var) (.read minor) minorlen).exec arith frame =
      (arith.div (frame.vals major) minorlen).map fun u => (frame.set minor minorlen).set var u := by
  have same : (frame.set minor minorlen).vals major = frame.vals major :=
    Function.update_of_ne different _ _
  simp only [Icm.exec, Frame.assign, Opd.eval, Option.bind_eq_bind, Option.bind_some, same]
  cases arith.div (frame.vals major) minorlen <;> rfl

/-- Where an upper bound goes is not the variable just added. -/
theorem fresh_ne {a : Axis} {var : Var} {n : Nat} (tidy : Tidy ids0 vals0 gkr [a])
    (added : gkr.next ≤ n) (later : n < gkr'.next) (owned : Owned gkr' [a] (.read var)) :
    var ≠ .gkco n .ub := by
  rintro rfl
  rcases owned with own | ⟨m, fresh, same⟩
  · have own : .read (.gkco n .ub) = a.ub := List.mem_singleton.mp own
    rcases tidy.ubs a (by simp) with ⟨-, program⟩ | ⟨m, old, text⟩
    · obtain ⟨-, name, named⟩ := program _ own.symm
      cases named
    · rw [text] at own
      cases own
      omega
  · cases same
    omega

theorem Owned.written {axes axes' : List Axis} {var : Var} (owned : Owned gkr axes (.read var))
    (follows : Follows gkr gkr') (written : Written gkr' axes' var) : Written gkr axes var := by
  rcases follows.written written with tmp | fresh | ⟨isHost, -⟩
  · exact Or.inl tmp
  · exact Or.inr (Or.inl fresh)
  · rcases owned with own | ⟨n, fresh, same⟩
    · exact Or.inr (Or.inr ⟨isHost, own⟩)
    · exact Or.inr (Or.inl ⟨n, fresh, Opd.read.inj same⟩)

/-- `GKCOcompSplitLast` on the last dimension -/
theorem split_block {major minor : Axis} {minorlen : Nat} {added middle : Shared} {ubWrite : Opd}
    (tidy : Tidy ids0 vals0 gkr [major]) (preserving : gkr.pass.valConsume = false)
    (adds : addDimension gkr = some (added, minor))
    (fresh : newUpperboundVariable
      ((compPad minorlen added major).1.pushUb (compPad minorlen added major).2.ub)
      (compPad minorlen added major).2 = (ubWrite, middle)) :
    Block arith ids0 vals0 gkr [major]
      (middle.emit (.splitLast (compPad minorlen added major).2.ub ubWrite minor.ub minorlen))
      [{ (compPad minorlen added major).2 with ub := ubWrite }, minor]
      (fun es => es.head?.bind (splitExtent arith minorlen)) := by
  obtain ⟨_, idx, declares, adds', declared, next⟩ := addDimension_spec arith preserving
  obtain ⟨rfl, rfl⟩ := Prod.mk.inj (Option.some.inj (adds.symm.trans adds'))
  have tidyAdded := tidy.later declared.toFollows
  have padding : Block arith ids0 vals0 added [major] _ [_] _ := compPad_block tidyAdded minorlen
  -- the padded upper bound is in a variable other than that of the new dimension
  have pushed := pushUb_declares arith added major.ub
  obtain ⟨padVar, -, padded, padSpec, -, -, -, padOwned⟩ :=
    newUpperboundVariable_spec arith (tidyAdded.later pushed.toFollows)
  have padNe := fresh_ne tidy le_rfl (next.trans_le pushed.next) padOwned
  have padUb : (compPad minorlen added major).2.ub = .read padVar := by
    simp only [compPad, padSpec]
  generalize compPad minorlen added major = pad at *
  obtain ⟨first, major'⟩ := pad
  simp only at padding padUb fresh ⊢
  have push := pushUb_declares arith first major'.ub
  obtain ⟨var, declares', _, spec, declared', written, ⟨n, old, named⟩, owned⟩ :=
    newUpperboundVariable_spec arith (padding.tidy.later push.toFollows)
  obtain ⟨rfl, rfl⟩ := Prod.mk.inj (fresh.symm.trans spec)
  have started := declared.toFollows.trans padding.follows
  have follows := started.trans push.toFollows
  have varNe : var ≠ .gkco gkr.next .ub := by
    rcases owned with own | later
    · rw [List.map_singleton, List.mem_singleton, padUb] at own
      cases own
      exact padNe
    · exact fresh_ne tidy le_rfl (next.trans_le (padding.follows.next.trans push.next))
        (Or.inr later)
  have varOwned : Owned gkr [major] (.read var) := by
    rcases owned with own | later
    · rw [List.mem_singleton.mp own]
      exact declared.toFollows.owned (padding.owns major' (by simp))
    · exact follows.owned (Or.inr later)
  obtain ⟨code, padPrinted, computes⟩ := padding.runs
  refine
    { follows := (follows.trans declared'.toFollows).trans (emit_follows _ _)
      tidy := ?_
      owns := ?_
      runs := ⟨declares ++ (code ++ (declares' ++ [.splitLast (.read padVar) (.read var)
        (.read (.gkco gkr.next .ub)) minorlen])), ?_, ?_⟩ }
  · have helpers := (padding.tidy.later push.toFollows).later declared'.toFollows |>.helpers
    refine ⟨?_, ?_, fun _ => by simpa using varNe, helpers⟩
    · exact List.forall_mem_cons.mpr ⟨padding.tidy.texts major' (by simp),
        List.forall_mem_singleton.mpr ⟨program_num 0, one_texts⟩⟩
    · refine List.forall_mem_cons.mpr ⟨Or.inr ⟨n, old, congrArg Opd.read named⟩,
        List.forall_mem_singleton.mpr (Or.inr ⟨gkr.next, ?_, rfl⟩)⟩
      exact next.trans_le (padding.follows.next.trans (push.next.trans declared'.next))
  · exact List.forall_mem_cons.mpr ⟨varOwned,
      List.forall_mem_singleton.mpr (Or.inr ⟨gkr.next, le_rfl, rfl⟩)⟩
  · show middle.out ++ _ = _
    rw [declared'.printed, push.printed, padPrinted, declared.printed, padUb]
    simp
  · intro frame going
    have parts : ([major].map (extentOf frame.vals)).head?.bind (splitExtent arith minorlen) =
        (onOne (padExtent arith minorlen) ([major].map (extentOf frame.vals))).bind fun es =>
          es.head?.bind fun e => (arith.div e.ub minorlen).bind fun u =>
            some [{ e with ub := u }, ⟨constZero, constOne, constOne, minorlen⟩] := by
      simp only [List.map_singleton, List.head?_cons, Option.bind_some, splitExtent, onOne]
      cases padExtent arith minorlen (extentOf frame.vals major) <;> rfl
    rw [declared.silent, parts]
    refine (computes frame going).bind fun after es good => ?_
    obtain ⟨rfl, keeps⟩ := good
    have going' := keeps.going (written_unnamed tidyAdded) going
    have value : (extentOf after.vals major').ub = after.vals padVar := by
      rw [extentOf, padUb]
      rfl
    rw [declared'.silent, run_one going'.going, exec_splitLast padNe, List.map_singleton,
      List.head?_cons, Option.bind_some, value]
    cases arith.div (after.vals padVar) minorlen with
    | none => rfl
    | some u =>
        refine ⟨_, rfl, ?_, (keeps.weaken fun v => declared.toFollows.written).trans
          (((set_keeps _ _ _).weaken ?_).trans ((set_keeps _ _ _).weaken ?_))⟩
        · simp [extentOf, Opd.eval, Frame.set, varNe.symm]
        · rintro v rfl
          exact Or.inr (Or.inl ⟨gkr.next, le_rfl, rfl⟩)
        · rintro v rfl
          exact Owned.written varOwned follows written

end Lasts

section Loops

/-- A loop whose body is a block for its dimension, one step each -/
theorem loop_block {Entry : Type} (axisOf : Entry → Axis)
    (step : Entry → Extent → Option Extent)
    (body : Shared → Entry → Option (Shared × Axis))
    (each : ∀ gkr entry gkr' a', Tidy ids0 vals0 gkr [axisOf entry] →
      body gkr entry = some (gkr', a') →
      Block arith ids0 vals0 gkr [axisOf entry] gkr' [a'] (onOne (step entry)))
    (entries : List Entry) {axes' : List Axis} (tidy : Tidy ids0 vals0 gkr (entries.map axisOf))
    (compiled : loopDimensions body gkr entries = some (gkr', axes')) :
    Block arith ids0 vals0 gkr (entries.map axisOf) gkr' axes' (steps (entries.map step)) := by
  induction entries generalizing gkr axes' with
  | nil =>
      cases compiled
      exact Block.nil tidy
  | cons entry entries ih =>
      obtain ⟨⟨middle, a'⟩, first, rest⟩ := Option.bind_eq_some_iff.mp compiled
      obtain ⟨⟨last, as'⟩, later, equal⟩ := Option.bind_eq_some_iff.mp rest
      cases equal
      have head := each gkr entry middle a' (tidy.sublist (by simp)) first
      have tidyTail : Tidy ids0 vals0 middle (entries.map axisOf) :=
        (tidy.sublist (by simp)).later head.follows
      rw [List.map_cons, ← List.singleton_append] at tidy ⊢
      refine (Block.append tidy head (ih tidyTail later)).congr fun vals => ?_
      simp only [List.singleton_append, List.map_cons, steps, List.length_singleton,
        List.take_succ_cons, List.take_zero, List.drop_succ_cons, List.drop_zero, onOne,
        Option.bind_eq_bind]
      cases step entry (extentOf vals (axisOf entry)) with
      | none => rfl
      | some e => cases steps (entries.map step) ((entries.map axisOf).map (extentOf vals)) <;> rfl

theorem steps_map {Entry : Type} (step : Entry → Extent → Option Extent)
    (extent : Entry → Extent) (entries : List Entry) :
    steps (entries.map step) (entries.map extent) =
      entries.mapM fun entry => step entry (extent entry) := by
  induction entries with
  | nil => rfl
  | cons entry entries ih => simp [steps, ih, List.mapM_cons]

/-- A block of the last dimensions, with those before left alone -/
theorem last_block {front last last' : List Axis} {target : Change}
    (tidy : Tidy ids0 vals0 gkr (front ++ last))
    (block : Tidy ids0 vals0 gkr last → Block arith ids0 vals0 gkr last gkr' last' target) :
    Block arith ids0 vals0 gkr (front ++ last) gkr' (front ++ last')
      (fun es => (target (es.drop front.length)).map (es.take front.length ++ ·)) := by
  have idle : Block arith ids0 vals0 gkr front gkr front some :=
    { follows := Follows.refl gkr
      tidy := tidy.sublist (by simp)
      owns := fun a member => Or.inl (List.mem_map_of_mem member)
      runs := ⟨[], (List.append_nil _).symm, fun frame _ =>
        ⟨frame, rfl, rfl, Keeps.refl _ _⟩⟩ }
  exact Block.append tidy idle (block (tidy.sublist (by simp)))

end Loops

section Mappings

theorem comp_loop {Entry : Type} (axisOf : Entry → Axis) (step : Entry → Extent → Option Extent)
    (body : Shared → Entry → Option (Shared × Axis))
    (each : ∀ gkr entry gkr' a', Tidy ids0 vals0 gkr [axisOf entry] →
      body gkr entry = some (gkr', a') →
      Block arith ids0 vals0 gkr [axisOf entry] gkr' [a'] (onOne (step entry)))
    (entries : List Entry) {axes : List Axis} (whole : entries.map axisOf = axes)
    {res' : GpuKernelRes} (tidy : Tidy ids0 vals0 gkr axes)
    (compiled : (do
      let (shared, axes) ← loopDimensions body gkr entries
      some ({ shared with axes := axes } : GpuKernelRes)) = some res') :
    Block arith ids0 vals0 gkr axes res'.toShared res'.axes (steps (entries.map step)) := by
  obtain ⟨⟨shared, axes⟩, looped, equal⟩ := Option.bind_eq_some_iff.mp compiled
  cases equal
  subst whole
  exact loop_block axisOf step body each entries tidy looped

theorem permute_block {permutation : List Nat} {axes axes' : List Axis}
    (tidy : Tidy ids0 vals0 gkr axes) (perm : permutation.Perm (List.range permutation.length))
    (full : permutation.length = axes.length)
    (permuted : permuteStrvec permutation axes = some axes') :
    Block arith ids0 vals0 gkr axes gkr axes' (permuteStrvec permutation) := by
  have inAxes (a : Axis) (member : a ∈ axes') : a ∈ axes := permuted_mem permuted member
  exact
    { follows := Follows.refl gkr
      tidy :=
        { texts := fun a member => tidy.texts a (inAxes a member)
          ubs := fun a member => tidy.ubs a (inAxes a member)
          distinct := fun isHost =>
            ((permuted_perm perm full permuted).map _).nodup_iff.mpr (tidy.distinct isHost)
          helpers := tidy.helpers }
      owns := fun a member => Or.inl (List.mem_map_of_mem (inAxes a member))
      runs := ⟨[], (List.append_nil _).symm, fun frame _ => by
        rw [permuteStrvec_map _ permuted]
        exact ⟨frame, rfl, rfl, Keeps.refl _ _⟩⟩ }

theorem comp_block (exact : Exact arith) {mapping : Mapping} {res res' : GpuKernelRes}
    (tidy : Tidy ids0 vals0 res.toShared res.axes) (preserving : res.pass.valConsume = false)
    (checked : mapping.checkArgs = true) (compiled : mapping.comp res = some res') :
    Block arith ids0 vals0 res.toShared res.axes res'.toShared res'.axes
      (forward arith vals0 mapping) := by
  cases mapping with
  | shiftLB =>
      refine (comp_loop id (fun _ => shiftExtent arith vals0) compShiftLBDim
        (fun _ _ _ _ => compShiftLBDim_block) res.axes (List.map_id _) tidy compiled).congr
        fun vals => ?_
      rw [steps_map, forward, List.mapM_map]
      rfl
  | compressGrid shouldCompress =>
      simp only [Mapping.comp] at compiled
      split at compiled
      · cases compiled
      · next same =>
          have whole : (shouldCompress.zip res.axes).map Prod.snd = res.axes :=
            List.map_snd_zip (by omega)
          refine (comp_loop Prod.snd (fun entry e => compressExtent arith vals0 (entry.1, e))
            compCompressGridDim (fun _ _ _ _ => compCompressGridDim_block exact)
            (shouldCompress.zip res.axes) whole tidy compiled).congr fun vals => ?_
          have extents : (shouldCompress.zip res.axes).map (fun entry => extentOf vals entry.2) =
              res.axes.map (extentOf vals) := by
            conv_rhs => rw [← whole, List.map_map]
            rfl
          have loop := steps_map (fun entry e => compressExtent arith vals0 (entry.1, e))
            (fun entry => extentOf vals entry.2) (shouldCompress.zip res.axes)
          rw [extents] at loop
          rw [loop, forward, if_neg (by simpa using same), List.zip_map_right, List.mapM_map]
          rfl
  | pruneGrid =>
      refine (comp_loop id (fun _ e => some (pruneExtent e)) compPruneGridDim
        (fun _ _ _ _ => compPruneGridDim_block) res.axes (List.map_id _) tidy compiled).congr
        fun vals => ?_
      rw [steps_map, forward]
      exact (List.mapM_pure (m := Option)).symm ▸ (by simp)
  | permute permutation =>
      simp only [Mapping.comp] at compiled
      split at compiled
      · cases compiled
      · next same =>
          obtain ⟨axes, permuted, equal⟩ := Option.bind_eq_some_iff.mp compiled
          cases equal
          refine (permute_block tidy (checked_perm checked) (by simpa using same)
            permuted).congr fun vals => ?_
          rw [forward, if_neg (by simpa using same)]
  | foldLast2 =>
      simp only [Mapping.comp, compFoldLast2] at compiled
      obtain ⟨⟨front, major, minor⟩, split, rest⟩ := Option.bind_eq_some_iff.mp compiled
      obtain ⟨-, -, rest⟩ := Option.bind_eq_some_iff.mp rest
      obtain ⟨-, -, equal⟩ := Option.bind_eq_some_iff.mp rest
      cases equal
      have parts := lastTwo_eq_some.mp split
      rw [parts] at tidy ⊢
      refine (last_block tidy fun tidyLast => fold_block tidyLast rfl).congr fun vals => ?_
      rw [List.map_append, List.drop_left' (List.length_map _), List.take_left' (List.length_map _)]
      simp only [forward, List.map_cons, List.map_nil, lastTwo_eq_some.mpr rfl, onTwo,
        Option.bind_eq_bind, Option.bind_some]
      cases foldExtents arith (extentOf vals major) (extentOf vals minor) <;> rfl
  | splitLast minorlen =>
      simp only [Mapping.comp, compSplitLast] at compiled
      obtain ⟨⟨added, minor⟩, adds, rest⟩ := Option.bind_eq_some_iff.mp compiled
      obtain ⟨⟨front, major⟩, split, rest⟩ := Option.bind_eq_some_iff.mp rest
      obtain ⟨-, -, equal⟩ := Option.bind_eq_some_iff.mp rest
      cases equal
      have parts := lastOne_eq_some.mp split
      rw [parts] at tidy ⊢
      refine (last_block tidy fun tidyLast =>
        split_block tidyLast preserving adds rfl).congr fun vals => ?_
      rw [List.map_append, List.drop_left' (List.length_map _), List.take_left' (List.length_map _)]
      simp only [forward, List.map_cons, List.map_nil, lastOne_eq_some.mpr rfl, List.head?_cons,
        Option.bind_eq_bind, Option.bind_some]
      cases splitExtent arith minorlen (extentOf vals major) <;> rfl
  | padLast divisibility =>
      simp only [Mapping.comp] at compiled
      obtain ⟨⟨front, last⟩, split, equal⟩ := Option.bind_eq_some_iff.mp compiled
      cases equal
      have parts := lastOne_eq_some.mp split
      rw [parts] at tidy ⊢
      refine (last_block tidy fun tidyLast =>
        compPad_block tidyLast divisibility).congr fun vals => ?_
      rw [List.map_append, List.drop_left' (List.length_map _), List.take_left' (List.length_map _)]
      simp only [forward, List.map_cons, List.map_nil, lastOne_eq_some.mpr rfl, onOne,
        Option.bind_eq_bind, Option.bind_some]
      cases padExtent arith divisibility (extentOf vals last) <;> rfl

end Mappings

end Sac2c.MappingBlocks
