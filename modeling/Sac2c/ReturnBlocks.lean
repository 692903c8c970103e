import Sac2c.MappingBlocks

/-!
The code that the third pass prints, in blocks. A block takes the index variables
of the dimensions after a mapping to those before it, as `back` does, and otherwise
makes the thread drop out: it returns, or where branches are avoided the collector
is set, and it stays set. Blocks compose along the pragma.
-/

namespace Sac2c.ReturnBlocks

open GpuKernel ThreadSpaces Reindexing StrvecPermutations KernelBlocks MappingBlocks

section Undoes

/-- An index variable of the program or one that a pass added -/
def IdxVar (ids0 : List Var) (var : Var) : Prop := var ∈ ids0 ∨ ∃ n, var = .gkco n .idx

/-- Apart from the index variables and the collector, `ret` if there is one, the
variables are as the second pass left them. -/
structure Agrees (ids0 : List Var) (ret : Option Var) (vals1 : Var → Int) (frame : Frame) :
    Prop where
  vals : ∀ var, ¬ IdxVar ids0 var → (∀ r, ret = some r → var ≠ r) → frame.vals var = vals1 var

def Alive (ret : Option Var) (frame : Frame) : Prop :=
  frame.returned = false ∧ ∀ r, ret = some r → frame.vals r = 0

def Gone (ret : Option Var) (frame : Frame) : Prop :=
  frame.returned = true ∨ ∃ r, ret = some r ∧ frame.vals r = 1

/-- The thread is alive with these values in its index variables, or gone. -/
def Lands (ret : Option Var) (ids : List Var) (frame : Frame) : Option (List Int) → Prop
  | some vector => Alive ret frame ∧ ids.map frame.vals = vector
  | none => Gone ret frame

structure Undoes (ids0 : List Var) (ret : Option Var) (vals1 : Var → Int) (ids : List Var)
    (undo : List Int → Option (List Int)) (ids' : List Var) (code : List Icm) : Prop where
  lands : ∀ frame, Agrees ids0 ret vals1 frame → Alive ret frame →
    ∃ after, run device frame code = some after ∧ Agrees ids0 ret vals1 after ∧
      Lands ret ids' after (undo (ids.map frame.vals))
  stays : ∀ frame, Agrees ids0 ret vals1 frame → Gone ret frame →
    ∃ after, run device frame code = some after ∧ Agrees ids0 ret vals1 after ∧ Gone ret after

/-- Code that writes only these variables and the collector -/
def Touches (ret : Option Var) (ids : List Var) (code : List Icm) : Prop :=
  ∀ frame after, run device frame code = some after → ∀ var ∉ ids,
    (∀ r, ret = some r → var ≠ r) → after.vals var = frame.vals var

variable {ids0 : List Var} {ret : Option Var} {vals1 : Var → Int}
  {ids ids' ids'' : List Var} {undo undo' : List Int → Option (List Int)} {code code' : List Icm}

theorem Undoes.congr (block : Undoes ids0 ret vals1 ids undo ids' code)
    (same : ∀ vector : List Int, vector.length = ids.length → undo' vector = undo vector) :
    Undoes ids0 ret vals1 ids undo' ids' code where
  lands frame agrees alive := by
    rw [same _ (List.length_map _)]
    exact block.lands frame agrees alive
  stays := block.stays

theorem Undoes.nil (same : ∀ vals : Var → Int, undo (ids.map vals) = some (ids'.map vals)) :
    Undoes ids0 ret vals1 ids undo ids' [] where
  lands frame agrees alive := by
    rw [same]
    exact ⟨frame, rfl, agrees, alive, rfl⟩
  stays frame agrees gone := ⟨frame, rfl, agrees, gone⟩

/-- One mapping undone after another -/
theorem Undoes.comp (first : Undoes ids0 ret vals1 ids undo ids' code)
    (second : Undoes ids0 ret vals1 ids' undo' ids'' code') :
    Undoes ids0 ret vals1 ids (fun vector => (undo vector).bind undo') ids'' (code ++ code') where
  lands frame agrees alive := by
    obtain ⟨middle, ran, agrees', landed⟩ := first.lands frame agrees alive
    cases result : undo (ids.map frame.vals) with
    | none =>
        rw [result] at landed
        obtain ⟨after, ran', agrees'', gone⟩ := second.stays middle agrees' landed
        exact ⟨after, by rw [run_append, ran, Option.bind_some, ran'], agrees'', gone⟩
    | some vector =>
        rw [result] at landed
        obtain ⟨alive', values⟩ := landed
        obtain ⟨after, ran', agrees'', landed⟩ := second.lands middle agrees' alive'
        rw [values] at landed
        exact ⟨after, by rw [run_append, ran, Option.bind_some, ran'], agrees'', landed⟩
  stays frame agrees gone := by
    obtain ⟨middle, ran, agrees', gone'⟩ := first.stays frame agrees gone
    obtain ⟨after, ran', agrees'', gone''⟩ := second.stays middle agrees' gone'
    exact ⟨after, by rw [run_append, ran, Option.bind_some, ran'], agrees'', gone''⟩

theorem Touches.nil : Touches ret ids [] := by
  intro frame after ran var _ _
  cases ran
  rfl

theorem Touches.append (first : Touches ret ids code) (second : Touches ret ids' code') :
    Touches ret (ids ++ ids') (code ++ code') := by
  intro frame after ran var outside notRet
  rw [run_append] at ran
  obtain ⟨middle, ran, ran'⟩ := Option.bind_eq_some_iff.mp ran
  rw [List.mem_append, not_or] at outside
  exact (second middle after ran' var outside.2 notRet).trans
    (first frame middle ran var outside.1 notRet)

theorem Touches.weaken (touches : Touches ret ids code) (more : ∀ v ∈ ids, v ∈ ids') :
    Touches ret ids' code :=
  fun frame after ran var outside notRet =>
    touches frame after ran var (fun member => outside (more var member)) notRet

/-- The dimensions after the first are undone before it. -/
theorem Undoes.cons {id : Var} {back : Int → Option Int}
    (head : Undoes ids0 ret vals1 [id] (mapBacks (fun _ => back) [()]) [id] code)
    (tail : Undoes ids0 ret vals1 ids undo ids code') (touches : Touches ret [id] code)
    (touches' : Touches ret ids code') (fresh : id ∉ ids) (notRet : ∀ v ∈ id :: ids, ret ≠ some v) :
    Undoes ids0 ret vals1 (id :: ids) (consBack back undo) (id :: ids) (code' ++ code) where
  lands frame agrees alive := by
    obtain ⟨middle, ran, agrees', landed⟩ := tail.lands frame agrees alive
    have kept : middle.vals id = frame.vals id :=
      touches' frame middle ran id fresh fun r isRet same =>
        notRet id (List.mem_cons_self ..) (same ▸ isRet)
    cases result : undo (ids.map frame.vals) with
    | none =>
        rw [result] at landed
        obtain ⟨after, ran', agrees'', gone⟩ := head.stays middle agrees' landed
        refine ⟨after, by rw [run_append, ran, Option.bind_some, ran'], agrees'', ?_⟩
        simp only [List.map_cons, consBack, result, Option.bind_eq_bind, Option.bind_none,
          Option.bind_fun_none]
        exact gone
    | some vector =>
        rw [result] at landed
        obtain ⟨alive', values⟩ := landed
        obtain ⟨after, ran', agrees'', landed⟩ := head.lands middle agrees' alive'
        refine ⟨after, by rw [run_append, ran, Option.bind_some, ran'], agrees'', ?_⟩
        rw [List.map_singleton, mapBacks_one, kept] at landed
        simp only [List.map_cons, consBack, result, Option.bind_eq_bind, Option.bind_some]
        cases result' : back (frame.vals id) with
        | none =>
            rw [result'] at landed
            exact landed
        | some j =>
            rw [result'] at landed
            refine ⟨landed.1, ?_⟩
            have others : ids.map after.vals = ids.map middle.vals := by
              apply List.map_congr_left
              intro v member
              refine touches middle after ran' v ?_ fun r isRet same =>
                notRet v (List.mem_cons_of_mem _ member) (same ▸ isRet)
              intro same
              rw [List.mem_singleton.mp same] at member
              exact fresh member
            have this : after.vals id = j := (List.cons.inj landed.2).1
            rw [List.map_cons, this, others, values]
  stays frame agrees gone := by
    obtain ⟨middle, ran, agrees', gone'⟩ := tail.stays frame agrees gone
    obtain ⟨after, ran', agrees'', gone''⟩ := head.stays middle agrees' gone'
    exact ⟨after, by rw [run_append, ran, Option.bind_some, ran'], agrees'', gone''⟩

/-- The dimensions before the last keep their index variables. -/
theorem Undoes.front {front : List Var} (block : Undoes ids0 ret vals1 ids undo ids' code)
    (touches : Touches ret (ids ++ ids') code) (fresh : ∀ v ∈ front, v ∉ ids ++ ids')
    (notRet : ∀ v ∈ front, ret ≠ some v) :
    Undoes ids0 ret vals1 (front ++ ids) (onLast front.length undo) (front ++ ids') code where
  lands frame agrees alive := by
    obtain ⟨after, ran, agrees', landed⟩ := block.lands frame agrees alive
    have kept : front.map after.vals = front.map frame.vals := by
      apply List.map_congr_left
      intro v member
      exact touches frame after ran v (fresh v member) fun r isRet same =>
        notRet v member (same ▸ isRet)
    refine ⟨after, ran, agrees', ?_⟩
    rw [List.map_append, onLast_append (List.length_map _)]
    cases result : undo (ids.map frame.vals) with
    | none =>
        rw [result] at landed
        exact landed
    | some vector =>
        rw [result] at landed
        exact ⟨landed.1, by rw [List.map_append, kept, landed.2]⟩
  stays := block.stays

end Undoes

section Icms

/-- The names that the passes and the program give to indices and to the collector -/
structure Setting (ids0 : List Var) (ret : Option Var) : Prop where
  indices : ∀ v ∈ ids0, ∃ name, v = .named name
  collector : ∀ r, ret = some r → ∃ n, r = .gkco n .retCol

variable {ids0 : List Var} {ret : Option Var} {vals1 : Var → Int} {id : Var}

theorem Setting.notRet (setting : Setting ids0 ret) (isIdx : IdxVar ids0 id) :
    ret ≠ some id := by
  intro same
  obtain ⟨n, rfl⟩ := setting.collector id same
  rcases isIdx with listed | ⟨m, equal⟩
  · obtain ⟨name, equal⟩ := setting.indices _ listed
    cases equal
  · cases equal

/-- A text of a dimension that the third pass does not change -/
def Steady (ids0 : List Var) (opd : Opd) : Prop :=
  Program ids0 opd ∨ ∃ n, opd = .read (.gkco n .ub)

theorem Setting.eval (setting : Setting ids0 ret) {frame : Frame}
    (agrees : Agrees ids0 ret vals1 frame) {opd : Opd} (steady : Steady ids0 opd) :
    opd.eval frame.vals = opd.eval vals1 := by
  cases opd with
  | num value => rfl
  | read var =>
      apply agrees.vals var
      · rcases steady with program | ⟨n, equal⟩
        · obtain ⟨outside, name, rfl⟩ := program var rfl
          rintro (listed | ⟨m, equal⟩)
          · exact outside listed
          · cases equal
        · cases equal
          rintro (listed | ⟨m, equal⟩)
          · obtain ⟨name, equal⟩ := setting.indices _ listed
            cases equal
          · cases equal
      · rintro r isRet rfl
        obtain ⟨m, rfl⟩ := setting.collector _ isRet
        rcases steady with program | ⟨n, equal⟩
        · obtain ⟨-, name, equal⟩ := program _ rfl
          cases equal
        · cases equal

/-- The texts of lower bounds, steps and widths mean what they meant at the start. -/
theorem Setting.evalText (setting : Setting ids0 ret) {vals0 : Var → Int} {frame : Frame}
    (agrees : Agrees ids0 ret vals1 frame) (same : ∀ name, vals1 (.named name) = vals0 (.named name))
    {opd : Opd} (program : Program ids0 opd) : opd.eval frame.vals = opd.eval vals0 :=
  (setting.eval agrees (Or.inl program)).trans (program.eval same)

theorem Agrees.set {frame : Frame} (agrees : Agrees ids0 ret vals1 frame)
    (isIdx : IdxVar ids0 id) (value : Int) : Agrees ids0 ret vals1 (frame.set id value) where
  vals var notIdx notRet := by
    have different : var ≠ id := fun same => notIdx (same ▸ isIdx)
    exact (Function.update_of_ne different _ _).trans (agrees.vals var notIdx notRet)

/-- A block of one dimension that touches only its index variable -/
def UndoesDim (ids0 : List Var) (ret : Option Var) (vals1 : Var → Int) (id : Var)
    (back : Int → Option Int) (code : List Icm) : Prop :=
  Undoes ids0 ret vals1 [id] (mapBacks (fun _ => back) [()]) [id] code ∧ Touches ret [id] code

theorem UndoesDim.nil {back : Int → Option Int} (same : ∀ i, back i = some i) :
    UndoesDim ids0 ret vals1 id back [] :=
  ⟨Undoes.nil fun vals => by rw [List.map_singleton, mapBacks_one, same]; rfl, Touches.nil⟩

/-- An ICM that always runs and writes only index variables and the collector -/
theorem undoes_of_exec {ids ids' written : List Var} {icm : Icm}
    {move : List Int → Option (List Int)} (result : Frame → Frame)
    (isIdx : ∀ v ∈ written, IdxVar ids0 v)
    (exec : ∀ frame, icm.exec device frame = some (result frame))
    (others : ∀ frame, ∀ v ∉ written, (∀ r, ret = some r → v ≠ r) →
      (result frame).vals v = frame.vals v)
    (stays : ∀ frame, Gone ret frame → Gone ret (result frame))
    (lands : ∀ frame, Agrees ids0 ret vals1 frame → Alive ret frame →
      Lands ret ids' (result frame) (move (ids.map frame.vals))) :
    Undoes ids0 ret vals1 ids move ids' [icm] ∧ Touches ret written [icm] := by
  have agreesAfter (frame : Frame) (agrees : Agrees ids0 ret vals1 frame) :
      Agrees ids0 ret vals1 (result frame) :=
    ⟨fun var notIdx notRet => (others frame var (fun member => notIdx (isIdx var member))
      notRet).trans (agrees.vals var notIdx notRet)⟩
  refine ⟨⟨?_, ?_⟩, ?_⟩
  · intro frame agrees alive
    exact ⟨_, by rw [run_one alive.1, exec], agreesAfter frame agrees, lands frame agrees alive⟩
  · intro frame agrees gone
    cases done : frame.returned with
    | true => exact ⟨frame, run_returned done, agrees, gone⟩
    | false => exact ⟨_, by rw [run_one done, exec], agreesAfter frame agrees, stays frame gone⟩
  · intro frame after ran var outside notRet
    cases done : frame.returned with
    | true =>
        rw [run_returned done] at ran
        cases ran
        rfl
    | false =>
        rw [run_one done, exec] at ran
        cases ran
        exact others frame var outside notRet

/-- An ICM that only moves index variables -/
theorem undoes_of_move (setting : Setting ids0 ret) {ids ids' written : List Var} {icm : Icm}
    (result : Frame → Frame) (move : List Int → Option (List Int))
    (isIdx : ∀ v ∈ written, IdxVar ids0 v)
    (exec : ∀ frame, icm.exec device frame = some (result frame))
    (returned : ∀ frame, (result frame).returned = frame.returned)
    (others : ∀ frame, ∀ v ∉ written, (result frame).vals v = frame.vals v)
    (values : ∀ frame, Agrees ids0 ret vals1 frame →
      move (ids.map frame.vals) = some (ids'.map (result frame).vals)) :
    Undoes ids0 ret vals1 ids move ids' [icm] ∧ Touches ret written [icm] := by
  have collector (frame : Frame) (r : Var) (isRet : ret = some r) :
      (result frame).vals r = frame.vals r :=
    others frame r fun member => setting.notRet (isIdx r member) isRet
  refine undoes_of_exec result isIdx exec (fun frame v outside _ => others frame v outside) ?_ ?_
  · rintro frame (isDone | ⟨r, isRet, set⟩)
    · exact Or.inl ((returned frame).trans isDone)
    · exact Or.inr ⟨r, isRet, (collector frame r isRet).trans set⟩
  · intro frame agrees alive
    rw [values frame agrees]
    exact ⟨⟨(returned frame).trans alive.1, fun r isRet =>
      (collector frame r isRet).trans (alive.2 r isRet)⟩, rfl⟩

/-- An ICM that computes the index anew -/
theorem UndoesDim.move (setting : Setting ids0 ret) (isIdx : IdxVar ids0 id) {icm : Icm}
    (value : Frame → Int) (move : Int → Int)
    (exec : ∀ frame, icm.exec device frame = some (frame.set id (value frame)))
    (computes : ∀ frame, Agrees ids0 ret vals1 frame → value frame = move (frame.vals id)) :
    UndoesDim ids0 ret vals1 id (fun i => some (move i)) [icm] := by
  refine undoes_of_move setting (fun frame => frame.set id (value frame)) _ ?_ exec ?_ ?_ ?_
  · simpa using isIdx
  · exact fun frame => rfl
  · intro frame v outside
    exact Function.update_of_ne (by simpa using outside) _ _
  · intro frame agrees
    rw [List.map_singleton, mapBacks_one]
    simp [Frame.set, computes frame agrees]

/-- What becomes of a thread that meets the condition to drop out -/
def drop (ret : Option Var) (frame : Frame) (condition : Prop) [Decidable condition] : Frame :=
  match ret with
  | none => if condition then { frame with returned := true } else frame
  | some r => frame.collect r condition

section Drop

variable {frame : Frame} {condition : Prop} [Decidable condition]

theorem drop_vals {var : Var} (notRet : ∀ r, ret = some r → var ≠ r) :
    (drop ret frame condition).vals var = frame.vals var := by
  cases ret with
  | none =>
      simp only [drop]
      split <;> rfl
  | some r => exact Function.update_of_ne (notRet r rfl) _ _

theorem drop_gone (alive : Alive ret frame) (holds : condition) :
    Gone ret (drop ret frame condition) := by
  cases ret with
  | none =>
      rw [drop, if_pos holds]
      exact Or.inl rfl
  | some r =>
      refine Or.inr ⟨r, rfl, ?_⟩
      have zero := alive.2 r rfl
      simp only [drop, Frame.collect, Frame.set, Function.update_self, zero, truth, if_pos holds]
      rfl

theorem drop_alive (alive : Alive ret frame) (holds : ¬ condition) :
    Alive ret (drop ret frame condition) := by
  cases ret with
  | none =>
      rw [drop, if_neg holds]
      exact alive
  | some r =>
      refine ⟨alive.1, fun r' same => ?_⟩
      cases same
      have zero := alive.2 r rfl
      simp only [drop, Frame.collect, Frame.set, Function.update_self, zero, truth, if_neg holds]
      rfl

theorem drop_stays (gone : Gone ret frame) : Gone ret (drop ret frame condition) := by
  cases ret with
  | none =>
      rcases gone with returned | ⟨r, none, -⟩
      · simp only [drop]
        split
        · exact Or.inl rfl
        · exact Or.inl returned
      · cases none
  | some r =>
      rcases gone with returned | ⟨r', same, set⟩
      · exact Or.inl returned
      · cases same
        refine Or.inr ⟨r, rfl, ?_⟩
        simp only [drop, Frame.collect, Frame.set, Function.update_self, set, truth]
        split <;> rfl

end Drop

/-- An ICM that makes some threads drop out -/
theorem UndoesDim.filter (setting : Setting ids0 ret) (isIdx : IdxVar ids0 id) {icm : Icm}
    (leaves : Frame → Prop) [DecidablePred leaves] (out : Int → Prop) [DecidablePred out]
    (exec : ∀ frame, icm.exec device frame = some (drop ret frame (leaves frame)))
    (decides : ∀ frame, Agrees ids0 ret vals1 frame → (leaves frame ↔ out (frame.vals id))) :
    UndoesDim ids0 ret vals1 id (fun i => if out i then none else some i) [icm] := by
  refine undoes_of_exec (fun frame => drop ret frame (leaves frame)) (by simpa using isIdx) exec
    (fun frame v _ => drop_vals) (fun frame => drop_stays) fun frame agrees alive => ?_
  rw [List.map_singleton, mapBacks_one]
  by_cases holds : leaves frame
  · rw [if_pos ((decides frame agrees).mp holds)]
    exact drop_gone alive holds
  · rw [if_neg fun isOut => holds ((decides frame agrees).mpr isOut)]
    refine ⟨drop_alive alive holds, ?_⟩
    have kept : (drop ret frame (leaves frame)).vals id = frame.vals id :=
      drop_vals fun r isRet same => setting.notRet isIdx (by rw [isRet, same])
    rw [List.map_singleton, kept]

theorem UndoesDim.congr {back back' : Int → Option Int} {code : List Icm}
    (block : UndoesDim ids0 ret vals1 id back code) (same : ∀ i, back' i = back i) :
    UndoesDim ids0 ret vals1 id back' code := by
  rw [show back' = back from funext same]
  exact block

end Icms

section Dimensions

variable {ids0 : List Var} {ret : Option Var} {vals0 vals1 : Var → Int} {gkr gkr' h : Shared}

/-- A third pass -/
structure Consumes (ret : Option Var) (h : Shared) : Prop where
  consume : h.pass.valConsume = true
  preserve : h.pass.valPreserve = false
  compute : h.pass.idxCompute = true
  branchless : h.pass.branchless = ret.isSome
  collector : ret.isSome = true → h.returnCollector = ret

/-- What the third pass leaves when it has undone a step of the second -/
def restored (h gkr : Shared) (code : List Icm) : Shared :=
  { h with toStacks := gkr.toStacks, out := h.out ++ code }

theorem restored_restored (h first second : Shared) (code code' : List Icm) :
    restored (restored h first code) second code' = restored h second (code ++ code') := by
  simp [restored]

theorem Consumes.restored (consumes : Consumes ret h) (gkr : Shared) (code : List Icm) :
    Consumes ret (restored h gkr code) :=
  ⟨consumes.consume, consumes.preserve, consumes.compute, consumes.branchless, consumes.collector⟩

theorem device_norm (value : Int) : device.norm value = some (wrap value) := rfl

theorem device_div (a b : Int) : device.div a b = some (devDiv a b) := by
  unfold Arith.div devDiv
  split <;> rfl

theorem device_mod (a b : Int) : device.mod a b = some (devMod a b) := by
  unfold Arith.mod devMod
  split <;> rfl

/-- The ICMs with which a thread may drop out, with and without a branch -/
def unstepwidthIcm (ret : Option Var) (a : Axis) (id : Var) : Icm :=
  match ret with
  | none => .unstepwidth a.lb a.st a.wi id
  | some r => .unstepwidthBL a.lb a.st a.wi id r

def unpadIcm (ret : Option Var) (ub : Opd) (id : Var) : Icm :=
  match ret with
  | none => .unpad ub id
  | some r => .unpadBL ub id r

theorem exec_unstepwidthIcm (ret : Option Var) (a : Axis) (id : Var) (frame : Frame) :
    (unstepwidthIcm ret a id).exec device frame = some (drop ret frame
      (¬ devMod (frame.vals id) (a.st.eval frame.vals) < a.wi.eval frame.vals)) := by
  cases ret with
  | none =>
      simp only [unstepwidthIcm, Icm.exec, device_mod, Option.bind_eq_bind, Option.bind_some, drop,
        ite_not]
      split <;> rfl
  | some r => simp only [unstepwidthIcm, Icm.exec, device_mod, Option.bind_eq_bind,
      Option.bind_some, drop]

theorem exec_unpadIcm (ret : Option Var) (ub : Opd) (id : Var) (frame : Frame) :
    (unpadIcm ret ub id).exec device frame =
      some (drop ret frame (ub.eval frame.vals ≤ frame.vals id)) := by
  cases ret with
  | none =>
      simp only [unpadIcm, Icm.exec, drop]
      split <;> rfl
  | some r => rfl

theorem newUpperboundVariable_stacks (gkr : Shared) (a : Axis) :
    (newUpperboundVariable gkr a).2.toStacks = gkr.toStacks := by
  unfold newUpperboundVariable
  split <;> rfl

theorem Tidy.steady {axes : List Axis} (tidy : Tidy ids0 vals0 gkr axes) {a : Axis}
    (member : a ∈ axes) : Steady ids0 a.ub := by
  rcases tidy.ubs a member with ⟨-, program⟩ | ⟨n, -, text⟩
  · exact Or.inl program
  · exact Or.inr ⟨n, text⟩

/-- What a body of the second pass leaves, and the third pass undoing it in one dimension -/
structure Inverted (ids0 : List Var) (ret : Option Var) (vals1 : Var → Int) (gkr : Shared)
    (a : Axis) (gkr' : Shared) (a' : Axis) (inverse : Shared → Option (Shared × Axis))
    (back : Int → Option Int) : Prop where
  follows : Follows gkr gkr'
  idx_eq : a'.idx = a.idx
  idxAt_eq : gkr'.idxAt = gkr.idxAt
  undoes : ∀ h id, Consumes ret h → h.toStacks = gkr'.toStacks → a.idx = some id →
    IdxVar ids0 id → ∃ code, inverse h = some (restored h gkr code, a) ∧
      UndoesDim ids0 ret vals1 id back code

section Bodies

variable (setting : Setting ids0 ret) (same : ∀ name, vals1 (.named name) = vals0 (.named name))
  (preserve : gkr.pass.valPreserve = true) {a a' : Axis} (tidy : Tidy ids0 vals0 gkr [a])

include setting same preserve tidy

theorem compShiftLBDim_inverted (compiled : compShiftLBDim gkr a = some (gkr', a')) :
    Inverted ids0 ret vals1 gkr a gkr' a' (fun h => compInvShiftLBDim h a')
      (unshift vals0 (extentOf vals1 a)) := by
  have block : Block device ids0 vals0 gkr [a] gkr' [a'] _ := compShiftLBDim_block tidy compiled
  obtain ⟨pushed, texts⟩ : gkr'.toStacks = { gkr.toStacks with
      lowerboundAt := a.lb :: gkr.lowerboundAt, upperboundAt := a.ub :: gkr.upperboundAt } ∧
      a = { a' with lb := a.lb, ub := a.ub } := by
    simp only [compShiftLBDim] at compiled
    split at compiled <;> cases compiled <;>
      simp [Shared.emit, newUpperboundVariable_stacks, Shared.pushLb, Shared.pushUb, preserve]
  refine ⟨block.follows, (congrArg Axis.idx texts).symm, by rw [pushed], ?_⟩
  intro h id consumes kept indexed isIdx
  obtain ⟨lbText, -⟩ := tidy.texts a (by simp)
  have popped : compInvShiftLBDim h a' =
      if a.lb = constZero then some (restored h gkr [], a)
      else some (restored h gkr [.unshiftLB a.lb id], a) := by
    simp only [compInvShiftLBDim, Shared.popLb, Shared.popUb, consumes.consume, if_true,
      kept, pushed, Option.bind_eq_bind, Option.bind_some, ← texts, indexed, restored,
      Shared.emit, List.append_nil]
  rw [popped]
  split
  · next zero =>
      exact ⟨[], rfl, UndoesDim.nil fun i => by simp [unshift, extentOf, zero]⟩
  · next nonzero =>
      refine ⟨_, rfl, ?_⟩
      refine (UndoesDim.move setting isIdx (fun frame => wrap (frame.vals id + a.lb.eval frame.vals))
        (fun i => wrap (i + a.lb.eval vals0)) (fun frame => rfl) ?_).congr ?_
      · intro frame agrees
        rw [setting.evalText agrees same lbText]
      · intro i
        simp [unshift, extentOf, nonzero]

theorem compCompressGridDim_inverted {flag : Bool}
    (compiled : compCompressGridDim gkr (flag, a) = some (gkr', a')) :
    Inverted ids0 ret vals1 gkr a gkr' a' (fun h => compInvCompressGridDim h (flag, a'))
      (uncompress vals0 (flag, extentOf vals1 a)) := by
  have block := compCompressGridDim_block device_exact tidy compiled
  obtain ⟨pushed, texts⟩ : gkr'.toStacks = { gkr.toStacks with
      upperboundAt := a.ub :: gkr.upperboundAt, stepAt := a.st :: gkr.stepAt,
      widthAt := a.wi :: gkr.widthAt } ∧ a = { a' with ub := a.ub, st := a.st, wi := a.wi } := by
    have saved : (((gkr.pushUb a.ub).pushSt a.st).pushWi a.wi).toStacks = { gkr.toStacks with
        upperboundAt := a.ub :: gkr.upperboundAt, stepAt := a.st :: gkr.stepAt,
        widthAt := a.wi :: gkr.widthAt } := by
      simp [Shared.pushUb, Shared.pushSt, Shared.pushWi, preserve]
    simp only [compCompressGridDim] at compiled
    split at compiled
    · cases compiled
      exact ⟨saved, rfl⟩
    · obtain ⟨-, -, compiled⟩ := Option.bind_eq_some_iff.mp compiled
      split at compiled
      · cases compiled
        exact ⟨saved, rfl⟩
      · cases compiled
        exact ⟨by simp only [Shared.emit, newUpperboundVariable_stacks, saved], rfl⟩
  refine ⟨block.follows, (congrArg Axis.idx texts).symm, by rw [pushed], ?_⟩
  intro h id consumes kept indexed isIdx
  obtain ⟨-, stText, wiText, -⟩ := tidy.texts a (by simp)
  have popped : compInvCompressGridDim h (flag, a') =
      if !flag then some (restored h gkr [], a)
      else if a.st = constOne then some (restored h gkr [], a)
      else if a.wi = constOne then some (restored h gkr [.uncompressS a.st id], a)
      else some (restored h gkr [.uncompressSW a.st a.wi id], a) := by
    simp only [compInvCompressGridDim, Shared.popUb, Shared.popSt, Shared.popWi,
      consumes.consume, if_true, kept, pushed, Option.bind_eq_bind, Option.bind_some, ← texts,
      indexed, restored, Shared.emit, List.append_nil]
  rw [popped]
  split
  · next off => exact ⟨[], rfl, UndoesDim.nil fun i => by simp [uncompress, off]⟩
  · next on =>
      split
      · next one => exact ⟨[], rfl, UndoesDim.nil fun i => by simp [uncompress, extentOf, one]⟩
      · next more =>
          split
          · next narrow =>
              refine ⟨_, rfl, (UndoesDim.move setting isIdx
                (fun frame => wrap (frame.vals id * a.st.eval frame.vals))
                (fun i => wrap (i * a.st.eval vals0)) (fun frame => rfl) ?_).congr ?_⟩
              · intro frame agrees
                rw [setting.evalText agrees same stText]
              · intro i
                simp [uncompress, extentOf, on, more, narrow]
          · next wide =>
              refine ⟨_, rfl, (UndoesDim.move setting isIdx
                (fun frame => uncompressed (a.st.eval frame.vals) (a.wi.eval frame.vals)
                  (frame.vals id))
                (uncompressed (a.st.eval vals0) (a.wi.eval vals0)) ?_ ?_).congr ?_⟩
              · intro frame
                simp only [Icm.exec, device_div, device_mod, device_norm, Option.bind_eq_bind,
                  Option.bind_some, uncompressed]
              · intro frame agrees
                rw [setting.evalText agrees same stText, setting.evalText agrees same wiText]
              · intro i
                simp [uncompress, extentOf, on, more, wide]

theorem compPruneGridDim_inverted (compiled : compPruneGridDim gkr a = some (gkr', a')) :
    Inverted ids0 ret vals1 gkr a gkr' a' (fun h => compInvPruneGridDim h a')
      (unprune vals0 (extentOf vals1 a)) := by
  have block : Block device ids0 vals0 gkr [a] gkr' [a'] _ := compPruneGridDim_block tidy compiled
  obtain ⟨-, -, compiled⟩ := Option.bind_eq_some_iff.mp compiled
  cases compiled
  refine ⟨block.follows, rfl, by simp [Shared.pushSt, Shared.pushWi, preserve], ?_⟩
  intro h id consumes kept indexed isIdx
  obtain ⟨-, stText, wiText, -⟩ := tidy.texts a (by simp)
  simp only [Shared.pushSt, Shared.pushWi, preserve, if_true] at kept
  have popped : compInvPruneGridDim h { a with st := constOne, wi := constOne } =
      if a.st = constOne then some (restored h gkr [], a)
      else some (restored h gkr [unstepwidthIcm ret a id], a) := by
    obtain ⟨lb, ub, st, wi, idx⟩ := a
    cases indexed
    have branchless := consumes.branchless
    simp only [compInvPruneGridDim, Shared.popSt, Shared.popWi, consumes.consume, if_true, kept,
      Option.bind_eq_bind, Option.bind_some, restored, Shared.emit, List.append_nil]
    cases ret with
    | none => simp only [branchless, Option.isSome_none, Bool.false_eq_true, if_false,
        unstepwidthIcm]
    | some r => simp only [branchless, Option.isSome_some, if_true, consumes.collector rfl,
        Option.bind_some, unstepwidthIcm]
  rw [popped]
  split
  · next one => exact ⟨[], rfl, UndoesDim.nil fun i => by simp [unprune, extentOf, one]⟩
  · next more =>
      refine ⟨_, rfl, (UndoesDim.filter setting isIdx
        (fun frame => ¬ devMod (frame.vals id) (a.st.eval frame.vals) < a.wi.eval frame.vals)
        (fun i => ¬ devMod i (a.st.eval vals0) < a.wi.eval vals0) ?_ ?_).congr ?_⟩
      · exact exec_unstepwidthIcm ret a id
      · intro frame agrees
        rw [setting.evalText agrees same stText, setting.evalText agrees same wiText]
      · intro i
        by_cases inGrid : devMod i (a.st.eval vals0) < a.wi.eval vals0 <;>
          simp [unprune, extentOf, more, inGrid]

omit same

theorem compPad_inverted {divisibility : Nat} (compiled : compPad divisibility gkr a = (gkr', a')) :
    Inverted ids0 ret vals1 gkr a gkr' a' (fun h => compInvPad h a') (unpad (extentOf vals1 a)) := by
  obtain ⟨rfl, rfl⟩ := Prod.ext_iff.mp compiled
  have texts : a = { (compPad divisibility gkr a).2 with ub := a.ub } := rfl
  have pushed : (compPad divisibility gkr a).1.toStacks =
      { gkr.toStacks with upperboundAt := a.ub :: gkr.upperboundAt } := by
    simp only [compPad, Shared.emit, newUpperboundVariable_stacks]
    simp [Shared.pushUb, preserve]
  have block : Block device ids0 vals0 gkr [a] _ [_] _ := compPad_block tidy divisibility
  refine ⟨block.follows, rfl, by rw [pushed], ?_⟩
  intro h id consumes kept indexed isIdx
  rw [pushed] at kept
  generalize (compPad divisibility gkr a).2 = a' at *
  have popped : compInvPad h a' = some (restored h gkr [unpadIcm ret a.ub id], a) := by
    have branchless := consumes.branchless
    simp only [compInvPad, Shared.popUb, consumes.consume, if_true, kept, Option.bind_eq_bind,
      Option.bind_some, ← texts, indexed, restored, Shared.emit]
    cases ret with
    | none => simp only [branchless, Option.isSome_none, Bool.false_eq_true, if_false, unpadIcm]
    | some r => simp only [branchless, Option.isSome_some, if_true, consumes.collector rfl,
        Option.bind_some, unpadIcm]
  refine ⟨_, popped, UndoesDim.filter setting isIdx
    (fun frame => a.ub.eval frame.vals ≤ frame.vals id) (fun i => a.ub.eval vals1 ≤ i)
    (exec_unpadIcm ret a.ub id) ?_⟩
  intro frame agrees
  rw [setting.eval agrees (Tidy.steady tidy (by simp))]

end Bodies

end Dimensions

section Loops

variable {ids0 : List Var} {ret : Option Var} {vals0 vals1 : Var → Int} {gkr gkr' h : Shared}

/-- A loop of the second pass is undone by the loop of the third, the last dimension first. -/
theorem loop_inverted {Entry : Type} (setting : Setting ids0 ret) (axisOf : Entry → Axis)
    (invEntry : Entry → Axis → Entry) (undo : Entry → Int → Option Int)
    {body invBody : Shared → Entry → Option (Shared × Axis)}
    (each : ∀ gkr entry gkr' a', gkr.pass.valPreserve = true → Tidy ids0 vals0 gkr [axisOf entry] →
      body gkr entry = some (gkr', a') → Inverted ids0 ret vals1 gkr (axisOf entry) gkr' a'
        (fun h => invBody h (invEntry entry a')) (undo entry))
    (entries : List Entry) {axes' : List Axis} (preserve : gkr.pass.valPreserve = true)
    (tidy : Tidy ids0 vals0 gkr (entries.map axisOf))
    (compiled : loopDimensions body gkr entries = some (gkr', axes')) :
    axes'.map (·.idx) = (entries.map axisOf).map (·.idx) ∧ gkr'.idxAt = gkr.idxAt ∧
      gkr.next ≤ gkr'.next ∧ ∀ (h : Shared) (ids : List Var), Consumes ret h →
        h.toStacks = gkr'.toStacks → (entries.map axisOf).map (·.idx) = ids.map some →
        ids.Nodup → (∀ v ∈ ids, IdxVar ids0 v) →
        ∃ code, loopDimensionsInv invBody h (List.zipWith invEntry entries axes') =
            some (restored h gkr code, entries.map axisOf) ∧
          Undoes ids0 ret vals1 ids (mapBacks undo entries) ids code ∧ Touches ret ids code := by
  induction entries generalizing gkr axes' with
  | nil =>
      cases compiled
      refine ⟨rfl, rfl, le_rfl, fun h ids consumes kept indexed _ _ => ?_⟩
      obtain rfl := List.map_eq_nil_iff.mp indexed.symm
      refine ⟨[], ?_, Undoes.nil fun vals => rfl, Touches.nil⟩
      simp only [List.zipWith_nil_left, loopDimensionsInv, restored, ← kept, List.append_nil,
        List.map_nil]
  | cons entry entries ih =>
      obtain ⟨⟨middle, a'⟩, first, rest⟩ := Option.bind_eq_some_iff.mp compiled
      obtain ⟨⟨last, as'⟩, later, equal⟩ := Option.bind_eq_some_iff.mp rest
      cases equal
      have head := each gkr entry middle a' preserve (tidy.sublist (by simp)) first
      have tidyTail : Tidy ids0 vals0 middle (entries.map axisOf) :=
        (tidy.sublist (by simp)).later head.follows
      obtain ⟨idxs, idxAt, next, tail⟩ := ih (head.follows.pass ▸ preserve) tidyTail later
      refine ⟨by rw [List.map_cons, idxs, head.idx_eq]; rfl, idxAt.trans head.idxAt_eq,
        head.follows.next.trans next, fun h ids consumes kept indexed distinct isIdx => ?_⟩
      obtain ⟨id, ids, rfl, headIdx, tailIdx⟩ := List.map_eq_cons_iff.mp indexed.symm
      obtain ⟨fresh, distinct⟩ := List.nodup_cons.mp distinct
      obtain ⟨codeTail, ranTail, undoTail, touchTail⟩ := tail h ids consumes kept tailIdx.symm
        distinct fun v member => isIdx v (List.mem_cons_of_mem _ member)
      obtain ⟨codeHead, ranHead, undoHead, touchHead⟩ := head.undoes (restored h middle codeTail) id
        (consumes.restored middle codeTail) rfl headIdx.symm (isIdx id (List.mem_cons_self ..))
      refine ⟨codeTail ++ codeHead, ?_, ?_, ?_⟩
      · simp only [List.zipWith_cons_cons, loopDimensionsInv, ranTail, ranHead,
          Option.bind_eq_bind, Option.bind_some, List.map_cons, restored_restored]
      · exact undoHead.cons undoTail touchHead touchTail fresh fun v member =>
          setting.notRet (isIdx v member)
      · exact (touchTail.append touchHead).weaken fun v member => by
          rcases List.mem_append.mp member with tail | head
          · exact List.mem_cons_of_mem _ tail
          · rw [List.mem_singleton.mp head]
            exact List.mem_cons_self ..

end Loops

section Lasts

variable {ids0 : List Var} {ret : Option Var} {vals0 vals1 : Var → Int} {gkr gkr' h : Shared}
  {idMaj idMin : Var}

variable (vals1) in
/-- The ICM that takes a folded dimension apart -/
theorem unfoldLast_undoes (setting : Setting ids0 ret) (majIdx : IdxVar ids0 idMaj)
    (minIdx : IdxVar ids0 idMin) (different : idMaj ≠ idMin) {minor : Axis}
    (steady : Steady ids0 minor.ub) :
    Undoes ids0 ret vals1 [idMaj] (unfold (extentOf vals1 minor)) [idMaj, idMin]
        [.unfoldLast idMaj idMin minor.ub] ∧
      Touches ret [idMaj, idMin] [.unfoldLast idMaj idMin minor.ub] := by
  refine undoes_of_move setting (fun frame =>
    let next := frame.set idMin (devMod (frame.vals idMaj) (minor.ub.eval frame.vals))
    next.set idMaj (devDiv (next.vals idMaj) (minor.ub.eval next.vals))) _ ?_ ?_ ?_ ?_ ?_
  · simp [majIdx, minIdx]
  · intro frame
    simp only [Icm.exec, device_mod, device_div, Option.bind_eq_bind, Option.bind_some]
  · exact fun frame => rfl
  · intro frame v outside
    simp only [List.mem_cons, List.not_mem_nil, or_false, not_or] at outside
    simp [Frame.set, outside.1, outside.2]
  · intro frame agrees
    have next := setting.eval (agrees.set minIdx
      (devMod (frame.vals idMaj) (minor.ub.eval frame.vals))) steady
    simp only [List.map_cons, List.map_nil, unfold, extentOf, next]
    simp [Frame.set, different, different.symm, setting.eval agrees steady]

variable (vals1) in
theorem unsplitLast_undoes (setting : Setting ids0 ret) (majIdx : IdxVar ids0 idMaj)
    (idMin : Var) (minorlen : Nat) :
    Undoes ids0 ret vals1 [idMaj, idMin]
        (fun vector => some [wrap (wrap (vector.headD 0 * minorlen) + vector.getD 1 0)]) [idMaj]
        [.unsplitLast idMaj idMin minorlen] ∧
      Touches ret [idMaj] [.unsplitLast idMaj idMin minorlen] := by
  refine undoes_of_move setting (fun frame => frame.set idMaj
    (wrap (wrap (frame.vals idMaj * minorlen) + frame.vals idMin))) _ ?_ ?_ ?_ ?_ ?_
  · simp [majIdx]
  · intro frame
    simp only [Icm.exec, device_norm, Option.bind_eq_bind, Option.bind_some]
  · exact fun frame => rfl
  · intro frame v outside
    exact Function.update_of_ne (by simpa using outside) _ _
  · intro frame _
    simp [Frame.set]

end Lasts

section Mappings

variable {ids0 : List Var} {ret : Option Var} {vals0 vals1 : Var → Int}

/-- The index variables of the dimensions, kept apart from each other and from those
on the stack -/
structure Indexed (ids0 : List Var) (gkr : Shared) (axes : List Axis) (ids : List Var) : Prop where
  names : axes.map (·.idx) = ids.map some
  distinct : (ids ++ gkr.idxAt).Nodup
  isIdx : ∀ v ∈ ids ++ gkr.idxAt, IdxVar ids0 v
  old : ∀ n, .gkco n .idx ∈ ids ++ gkr.idxAt → n < gkr.next

/-- A state of the second pass -/
structure Preserving (ids0 : List Var) (ret : Option Var) (vals0 vals1 : Var → Int)
    (res : GpuKernelRes) : Prop where
  setting : Setting ids0 ret
  same : ∀ name, vals1 (.named name) = vals0 (.named name)
  preserve : res.pass.valPreserve = true
  consumed : res.pass.valConsume = false
  compute : res.pass.idxCompute = true
  tidy : Tidy ids0 vals0 res.toShared res.axes

/-- A mapping that the second pass compiled and the third is about to undo -/
structure Undoing (ids0 : List Var) (ret : Option Var) (vals0 vals1 : Var → Int)
    (mapping : Mapping) (res res' h : GpuKernelRes) (ids : List Var) : Prop
    extends Preserving ids0 ret vals0 vals1 res where
  checked : mapping.checkArgs = true
  compiled : mapping.comp res = some res'
  indexed : Indexed ids0 res.toShared res.axes ids
  consumes : Consumes ret h.toShared
  kept : h.toStacks = res'.toStacks
  axes : h.axes = res'.axes

/-- A mapping undone: the state before it, and code that takes the indices back -/
def Undone (ids0 : List Var) (ret : Option Var) (vals0 vals1 : Var → Int) (mapping : Mapping)
    (res res' h : GpuKernelRes) (ids : List Var) : Prop :=
  ∃ ids' code, Indexed ids0 res'.toShared res'.axes ids' ∧
    mapping.compInv h = some { restored h.toShared res.toShared code with axes := res.axes } ∧
    Undoes ids0 ret vals1 ids' (back vals0 mapping (res.axes.map (extentOf vals1))) ids code

/-- The same index variables, in the dimensions and on the stack together -/
theorem Indexed.perm {gkr gkr' : Shared} {axes axes' : List Axis} {ids ids' : List Var}
    (indexed : Indexed ids0 gkr axes ids) (names : axes'.map (·.idx) = ids'.map some)
    (shuffled : (ids' ++ gkr'.idxAt).Perm (ids ++ gkr.idxAt)) (next : gkr.next ≤ gkr'.next) :
    Indexed ids0 gkr' axes' ids' where
  names := names
  distinct := shuffled.nodup_iff.mpr indexed.distinct
  isIdx v member := indexed.isIdx v (shuffled.mem_iff.mp member)
  old n member := (indexed.old n (shuffled.mem_iff.mp member)).trans_le next

section Undone

variable {mapping : Mapping} {res res' h : GpuKernelRes} {ids : List Var}

/-- A mapping that loops over the dimensions is undone by the loop of its inverse. -/
theorem loop_undone {Entry : Type} (undoing : Undoing ids0 ret vals0 vals1 mapping res res' h ids)
    (axisOf : Entry → Axis) (invEntry : Entry → Axis → Entry) (undo : Entry → Int → Option Int)
    {body invBody : Shared → Entry → Option (Shared × Axis)}
    (each : ∀ gkr entry gkr' a', gkr.pass.valPreserve = true → Tidy ids0 vals0 gkr [axisOf entry] →
      body gkr entry = some (gkr', a') → Inverted ids0 ret vals1 gkr (axisOf entry) gkr' a'
        (fun h => invBody h (invEntry entry a')) (undo entry))
    (entries : List Entry) (whole : entries.map axisOf = res.axes)
    (compiled : (do
      let (shared, axes) ← loopDimensions body res.toShared entries
      some ({ shared with axes := axes } : GpuKernelRes)) = some res')
    (inverts : res'.axes.length = entries.length → mapping.compInv h = (do
      let (shared, axes) ← loopDimensionsInv invBody h.toShared
        (List.zipWith invEntry entries res'.axes)
      some ({ shared with axes := axes } : GpuKernelRes)))
    (backs : back vals0 mapping (res.axes.map (extentOf vals1)) = mapBacks undo entries) :
    Undone ids0 ret vals0 vals1 mapping res res' h ids := by
  obtain ⟨⟨shared, axes'⟩, looped, equal⟩ := Option.bind_eq_some_iff.mp compiled
  cases equal
  have indexed := undoing.indexed
  obtain ⟨idxs, idxAt, next, undoes⟩ := loop_inverted undoing.setting axisOf invEntry undo each
    entries undoing.preserve (whole ▸ undoing.tidy) looped
  obtain ⟨code, ran, undoes, -⟩ := undoes h.toShared ids undoing.consumes undoing.kept
    (by rw [whole, indexed.names]) (indexed.distinct.sublist (by simp))
    fun v member => indexed.isIdx v (by simp [member])
  have full : axes'.length = entries.length := by simpa using congrArg List.length idxs
  refine ⟨ids, code, indexed.perm (by rw [idxs, whole, indexed.names]) ?_ next, ?_, backs ▸ undoes⟩
  · rw [idxAt]
  · rw [inverts full, ran, whole]
    rfl

theorem zipWith_right {α β : Type} (entries : List α) (others : List β)
    (full : others.length = entries.length) :
    List.zipWith (fun _ b => b) entries others = others := by
  rw [← List.map_uncurry_zip_eq_zipWith]
  exact List.map_snd_zip full.le

theorem zipWith_zip {α β γ : Type} (keys : List α) (entries : List β) (others : List γ)
    (paired : keys.length = entries.length) :
    List.zipWith (fun entry c => (entry.1, c)) (keys.zip entries) others = keys.zip others := by
  have keysOf : (keys.zip entries).map Prod.fst = keys := List.map_fst_zip paired.le
  conv_rhs => rw [← keysOf, List.zip_eq_zipWith, List.zipWith_map_left]

theorem shiftLB_undone (undoing : Undoing ids0 ret vals0 vals1 .shiftLB res res' h ids) :
    Undone ids0 ret vals0 vals1 .shiftLB res res' h ids := by
  refine loop_undone undoing id (fun _ a' => a') (fun a => unshift vals0 (extentOf vals1 a))
    (fun _ _ _ _ preserve tidy compiled =>
      compShiftLBDim_inverted undoing.setting undoing.same preserve tidy compiled)
    res.axes (List.map_id _) undoing.compiled ?_ ?_
  · intro full
    rw [zipWith_right _ _ full, ← undoing.axes]
    rfl
  · rw [back, mapBacks_map]

theorem compressGrid_undone {shouldCompress : List Bool}
    (undoing : Undoing ids0 ret vals0 vals1 (.compressGrid shouldCompress) res res' h ids) :
    Undone ids0 ret vals0 vals1 (.compressGrid shouldCompress) res res' h ids := by
  have compiled := undoing.compiled
  simp only [Mapping.comp] at compiled
  split at compiled
  · cases compiled
  · next length =>
      rw [ne_eq, not_not] at length
      refine loop_undone undoing Prod.snd (fun entry a' => (entry.1, a'))
        (fun entry => uncompress vals0 (entry.1, extentOf vals1 entry.2))
        (fun _ _ _ _ preserve tidy compiled =>
          compCompressGridDim_inverted undoing.setting undoing.same preserve tidy compiled)
        (shouldCompress.zip res.axes) (List.map_snd_zip (by omega)) compiled ?_ ?_
      · intro full
        rw [List.length_zip] at full
        have same : shouldCompress.length = h.axes.length := by
          rw [undoing.axes, full]
          omega
        rw [zipWith_zip _ _ _ length, Mapping.compInv, if_neg (by simp [same]),
          undoing.axes]
      · rw [back, List.zip_map_right, mapBacks_map]
        rfl

theorem pruneGrid_undone (undoing : Undoing ids0 ret vals0 vals1 .pruneGrid res res' h ids) :
    Undone ids0 ret vals0 vals1 .pruneGrid res res' h ids := by
  refine loop_undone undoing id (fun _ a' => a') (fun a => unprune vals0 (extentOf vals1 a))
    (fun _ _ _ _ preserve tidy compiled =>
      compPruneGridDim_inverted undoing.setting undoing.same preserve tidy compiled)
    res.axes (List.map_id _) undoing.compiled ?_ ?_
  · intro full
    rw [zipWith_right _ _ full, ← undoing.axes]
    rfl
  · rw [back, mapBacks_map]

theorem permute_undone {permutation : List Nat}
    (undoing : Undoing ids0 ret vals0 vals1 (.permute permutation) res res' h ids) :
    Undone ids0 ret vals0 vals1 (.permute permutation) res res' h ids := by
  have perm := checked_perm undoing.checked
  have compiled := undoing.compiled
  have indexed := undoing.indexed
  have kept := undoing.kept
  have axes := undoing.axes
  simp only [Mapping.comp] at compiled
  split at compiled
  · cases compiled
  · next full =>
      obtain ⟨axes', permuted, equal⟩ := Option.bind_eq_some_iff.mp compiled
      cases equal
      rw [ne_eq, not_not] at full
      have idsFull : permutation.length = ids.length := by
        rw [full]
        simpa using congrArg List.length indexed.names
      obtain ⟨ids', idsPermuted⟩ := permuteStrvec_total perm ids idsFull
      have names : axes'.map (·.idx) = ids'.map some := by
        have byAxes := permuteStrvec_map (·.idx) permuted
        rw [indexed.names, permuteStrvec_map some idsPermuted] at byAxes
        exact (Option.some.inj byAxes).symm
      have inverse : invPermuteStrvec permutation axes' = some res.axes :=
        (invPermuteStrvec_eq_some_iff perm (by
          rw [full, (permuteStrvec_eq_some_iff.mp permuted).1])).mpr permuted
      refine ⟨ids', [], indexed.perm names
        ((permuted_perm perm idsFull idsPermuted).append_right _) le_rfl, ?_,
        Undoes.nil fun vals => ?_⟩
      · have sameLength : permutation.length = h.axes.length := by
          rw [axes, full, (permuteStrvec_eq_some_iff.mp permuted).1]
        have same : restored h.toShared res.toShared [] = h.toShared := by
          rw [restored, ← kept, List.append_nil]
        rw [Mapping.compInv, if_neg (not_not.mpr sameLength), axes, inverse, same]
        rfl
      · exact (invPermuteStrvec_eq_some_iff perm (by
          rw [List.length_map, idsFull, (permuteStrvec_eq_some_iff.mp idsPermuted).1])).mpr
          (permuteStrvec_map vals idsPermuted)

theorem Indexed.front {gkr : Shared} {front last : List Axis}
    (indexed : Indexed ids0 gkr (front ++ last) ids) :
    ∃ idsFront idsLast, ids = idsFront ++ idsLast ∧ front.map (·.idx) = idsFront.map some ∧
      last.map (·.idx) = idsLast.map some := by
  have names := indexed.names
  rw [List.map_append, eq_comm] at names
  obtain ⟨idsFront, idsLast, rfl, first, second⟩ := List.map_eq_append_iff.mp names
  exact ⟨idsFront, idsLast, rfl, first.symm, second.symm⟩

theorem Indexed.apart {gkr : Shared} {axes : List Axis} {idsFront idsLast : List Var}
    (indexed : Indexed ids0 gkr axes (idsFront ++ idsLast)) {v : Var} (front : v ∈ idsFront) :
    v ∉ idsLast := by
  have nodup := indexed.distinct
  rw [List.append_assoc, List.nodup_append] at nodup
  exact fun last => nodup.2.2 v front v (List.mem_append_left _ last) rfl

/-- The last dimensions undone, with the index variables of those before left alone -/
theorem Undoing.lastAxes {idsFront idsLast : List Var} (idsLast' : List Var)
    (undoing : Undoing ids0 ret vals0 vals1 mapping res res' h (idsFront ++ idsLast))
    {front last : List Axis} (parts : res.axes = front ++ last)
    (frontNames : front.map (·.idx) = idsFront.map some)
    (indexed : Indexed ids0 res'.toShared res'.axes (idsFront ++ idsLast')) {code : List Icm}
    (ran : mapping.compInv h =
      some { restored h.toShared res.toShared code with axes := front ++ last })
    {undo : List Int → Option (List Int)} (block : Undoes ids0 ret vals1 idsLast' undo idsLast code)
    (touches : Touches ret (idsLast' ++ idsLast) code)
    (backs : ∀ vector, back vals0 mapping ((front ++ last).map (extentOf vals1)) vector =
      onLast front.length undo vector) :
    Undone ids0 ret vals0 vals1 mapping res res' h (idsFront ++ idsLast) := by
  have count : front.length = idsFront.length := by simpa using congrArg List.length frontNames
  have apart : ∀ v ∈ idsFront, v ∉ idsLast' ++ idsLast := fun v member both =>
    (List.mem_append.mp both).elim (indexed.apart member) (undoing.indexed.apart member)
  have notRet : ∀ v ∈ idsFront, ret ≠ some v := fun v member =>
    undoing.setting.notRet (undoing.indexed.isIdx v (by simp [member]))
  refine ⟨idsFront ++ idsLast', code, indexed, by rw [parts, ran], ?_⟩
  refine (block.front touches apart notRet).congr fun vector _ => ?_
  rw [parts, backs, count]

theorem names_one {a : Axis} (names : [a].map (·.idx) = ids.map some) :
    ∃ id, ids = [id] ∧ a.idx = some id := by
  rcases ids with _ | ⟨id, _ | ⟨more, ids⟩⟩
  · cases names
  · exact ⟨id, rfl, (List.cons.inj names).1⟩
  · cases (List.cons.inj names).2

theorem padLast_undone {divisibility : Nat}
    (undoing : Undoing ids0 ret vals0 vals1 (.padLast divisibility) res res' h ids) :
    Undone ids0 ret vals0 vals1 (.padLast divisibility) res res' h ids := by
  have indexed := undoing.indexed
  have compiled := undoing.compiled
  simp only [Mapping.comp] at compiled
  obtain ⟨⟨front, last⟩, split, equal⟩ := Option.bind_eq_some_iff.mp compiled
  generalize pads : compPad divisibility res.toShared last = pair at equal
  obtain ⟨padded, last'⟩ := pair
  cases equal
  have parts := lastOne_eq_some.mp split
  have tidyLast : Tidy ids0 vals0 res.toShared [last] :=
    (parts ▸ undoing.tidy).sublist (by simp)
  obtain ⟨idsFront, idsLast, rfl, frontNames, lastNames⟩ := (parts ▸ indexed).front
  obtain ⟨id, rfl, lastIdx⟩ := names_one lastNames
  have inverted : Inverted ids0 ret vals1 res.toShared last padded last' _ _ :=
    compPad_inverted undoing.setting undoing.preserve tidyLast pads
  obtain ⟨code, ran, undoes, touches⟩ := inverted.undoes h.toShared id undoing.consumes
    undoing.kept lastIdx (indexed.isIdx id (by simp))
  refine undoing.lastAxes [id] parts frontNames (indexed.perm ?_ ?_ inverted.follows.next) ?_
    undoes (touches.weaken (by simp)) fun vector => ?_
  · rw [List.map_append, List.map_append, frontNames, List.map_singleton, inverted.idx_eq, lastIdx]
    rfl
  · rw [inverted.idxAt_eq]
  · rw [Mapping.compInv, undoing.axes]
    simp only [lastOne_eq_some.mpr rfl, Option.bind_eq_bind, Option.bind_some, ran]
  · rw [List.map_append, List.map_singleton, back]
    simp only [lastOne_eq_some.mpr rfl, Option.bind_eq_bind, Option.bind_some, List.length_map]
    rfl

/-- What `RemoveDimension` saves of a dimension, and `AddDimension` then takes back -/
def pushed (kept : Stacks) (a : Axis) (id : Var) : Stacks where
  lowerboundAt := a.lb :: kept.lowerboundAt
  upperboundAt := a.ub :: kept.upperboundAt
  stepAt := a.st :: kept.stepAt
  widthAt := a.wi :: kept.widthAt
  idxAt := id :: kept.idxAt

theorem removeDimension_stacks {gkr : Shared} {a : Axis} {id : Var}
    (preserve : gkr.pass.valPreserve = true) (compute : gkr.pass.idxCompute = true)
    (idx : a.idx = some id) : (removeDimension gkr a).toStacks = pushed gkr.toStacks a id := by
  simp [removeDimension, Shared.pushLb, Shared.pushUb, Shared.pushSt, Shared.pushWi, preserve,
    compute, idx, pushed]

theorem addDimension_popped {h : Shared} {old : Stacks} {a : Axis} {id : Var}
    (consumes : Consumes ret h) (idx : a.idx = some id) (kept : h.toStacks = pushed old a id) :
    addDimension h = some ({ h with toStacks := old }, a) := by
  obtain ⟨⟨lbs, ubs, sts, wis, ids⟩, pass, helperA, helperB, collector, next, out⟩ := h
  have consume : pass.valConsume = true := consumes.consume
  have compute : pass.idxCompute = true := consumes.compute
  simp only [pushed, Stacks.mk.injEq] at kept
  obtain ⟨rfl, rfl, rfl, rfl, rfl⟩ := kept
  obtain ⟨lb, ub, st, wi, idx'⟩ := a
  cases idx
  simp [addDimension, consume, compute, Shared.popLb, Shared.popUb, Shared.popSt, Shared.popWi,
    Shared.popId]

theorem addDimension_compute {gkr : Shared} (preserving : gkr.pass.valConsume = false)
    (compute : gkr.pass.idxCompute = true) :
    addDimension gkr = some ((varCreate (varCreate gkr .ub).2 .idx).2,
      ⟨constZero, .read (.gkco gkr.next .ub), constOne, constOne,
        some (.gkco (gkr.next + 1) .idx)⟩) := by
  simp [addDimension, preserving, compute, varCreate, Shared.emit]

theorem removeDimension_consuming {h : Shared} (consumes : Consumes ret h) (a : Axis) :
    removeDimension h a = h := by
  simp [removeDimension, Shared.pushLb, Shared.pushUb, Shared.pushSt, Shared.pushWi,
    consumes.preserve]

theorem names_two {a b : Axis} (names : [a, b].map (·.idx) = ids.map some) :
    ∃ major minor, ids = [major, minor] ∧ a.idx = some major ∧ b.idx = some minor := by
  rcases ids with _ | ⟨major, ids⟩
  · cases names
  · have tail : [b].map (·.idx) = ids.map some := (List.cons.inj names).2
    obtain ⟨minor, rfl, idx⟩ := names_one tail
    exact ⟨major, minor, rfl, (List.cons.inj names).1, idx⟩

theorem foldLast2_undone (undoing : Undoing ids0 ret vals0 vals1 .foldLast2 res res' h ids) :
    Undone ids0 ret vals0 vals1 .foldLast2 res res' h ids := by
  have indexed := undoing.indexed
  have compiled := undoing.compiled
  simp only [Mapping.comp, compFoldLast2] at compiled
  obtain ⟨⟨front, major, minor⟩, split, rest⟩ := Option.bind_eq_some_iff.mp compiled
  obtain ⟨-, -, rest⟩ := Option.bind_eq_some_iff.mp rest
  obtain ⟨-, -, equal⟩ := Option.bind_eq_some_iff.mp rest
  have parts := lastTwo_eq_some.mp split
  obtain ⟨idsFront, idsLast, rfl, frontNames, lastNames⟩ := (parts ▸ indexed).front
  obtain ⟨idMaj, idMin, rfl, majIdx, minIdx⟩ := names_two lastNames
  have different : idMaj ≠ idMin := by
    have nodup := indexed.distinct
    simp only [List.append_assoc, List.nodup_append, List.cons_append, List.nil_append,
      List.nodup_cons, List.mem_cons, not_or] at nodup
    exact nodup.2.1.1.1
  have tidyMajor : Tidy ids0 vals0 res.toShared [major] :=
    (parts ▸ undoing.tidy).sublist (by simp)
  have saves := pushUb_declares device res.toShared major.ub
  obtain ⟨var, declares, created, new, creates, -⟩ :=
    newUpperboundVariable_spec device (tidyMajor.later saves.toFollows)
  have createdStacks := newUpperboundVariable_stacks (res.toShared.pushUb major.ub) major
  simp only [new] at equal createdStacks
  set folded := created.emit (.foldLast major.ub (.read var) minor.ub) with isFolded
  have follows : Follows res.toShared folded :=
    (saves.toFollows.trans creates.toFollows).trans (emit_follows _ _)
  have foldedStacks : folded.toStacks =
      { res.toStacks with upperboundAt := major.ub :: res.upperboundAt } := by
    simp [isFolded, Shared.emit, createdStacks, Shared.pushUb, undoing.preserve]
  have saved : (removeDimension folded minor).toStacks = pushed folded.toStacks minor idMin :=
    removeDimension_stacks (follows.pass ▸ undoing.preserve) (follows.pass ▸ undoing.compute) minIdx
  cases equal
  have ran : compInvFoldLast2 h = some { restored h.toShared res.toShared
      [.unfoldLast idMaj idMin minor.ub] with axes := front ++ [major, minor] } := by
    have kept := undoing.kept.trans (saved.trans (congrArg (pushed · minor idMin) foldedStacks))
    rw [compInvFoldLast2, addDimension_popped undoing.consumes minIdx kept, undoing.axes]
    simp only [Option.bind_eq_bind, Option.bind_some, lastOne_eq_some.mpr rfl, Shared.popUb,
      undoing.consumes.consume, if_true, Shared.emit, majIdx, minIdx, restored]
    rw [← majIdx]
  have steady : Steady ids0 minor.ub := Tidy.steady undoing.tidy (by simp [parts])
  obtain ⟨undoes, touches⟩ := unfoldLast_undoes vals1 undoing.setting
    (indexed.isIdx idMaj (by simp)) (indexed.isIdx idMin (by simp)) different steady
  refine undoing.lastAxes [idMaj] parts frontNames (indexed.perm ?_ ?_ ?_) ran undoes
    (touches.weaken (by simp)) fun vector => ?_
  · simp [frontNames, majIdx]
  · simp [saved, pushed, foldedStacks]
  · exact follows.next.trans (removeDimension_declares device folded minor).next
  · rw [List.map_append, List.map_cons, List.map_singleton, back]
    simp only [lastTwo_eq_some.mpr rfl, Option.bind_eq_bind, Option.bind_some, List.length_map]

theorem Indexed.fresh {gkr : Shared} {axes : List Axis} (indexed : Indexed ids0 gkr axes ids)
    {n : Nat} (later : gkr.next ≤ n) : .gkco n .idx ∉ ids ++ gkr.idxAt :=
  fun member => absurd (indexed.old n member) (by omega)

/-- A dimension added: a fresh index variable beside those there -/
theorem Indexed.add {gkr gkr' : Shared} {axes axes' : List Axis} {ids' : List Var} {n : Nat}
    (indexed : Indexed ids0 gkr axes ids) (names : axes'.map (·.idx) = ids'.map some)
    (shuffled : (ids' ++ gkr'.idxAt).Perm (.gkco n .idx :: (ids ++ gkr.idxAt)))
    (later : gkr.next ≤ n) (next : n < gkr'.next) : Indexed ids0 gkr' axes' ids' where
  names := names
  distinct := shuffled.nodup_iff.mpr (List.nodup_cons.mpr ⟨indexed.fresh later, indexed.distinct⟩)
  isIdx v member := by
    rcases List.mem_cons.mp (shuffled.mem_iff.mp member) with rfl | old
    · exact Or.inr ⟨n, rfl⟩
    · exact indexed.isIdx v old
  old m member := by
    rcases List.mem_cons.mp (shuffled.mem_iff.mp member) with same | old
    · rwa [(Var.gkco.inj same).1]
    · exact (indexed.old m old).trans (later.trans_lt next)

theorem splitLast_undone {minorlen : Nat}
    (undoing : Undoing ids0 ret vals0 vals1 (.splitLast minorlen) res res' h ids) :
    Undone ids0 ret vals0 vals1 (.splitLast minorlen) res res' h ids := by
  have indexed := undoing.indexed
  have compiled := undoing.compiled
  simp only [Mapping.comp, compSplitLast, addDimension_compute undoing.consumed undoing.compute,
    Option.bind_eq_bind, Option.bind_some] at compiled
  obtain ⟨⟨front, major⟩, split, compiled⟩ := Option.bind_eq_some_iff.mp compiled
  have parts := lastOne_eq_some.mp split
  let idMin : Var := .gkco (res.next + 1) .idx
  have declares := (varCreate_declares device res.toShared .ub).trans
    (varCreate_declares device _ .idx)
  set added := (varCreate (varCreate res.toShared .ub).2 .idx).2 with isAdded
  have addedStacks : added.toStacks = res.toStacks := rfl
  have addedNext : added.next = res.next + 2 := rfl
  have tidyMajor : Tidy ids0 vals0 added [major] :=
    Tidy.later ((parts ▸ undoing.tidy).sublist (by simp)) declares.toFollows
  generalize pads : compPad minorlen added major = pair at compiled
  obtain ⟨padded, major'⟩ := pair
  have inverted : Inverted ids0 ret vals1 added major padded major' _ _ :=
    compPad_inverted undoing.setting (declares.pass ▸ undoing.preserve) tidyMajor pads
  have preserve : padded.pass.valPreserve = true := by
    rw [inverted.follows.pass, declares.pass, undoing.preserve]
  obtain ⟨-, -, equal⟩ := Option.bind_eq_some_iff.mp compiled
  have pushedUb : res'.toStacks =
      { padded.toStacks with upperboundAt := major'.ub :: padded.upperboundAt } := by
    cases equal
    simp [Shared.emit, newUpperboundVariable_stacks, Shared.pushUb, preserve]
  obtain ⟨ubWrite, axes'⟩ : ∃ ubWrite, res'.axes = front ++ [{ major' with ub := ubWrite },
      ⟨constZero, .read (.gkco res.next .ub), constOne, constOne, some idMin⟩] := by
    cases equal
    exact ⟨_, rfl⟩
  have next : padded.next ≤ res'.next := by
    cases equal
    simp [newUpperboundVariable, Shared.pushUb, Shared.emit, varCreate, preserve]
  obtain ⟨idsFront, idsLast, rfl, frontNames, lastNames⟩ := (parts ▸ indexed).front
  obtain ⟨idMaj, rfl, majIdx⟩ := names_one lastNames
  have isMaj : IdxVar ids0 idMaj := indexed.isIdx idMaj (by simp)
  let unsplitting : List Icm := [.unsplitLast idMaj idMin minorlen]
  have consumes := undoing.consumes.restored padded unsplitting
  obtain ⟨code, ran, unpads, unpadTouches⟩ := inverted.undoes _ idMaj consumes rfl majIdx isMaj
  obtain ⟨unsplits, touches⟩ := unsplitLast_undoes vals1 undoing.setting isMaj idMin minorlen
  have both : Undoes ids0 ret vals1 [idMaj, idMin] (unsplit minorlen (extentOf vals1 major))
      [idMaj] (unsplitting ++ code) := by
    refine (unsplits.comp unpads).congr fun vector full => ?_
    obtain ⟨i, j, rfl⟩ := List.length_eq_two.mp full
    simp [unsplit, mapBacks_one]
  have kept := undoing.kept
  refine undoing.lastAxes [idMaj, idMin] parts frontNames
    (indexed.add (n := res.next + 1) ?_ ?_ ?_ ?_) ?_ both
    ((touches.append unpadTouches).weaken (by simp)) fun vector => ?_
  · simp [axes', frontNames, inverted.idx_eq, majIdx, idMin]
  · have idxAt : res'.idxAt = res.idxAt := by rw [pushedUb, inverted.idxAt_eq, addedStacks]
    rw [idxAt]
    simpa using @List.perm_middle _ idMin (idsFront ++ [idMaj]) res.idxAt
  · omega
  · have := inverted.follows.next
    omega
  · rw [pushedUb] at kept
    rw [Mapping.compInv, compInvSplitLast, undoing.axes, axes']
    simp only [lastTwo_eq_some.mpr rfl, Option.bind_eq_bind, Option.bind_some, Shared.popUb,
      undoing.consumes.consume, if_true, kept, Shared.emit]
    refine (congrArg (Option.bind · _) (inverted.idx_eq.trans majIdx)).trans ?_
    refine (congrArg (Option.bind · _) ran).trans ?_
    have final := consumes.restored added code
    rw [restored_restored] at final
    simp only [Option.bind_some, restored_restored, removeDimension_consuming final]
    simp only [restored, addedStacks]
  · rw [List.map_append, List.map_singleton, back]
    simp only [lastOne_eq_some.mpr rfl, Option.bind_eq_bind, Option.bind_some, List.length_map]

/-- Every mapping is undone. -/
theorem compInv_undone (undoing : Undoing ids0 ret vals0 vals1 mapping res res' h ids) :
    Undone ids0 ret vals0 vals1 mapping res res' h ids := by
  cases mapping with
  | shiftLB => exact shiftLB_undone undoing
  | compressGrid shouldCompress => exact compressGrid_undone undoing
  | pruneGrid => exact pruneGrid_undone undoing
  | permute permutation => exact permute_undone undoing
  | foldLast2 => exact foldLast2_undone undoing
  | splitLast minorlen => exact splitLast_undone undoing
  | padLast divisibility => exact padLast_undone undoing

end Undone

end Mappings

end Sac2c.ReturnBlocks
