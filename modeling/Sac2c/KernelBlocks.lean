import Sac2c.ThreadSpaces

/-!
The code that the first two passes print, in blocks. A block takes some of the
dimensions to others; run on any frame it computes the extents that a step on the
extents promises, or stops where that step fails, and it writes only helper
variables, fresh variables and, on the host, the upper bounds it owns. Blocks of
one dimension make up the loops, and a block of the last dimensions leaves those
before it alone.
-/

namespace Sac2c.KernelBlocks

open GpuKernel ThreadSpaces

section Runs

variable {arith : Arith} {frame : Frame}

theorem run_cons {icm : Icm} {rest : List Icm} (going : frame.returned = false) :
    run arith frame (icm :: rest) =
      (icm.exec arith frame).bind fun next => run arith next rest := by
  rw [run, going]
  rfl

theorem run_returned {code : List Icm} (done : frame.returned = true) :
    run arith frame code = some frame := by
  cases code with
  | nil => rfl
  | cons icm rest => rw [run, if_pos done]

theorem run_append (first second : List Icm) :
    run arith frame (first ++ second) =
      (run arith frame first).bind fun next => run arith next second := by
  induction first generalizing frame with
  | nil => rfl
  | cons icm first ih =>
      cases done : frame.returned with
      | true => rw [run_returned done, run_returned done, Option.bind_some, run_returned done]
      | false =>
          rw [List.cons_append, run_cons done, run_cons done, Option.bind_assoc]
          exact Option.bind_congr fun next _ => ih

theorem run_one {icm : Icm} (going : frame.returned = false) :
    run arith frame [icm] = icm.exec arith frame := by
  rw [run_cons going]
  cases icm.exec arith frame <;> rfl

end Runs

section Arithmetic

def InInt (value : Int) : Prop := -2 ^ 31 ≤ value ∧ value < 2 ^ 31

/-- What host and device have in common -/
structure Exact (arith : Arith) : Prop where
  keeps : ∀ value, InInt value → arith.norm value = some value
  fits : ∀ value result, arith.norm value = some result → InInt result
  zeroFits : ∀ result, arith.byZero = some result → InInt result

theorem host_exact : Exact host where
  keeps value fits := if_pos fits
  fits value result computed := by
    obtain ⟨rfl, fits⟩ := host_norm computed
    exact fits
  zeroFits result computed := nomatch computed

theorem wrap_fits (value : Int) : InInt (wrap value) := by
  have low := Int.le_bmod (x := value) (m := 2 ^ 32) (by norm_num)
  have high := Int.bmod_lt (x := value) (m := 2 ^ 32) (by norm_num)
  exact ⟨le_trans (by norm_num) low, lt_of_lt_of_le high (by norm_num)⟩

theorem device_exact : Exact device where
  keeps value fits := congrArg some (wrap_eq fits.1 fits.2)
  fits value result computed := by
    cases computed
    exact wrap_fits value
  zeroFits result computed := by
    cases computed
    exact ⟨by norm_num, by norm_num⟩

theorem Exact.mod_fits {arith : Arith} (exact : Exact arith) {a b result : Int}
    (computed : arith.mod a b = some result) : InInt result := by
  simp only [Arith.mod] at computed
  split at computed
  · exact exact.zeroFits _ computed
  · exact exact.fits _ _ computed

/-- Without a branch the same size is computed. -/
theorem Exact.compressedSWBL_eq {arith : Arith} (exact : Exact arith) (ub st : Int) {wi : Int}
    (small : InInt wi) : compressedSWBL arith ub st wi = compressedSW arith ub st wi := by
  have zero : arith.norm 0 = some 0 := exact.keeps 0 ⟨by norm_num, by norm_num⟩
  simp only [compressedSWBL, compressedSW, Option.bind_eq_bind]
  refine Option.bind_congr fun tmp found => ?_
  have tmpFits := exact.mod_fits found
  refine Option.bind_congr fun full _ => Option.bind_congr fun scaled _ => ?_
  by_cases less : tmp < wi
  · simp [truth, less, exact.keeps tmp tmpFits, zero]
  · simp [truth, less, exact.keeps wi small, zero]

end Arithmetic

section Blocks

/-- A text that reads no variable the passes make up -/
def Program (ids0 : List Var) (opd : Opd) : Prop :=
  ∀ var, opd = .read var → var ∉ ids0 ∧ ∃ name, var = .named name

theorem Program.eval {ids0 : List Var} {opd : Opd} (program : Program ids0 opd) {vals vals' : Var → Int}
    (same : ∀ name, vals (.named name) = vals' (.named name)) : opd.eval vals = opd.eval vals' := by
  cases opd with
  | num value => rfl
  | read var =>
      obtain ⟨-, name, rfl⟩ := program var rfl
      exact same name

theorem program_num {ids0 : List Var} (value : Int) : Program ids0 (.num value) := nofun

def extentOf (vals : Var → Int) (axis : Axis) : Extent :=
  ⟨axis.lb, axis.st, axis.wi, axis.ub.eval vals⟩

/-- What the code of a pass may write while it handles these dimensions -/
def Written (gkr : Shared) (axes : List Axis) (var : Var) : Prop :=
  (∃ n, var = .gkco n .tmp) ∨ (∃ n, gkr.next ≤ n ∧ var = .gkco n .ub) ∨
    gkr.pass.valPreserve = false ∧ Opd.read var ∈ axes.map (·.ub)

/-- What is known of a lower bound, a step and a width -/
def Texts (ids0 : List Var) (vals0 : Var → Int) (lb st wi : Opd) : Prop :=
  Program ids0 lb ∧ Program ids0 st ∧ Program ids0 wi ∧ InInt (wi.eval vals0)

/-- Only upper bounds are ever in variables of the passes, and on the host each
dimension owns its own. -/
structure Tidy (ids0 : List Var) (vals0 : Var → Int) (gkr : Shared) (axes : List Axis) : Prop where
  texts : ∀ a ∈ axes, Texts ids0 vals0 a.lb a.st a.wi
  ubs : ∀ a ∈ axes, (gkr.pass.valPreserve = true ∧ Program ids0 a.ub) ∨
    ∃ n, n < gkr.next ∧ a.ub = .read (.gkco n .ub)
  distinct : gkr.pass.valPreserve = false → (axes.map (·.ub)).Nodup
  helpers : (∃ n, gkr.helperA = .gkco n .tmp) ∧ ∃ n, gkr.helperB = .gkco n .tmp

/-- A later state of the same pass: variables are only added. -/
structure Follows (gkr gkr' : Shared) : Prop where
  pass : gkr'.pass = gkr.pass
  helperA : gkr'.helperA = gkr.helperA
  helperB : gkr'.helperB = gkr.helperB
  collector : gkr'.returnCollector = gkr.returnCollector
  next : gkr.next ≤ gkr'.next

theorem Follows.refl (gkr : Shared) : Follows gkr gkr := ⟨rfl, rfl, rfl, rfl, le_rfl⟩

theorem Follows.trans {gkr middle gkr' : Shared} (first : Follows gkr middle)
    (second : Follows middle gkr') : Follows gkr gkr' :=
  ⟨second.pass.trans first.pass, second.helperA.trans first.helperA,
    second.helperB.trans first.helperB, second.collector.trans first.collector,
    first.next.trans second.next⟩

theorem Tidy.later {ids0 : List Var} {vals0 : Var → Int} {gkr gkr' : Shared} {axes : List Axis}
    (tidy : Tidy ids0 vals0 gkr axes) (follows : Follows gkr gkr') :
    Tidy ids0 vals0 gkr' axes where
  texts := tidy.texts
  ubs a member := by
    rw [follows.pass]
    exact (tidy.ubs a member).imp_right fun ⟨n, old, text⟩ => ⟨n, old.trans_le follows.next, text⟩
  distinct := by
    rw [follows.pass]
    exact tidy.distinct
  helpers := by
    rw [follows.helperA, follows.helperB]
    exact tidy.helpers

/-- A frame of a pass before anything returned, with the program's own values -/
structure Going (vals0 : Var → Int) (frame : Frame) : Prop where
  going : frame.returned = false
  named : ∀ name, frame.vals (.named name) = vals0 (.named name)

/-- The other variables and the coordinates are as before. -/
structure Keeps (written : Var → Prop) (before after : Frame) : Prop where
  vals : ∀ var, ¬ written var → after.vals var = before.vals var
  returned : after.returned = before.returned
  blockIdx : after.blockIdx = before.blockIdx
  threadIdx : after.threadIdx = before.threadIdx

/-- A run that computes what was promised, or stops where nothing was -/
def Ends (result : Option Frame) (good : Frame → List Extent → Prop) :
    Option (List Extent) → Prop
  | none => result = none
  | some extents => ∃ after, result = some after ∧ good after extents

theorem Ends.map {result : Option Frame} {good good' : Frame → List Extent → Prop}
    {extents : Option (List Extent)} (f : List Extent → List Extent)
    (ends : Ends result good extents)
    (more : ∀ after extents, good after extents → good' after (f extents)) :
    Ends result good' (extents.map f) := by
  cases extents with
  | none => exact ends
  | some extents =>
      obtain ⟨after, ran, good⟩ := ends
      exact ⟨after, ran, more after extents good⟩

theorem Ends.imp {result : Option Frame} {good good' : Frame → List Extent → Prop}
    {extents : Option (List Extent)} (ends : Ends result good extents)
    (more : ∀ after extents, good after extents → good' after extents) :
    Ends result good' extents := by
  simpa using ends.map id more

/-- Code that goes on where other code ended -/
theorem Ends.bind {arith : Arith} {frame : Frame} {code code' : List Icm}
    {good good' : Frame → List Extent → Prop} {extents : Option (List Extent)}
    {later : List Extent → Option (List Extent)} (ends : Ends (run arith frame code) good extents)
    (next : ∀ after extents, good after extents →
      Ends (run arith after code') good' (later extents)) :
    Ends (run arith frame (code ++ code')) good' (extents.bind later) := by
  rw [run_append]
  cases extents with
  | none => rw [show run arith frame code = none from ends]; rfl
  | some extents =>
      obtain ⟨after, ran, good⟩ := ends
      rw [ran]
      exact next after extents good

/-- The upper bound of one of these dimensions, or a fresh variable -/
def Owned (gkr : Shared) (axes : List Axis) (ub : Opd) : Prop :=
  ub ∈ axes.map (·.ub) ∨ ∃ n, gkr.next ≤ n ∧ ub = .read (.gkco n .ub)

/-- What becomes of the extents; none where that is not computed -/
abbrev Change := List Extent → Option (List Extent)

structure Block (arith : Arith) (ids0 : List Var) (vals0 : Var → Int) (gkr : Shared)
    (axes : List Axis) (gkr' : Shared) (axes' : List Axis) (target : Change) : Prop where
  follows : Follows gkr gkr'
  tidy : Tidy ids0 vals0 gkr' axes'
  owns : ∀ a ∈ axes', Owned gkr axes a.ub
  runs : ∃ code, gkr'.out = gkr.out ++ code ∧ ∀ frame, Going vals0 frame →
    Ends (run arith frame code)
      (fun after extents => axes'.map (extentOf after.vals) = extents ∧
        Keeps (Written gkr axes) frame after)
      (target (axes.map (extentOf frame.vals)))

variable {arith : Arith} {ids0 : List Var} {vals0 : Var → Int}

theorem Keeps.going {written : Var → Prop} {before after : Frame}
    (keeps : Keeps written before after) (unnamed : ∀ name, ¬ written (.named name))
    (start : Going vals0 before) : Going vals0 after :=
  ⟨keeps.returned.trans start.going,
    fun name => (keeps.vals _ (unnamed name)).trans (start.named name)⟩

theorem Keeps.trans {written : Var → Prop} {before middle after : Frame}
    (first : Keeps written before middle) (second : Keeps written middle after) :
    Keeps written before after where
  vals var unwritten := (second.vals var unwritten).trans (first.vals var unwritten)
  returned := second.returned.trans first.returned
  blockIdx := second.blockIdx.trans first.blockIdx
  threadIdx := second.threadIdx.trans first.threadIdx

theorem Keeps.weaken {written wider : Var → Prop} {before after : Frame}
    (keeps : Keeps written before after) (more : ∀ var, written var → wider var) :
    Keeps wider before after :=
  { keeps with vals := fun var unwritten => keeps.vals var fun w => unwritten (more var w) }

theorem Keeps.refl (written : Var → Prop) (frame : Frame) : Keeps written frame frame :=
  ⟨fun _ _ => rfl, rfl, rfl, rfl⟩

/-- The extents of dimensions whose upper bounds are not written stay. -/
theorem Keeps.extents {written : Var → Prop} {before after : Frame} {axes : List Axis}
    (keeps : Keeps written before after)
    (unread : ∀ a ∈ axes, ∀ var, a.ub = .read var → ¬ written var) :
    axes.map (extentOf after.vals) = axes.map (extentOf before.vals) := by
  apply List.map_congr_left
  intro a member
  have same : a.ub.eval after.vals = a.ub.eval before.vals := by
    cases text : a.ub with
    | num value => rfl
    | read var => exact keeps.vals var (unread a member var text)
  simp [extentOf, same]

/-- With no text in common on the host, nothing else is written. -/
theorem Tidy.unwritten {gkr : Shared} {axes others : List Axis} (tidy : Tidy ids0 vals0 gkr others)
    (apart : gkr.pass.valPreserve = false → ∀ a ∈ others, a.ub ∉ axes.map (·.ub)) :
    ∀ a ∈ others, ∀ var, a.ub = .read var → ¬ Written gkr axes var := by
  rintro a member var text (⟨n, rfl⟩ | ⟨n, fresh, rfl⟩ | ⟨host, owned⟩)
  · rcases tidy.ubs a member with ⟨-, program⟩ | ⟨m, -, same⟩
    · obtain ⟨-, name, named⟩ := program _ text
      cases named
    · rw [text] at same
      cases same
  · rcases tidy.ubs a member with ⟨-, program⟩ | ⟨m, old, same⟩
    · obtain ⟨-, name, named⟩ := program _ text
      cases named
    · rw [text] at same
      cases same
      omega
  · exact apart host a member (text ▸ owned)

theorem Tidy.sublist {gkr : Shared} {axes some : List Axis} (tidy : Tidy ids0 vals0 gkr axes)
    (part : some.Sublist axes) : Tidy ids0 vals0 gkr some where
  texts a member := tidy.texts a (part.subset member)
  ubs a member := tidy.ubs a (part.subset member)
  distinct host := (tidy.distinct host).sublist (part.map _)
  helpers := tidy.helpers

theorem written_unnamed {gkr : Shared} {axes : List Axis} (tidy : Tidy ids0 vals0 gkr axes)
    (name : String) : ¬ Written gkr axes (.named name) := by
  rintro (⟨n, equal⟩ | ⟨n, -, equal⟩ | ⟨host, owned⟩)
  · cases equal
  · cases equal
  · obtain ⟨a, member, text⟩ := List.mem_map.mp owned
    rcases tidy.ubs a member with ⟨preserve, -⟩ | ⟨n, -, same⟩
    · rw [host] at preserve
      cases preserve
    · rw [text] at same
      cases same

end Blocks

section Composition

variable {arith : Arith} {ids0 : List Var} {vals0 : Var → Int} {gkr gkr' middle : Shared}

/-- A step on one dimension, as a step on the list of its extent -/
def onOne (step : Extent → Option Extent) : List Extent → Option (List Extent)
  | [e] => (step e).map ([·])
  | _ => none

/-- One step for each dimension -/
def steps : List (Extent → Option Extent) → List Extent → Option (List Extent)
  | step :: later, e :: es => do
      let e ← step e
      let es ← steps later es
      some (e :: es)
  | [], [] => some []
  | _, _ => none

theorem Follows.written {axes : List Axis} (follows : Follows gkr gkr') {var : Var}
    (written : Written gkr' axes var) : Written gkr axes var := by
  rw [Written, follows.pass] at written
  exact written.imp_right fun rest => rest.imp_left fun ⟨n, fresh, same⟩ =>
    ⟨n, follows.next.trans fresh, same⟩

theorem Follows.owned {axes : List Axis} (follows : Follows gkr gkr') {ub : Opd}
    (owned : Owned gkr' axes ub) : Owned gkr axes ub :=
  owned.imp_right fun ⟨n, fresh, same⟩ => ⟨n, follows.next.trans fresh, same⟩

theorem emit_follows (gkr : Shared) (icm : Icm) : Follows gkr (gkr.emit icm) :=
  ⟨rfl, rfl, rfl, rfl, le_rfl⟩

theorem Block.congr {axes axes' : List Axis} {target target' : Change}
    (block : Block arith ids0 vals0 gkr axes gkr' axes' target)
    (same : ∀ vals, target' (axes.map (extentOf vals)) = target (axes.map (extentOf vals))) :
    Block arith ids0 vals0 gkr axes gkr' axes' target' := by
  obtain ⟨code, printed, computes⟩ := block.runs
  refine { block with runs := ⟨code, printed, fun frame going => ?_⟩ }
  rw [same]
  exact computes frame going

theorem Block.nil (tidy : Tidy ids0 vals0 gkr []) :
    Block arith ids0 vals0 gkr [] gkr [] (steps []) where
  follows := Follows.refl gkr
  tidy := tidy
  owns a member := absurd member List.not_mem_nil
  runs := by
    refine ⟨[], (List.append_nil _).symm, fun frame _ => ?_⟩
    exact ⟨frame, rfl, rfl, Keeps.refl _ _⟩

/-- The upper bounds after a block are its own or fresh, so apart from those of
the dimensions it did not handle. -/
theorem Block.apart {axes axes' others : List Axis}
    {target : Change}
    (block : Block arith ids0 vals0 gkr axes gkr' axes' target) (tidy : Tidy ids0 vals0 gkr others)
    (distinct : gkr.pass.valPreserve = false → ∀ a ∈ axes, a.ub ∉ others.map (·.ub)) :
    gkr.pass.valPreserve = false → ∀ a ∈ axes', a.ub ∉ others.map (·.ub) := by
  intro isHost a member shared
  obtain ⟨other, otherMember, same⟩ := List.mem_map.mp shared
  rcases block.owns a member with own | ⟨n, fresh, text⟩
  · obtain ⟨source, sourceMember, equal⟩ := List.mem_map.mp own
    exact distinct isHost source sourceMember
      (List.mem_map.mpr ⟨other, otherMember, same.trans equal.symm⟩)
  · rcases tidy.ubs other otherMember with ⟨preserve, -⟩ | ⟨m, old, otherText⟩
    · rw [isHost] at preserve
      cases preserve
    · rw [otherText, text] at same
      cases same
      omega

theorem Written.mono {axes others : List Axis} {var : Var} (written : Written gkr axes var)
    (more : ∀ ub ∈ axes.map (·.ub), ub ∈ others.map (·.ub)) : Written gkr others var :=
  written.imp_right (Or.imp_right (And.imp_right (more _)))

section Append

variable {first first' second second' : List Axis}
  {target target' : Change}

theorem Tidy.disjoint (tidy : Tidy ids0 vals0 gkr (first ++ second)) :
    gkr.pass.valPreserve = false → ∀ a ∈ first, a.ub ∉ second.map (·.ub) := by
  intro isHost a member shared
  have distinct := tidy.distinct isHost
  rw [List.map_append] at distinct
  exact (List.nodup_append.mp distinct).2.2 _ (List.mem_map_of_mem member) _ shared rfl

theorem apart_symm {axes others : List Axis} (apart : ∀ a ∈ axes, a.ub ∉ others.map (·.ub)) :
    ∀ a ∈ others, a.ub ∉ axes.map (·.ub) := by
  intro a member shared
  obtain ⟨b, bMember, same⟩ := List.mem_map.mp shared
  exact apart b bMember (List.mem_map.mpr ⟨a, member, same.symm⟩)

theorem Block.append_tidy (tidy : Tidy ids0 vals0 gkr (first ++ second))
    (head : Block arith ids0 vals0 gkr first middle first' target)
    (tail : Block arith ids0 vals0 middle second gkr' second' target') :
    Tidy ids0 vals0 gkr' (first' ++ second') := by
  have disjoint := head.apart (tidy.sublist (List.sublist_append_right first second)) tidy.disjoint
  refine ⟨List.forall_mem_append.mpr ⟨head.tidy.texts, tail.tidy.texts⟩,
    List.forall_mem_append.mpr ⟨(head.tidy.later tail.follows).ubs, tail.tidy.ubs⟩, ?_,
    tail.tidy.helpers⟩
  intro isHost
  rw [tail.follows.pass] at isHost
  have apart := tail.apart head.tidy (fun same =>
    apart_symm (disjoint (head.follows.pass ▸ same))) isHost
  rw [List.map_append, List.nodup_append]
  refine ⟨head.tidy.distinct isHost, tail.tidy.distinct (tail.follows.pass ▸ isHost), ?_⟩
  rintro ub inFirst ub' inSecond rfl
  obtain ⟨b, bMember, rfl⟩ := List.mem_map.mp inSecond
  exact apart b bMember inFirst

theorem Block.append_owns (head : Block arith ids0 vals0 gkr first middle first' target)
    (tail : Block arith ids0 vals0 middle second gkr' second' target') :
    ∀ a ∈ first' ++ second', Owned gkr (first ++ second) a.ub := by
  simp only [Owned, List.map_append]
  refine List.forall_mem_append.mpr ⟨fun a member => ?_, fun a member => ?_⟩
  · exact (head.owns a member).imp_left (List.mem_append_left _)
  · exact (head.follows.owned (tail.owns a member)).imp_left (List.mem_append_right _)

/-- A block after a block, each on its own dimensions -/
theorem Block.append (tidy : Tidy ids0 vals0 gkr (first ++ second))
    (head : Block arith ids0 vals0 gkr first middle first' target)
    (tail : Block arith ids0 vals0 middle second gkr' second' target') :
    Block arith ids0 vals0 gkr (first ++ second) gkr' (first' ++ second')
      (fun es => (target (es.take first.length)).bind fun e =>
        (target' (es.drop first.length)).map (e ++ ·)) := by
  have tidyFirst := tidy.sublist (List.sublist_append_left first second)
  have tidySecond := tidy.sublist (List.sublist_append_right first second)
  have disjoint := head.apart tidySecond tidy.disjoint
  obtain ⟨code, printed, computes⟩ := head.runs
  obtain ⟨code', printed', computes'⟩ := tail.runs
  refine
    { follows := head.follows.trans tail.follows
      tidy := Block.append_tidy tidy head tail
      owns := Block.append_owns head tail
      runs := ⟨code ++ code', by rw [printed', printed, List.append_assoc], ?_⟩ }
  intro frame going
  rw [List.map_append, List.take_left' (List.length_map _), List.drop_left' (List.length_map _)]
  refine (computes frame going).bind fun middle e ⟨extents, keeps⟩ => ?_
  -- the second block starts from the extents that were there before the first
  have there := computes' middle (keeps.going (written_unnamed tidyFirst) going)
  rw [keeps.extents (tidySecond.unwritten fun isHost => apart_symm (tidy.disjoint isHost))] at there
  refine there.map (e ++ ·) fun after e' ⟨extents', keeps'⟩ => ⟨?_, ?_⟩
  · rw [List.map_append, extents', keeps'.extents (head.tidy.unwritten fun isHost =>
      disjoint (head.follows.pass ▸ isHost)), extents]
  · refine (keeps.weaken fun var written => written.mono ?_).trans
      (keeps'.weaken fun var written => (head.follows.written written).mono ?_)
    · exact fun ub own => by simp only [List.map_append, List.mem_append, own, true_or]
    · exact fun ub own => by simp only [List.map_append, List.mem_append, own, or_true]

end Append

end Composition

end Sac2c.KernelBlocks
