import Mathlib.Logic.Function.Basic
import Mathlib.Data.List.Nodup
import Mathlib.Data.List.Zip
import Mathlib.Tactic.Common

/-!
Straight-line code: assignments executed one after the other in a frame of
variables, and what a run depends on when each one reads only what has been
assigned before.
-/

namespace Sac2c.StraightLine

/-- Variables are numbered. -/
abbrev Var := Nat

variable {Value : Type}

abbrev Frame (Value : Type) := Var → Value

/-- Several variables assigned from the left to the right. -/
def bind (frame : Frame Value) : List Var → List Value → Frame Value
  | id :: ids, value :: values => bind (Function.update frame id value) ids values
  | _, _ => frame

/-- `ids = rhs (reads)`. -/
structure Assign (Value : Type) where
  ids : List Var
  reads : List Var
  rhs : List Value → List Value
  arity : ∀ values, values.length = reads.length → (rhs values).length = ids.length

def Assign.exec (assign : Assign Value) (frame : Frame Value) : Frame Value :=
  bind frame assign.ids (assign.rhs (assign.reads.map frame))

def exec (assigns : List (Assign Value)) (frame : Frame Value) : Frame Value :=
  assigns.foldl (fun frame assign => assign.exec frame) frame

/-- Each assignment reads variables that are defined by then. -/
def Scoped : List Var → List (Assign Value) → Prop
  | _, [] => True
  | defined, assign :: assigns =>
      (∀ v ∈ assign.reads, v ∈ defined) ∧ Scoped (assign.ids ++ defined) assigns

def targets (assigns : List (Assign Value)) : List Var := assigns.flatMap Assign.ids

theorem exec_append (first second : List (Assign Value)) (frame : Frame Value) :
    exec (first ++ second) frame = exec second (exec first frame) :=
  List.foldl_append

section Bind

variable {frame other : Frame Value} {ids : List Var} {values : List Value} {v : Var}

theorem bind_other (outside : v ∉ ids) : bind frame ids values v = frame v := by
  induction ids generalizing frame values with
  | nil => cases values <;> rfl
  | cons id ids ih =>
      obtain ⟨differ, outside⟩ := not_or.mp (List.mem_cons.not.mp outside)
      cases values with
      | nil => rfl
      | cons value values =>
          rw [bind, ih outside]
          exact Function.update_of_ne differ value frame

/-- Distinct variables hold the values bound to them. -/
theorem map_bind (frame : Frame Value) (distinct : ids.Nodup) (full : values.length = ids.length) :
    ids.map (bind frame ids values) = values := by
  induction ids generalizing frame values with
  | nil => exact (List.length_eq_zero_iff.mp full).symm
  | cons id ids ih =>
      obtain ⟨outside, distinct⟩ := List.nodup_cons.mp distinct
      cases values with
      | nil => simp at full
      | cons value values =>
          rw [List.map_cons, bind, bind_other outside, Function.update_self,
            ih _ distinct (by simpa using full)]

/-- Where frames agree they still agree after the same binding, and on what is bound. -/
theorem bind_agree (full : values.length = ids.length)
    (agree : v ∉ ids → frame v = other v) : bind frame ids values v = bind other ids values v := by
  induction ids generalizing frame other values with
  | nil => exact agree (List.not_mem_nil)
  | cons id ids ih =>
      cases values with
      | nil => simp at full
      | cons value values =>
          apply ih (by simpa using full)
          intro outside
          by_cases same : v = id
          · rw [same, Function.update_self, Function.update_self]
          · rw [Function.update_of_ne same, Function.update_of_ne same]
            exact agree (List.not_mem_cons_of_ne_of_not_mem same outside)

end Bind

/-- A run depends on the variables defined before it only. -/
theorem exec_agree {assigns : List (Assign Value)} {defined : List Var}
    {frame other : Frame Value} (reading : Scoped defined assigns)
    (agree : ∀ v ∈ defined, frame v = other v) :
    ∀ v ∈ targets assigns ++ defined, exec assigns frame v = exec assigns other v := by
  induction assigns generalizing defined frame other with
  | nil => exact agree
  | cons assign assigns ih =>
      obtain ⟨reads, reading⟩ := reading
      have values : assign.reads.map frame = assign.reads.map other :=
        List.map_congr_left (fun v member => agree v (reads v member))
      intro v member
      refine ih reading ?_ v ?_
      · intro w known
        simp only [Assign.exec, values]
        apply bind_agree (assign.arity _ (List.length_map other))
        intro outside
        exact agree w ((List.mem_append.mp known).resolve_left outside)
      · simp only [targets, List.flatMap_cons, List.mem_append] at member ⊢
        tauto

/-- `id = source`. -/
def copy (id source : Var) : Assign Value :=
  ⟨[id], [source], fun values => values, fun _ full => full⟩

/-- Copies none of which reads an earlier target are one parallel assignment. -/
theorem exec_copies {ids sources : List Var} {frame : Frame Value}
    (full : sources.length = ids.length) (apart : ∀ v ∈ sources, v ∉ ids) :
    exec (List.zipWith copy ids sources) frame = bind frame ids (sources.map frame) := by
  induction ids generalizing sources frame with
  | nil => cases sources <;> rfl
  | cons id ids ih =>
      cases sources with
      | nil => simp at full
      | cons source sources =>
          have kept : sources.map (Function.update frame id (frame source)) =
              sources.map frame := by
            apply List.map_congr_left
            intro v member
            apply Function.update_of_ne
            intro same
            exact apart v (List.mem_cons_of_mem source member) (same ▸ List.mem_cons_self ..)
          rw [List.map_cons, bind, ← kept, ← ih (by simpa using full)]
          · rfl
          · intro v member later
            exact apart v (List.mem_cons_of_mem source member) (List.mem_cons_of_mem id later)

end Sac2c.StraightLine
