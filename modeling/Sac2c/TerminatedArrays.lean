import Mathlib.Data.List.Infix

/-!
Strings in arrays, as far as the first terminator. Storing is checked against the bounds of
the array. Nothing here depends on what a character is.
-/

namespace Sac2c.TerminatedArrays

universe u
variable {α : Type u} {stop : α}

/-- The array with `str` stored from `pos` on; none if it does not fit. -/
def write (array : List α) (pos : Nat) (str : List α) : Option (List α) :=
  if pos + str.length ≤ array.length then
    some (array.take pos ++ str ++ array.drop (pos + str.length))
  else none

theorem write_length {array after : List α} {pos : Nat} {str : List α}
    (written : write array pos str = some after) : after.length = array.length := by
  unfold write at written
  split at written
  · injection written with isAfter
    subst isAfter
    simp only [List.length_append, List.length_take, List.length_drop]
    omega
  · cases written

/-- What stands in front of the position is kept. -/
theorem write_keeps {array after front str : List α} {pos : Nat} (starts : front <+: array)
    (behind : front.length ≤ pos) (written : write array pos str = some after) :
    front <+: after := by
  unfold write at written
  split at written
  · injection written with isAfter
    subst isAfter
    rw [List.append_assoc]
    exact (List.prefix_take_iff.mpr ⟨starts, behind⟩).trans (List.prefix_append ..)
  · cases written

theorem write_front {array str : List α} (room : str.length ≤ array.length) :
    ∃ after, write array 0 str = some after ∧ str <+: after :=
  ⟨_, if_pos (by simpa using room), List.prefix_append ..⟩

/-- The array holds the string, with the terminator behind it. -/
structure Holds (stop : α) (array str : List α) : Prop where
  text : str ++ [stop] <+: array
  inside : stop ∉ str

theorem Holds.room {array str : List α} (holds : Holds stop array str) :
    str.length + 1 ≤ array.length := by
  simpa using holds.text.length_le

/-- The string is what is read up to the first terminator. -/
theorem Holds.read [DecidableEq α] {array str : List α} (holds : Holds stop array str) :
    array.takeWhile (fun c => decide (c ≠ stop)) = str := by
  obtain ⟨rest, rfl⟩ := holds.text
  have kept : ∀ c ∈ str, decide (c ≠ stop) = true := by
    intro c member
    exact decide_eq_true (fun same => holds.inside (same ▸ member))
  rw [List.append_assoc, List.takeWhile_append_of_pos kept]
  simp

theorem Holds.unique {array str str' : List α} (holds : Holds stop array str)
    (holds' : Holds stop array str') : str = str' := by
  classical exact holds.read.symm.trans holds'.read

theorem Holds.starts {array str : List α} (holds : Holds stop array str) : str <+: array :=
  (List.prefix_append str [stop]).trans holds.text

/-- What is stored behind a string is appended to it, with the terminator at the end. -/
theorem write_behind {array str more : List α} (starts : str <+: array)
    (room : str.length + more.length + 1 ≤ array.length) (inside : stop ∉ str)
    (insideMore : stop ∉ more) :
    ∃ after, write array str.length (more ++ [stop]) = some after ∧
      Holds stop after (str ++ more) := by
  refine ⟨_, if_pos (by simpa using by omega), ?_, ?_⟩
  · obtain ⟨rest, rfl⟩ := starts
    rw [List.take_left, ← List.append_assoc str]
    exact List.prefix_append _ _
  · simpa using ⟨inside, insideMore⟩

theorem Holds.append {array str more : List α} (holds : Holds stop array str)
    (room : str.length + more.length + 1 ≤ array.length) (inside : stop ∉ more) :
    ∃ after, write array str.length (more ++ [stop]) = some after ∧
      Holds stop after (str ++ more) :=
  write_behind holds.starts room holds.inside inside

/-- A terminator stored within the string cuts it off. -/
theorem Holds.cut {array str : List α} (holds : Holds stop array str) {count : Nat}
    (short : count ≤ str.length) :
    ∃ after, write array count [stop] = some after ∧ Holds stop after (str.take count) := by
  have room := holds.room
  have length : (str.take count).length = count := List.length_take_of_le short
  have nothing : stop ∉ ([] : List α) := List.not_mem_nil
  have cut := write_behind ((List.take_prefix count str).trans holds.starts)
    (by simp only [length, List.length_nil]; omega)
    (fun member => holds.inside (List.mem_of_mem_take member)) nothing
  rwa [length, List.append_nil] at cut

theorem holds_empty {array : List α} (room : 1 ≤ array.length) :
    ∃ after, write array 0 [stop] = some after ∧ Holds stop after [] :=
  write_behind List.nil_prefix (by simpa using room) List.not_mem_nil List.not_mem_nil

end Sac2c.TerminatedArrays
