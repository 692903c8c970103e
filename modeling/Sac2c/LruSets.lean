import Mathlib.Data.List.Basic
import Mathlib.Data.List.Nodup
import Mathlib.Tactic.Common

/-!
Sets of a cache: distinct lines in the order of their last use, the least recently used one first.
A line is valid or only written.
-/

namespace Sac2c.LruSets

variable {Line : Type}

structure Entry (Line : Type) where
  line : Line
  valid : Bool
  deriving DecidableEq

/-- Distinct lines, not more than there is room for. -/
structure Kept (capacity : Nat) (set : List (Entry Line)) : Prop where
  room : set.length ≤ capacity
  distinct : (set.map fun entry => entry.line).Nodup

theorem kept_nil (capacity : Nat) : Kept capacity ([] : List (Entry Line)) :=
  ⟨Nat.zero_le _, List.nodup_nil⟩

variable [DecidableEq Line]

/-- The other lines of a set. -/
def without (set : List (Entry Line)) (line : Line) : List (Entry Line) :=
  set.filter fun entry => entry.line ≠ line

/-- The entry becomes the most recently used one; a full set loses its least recently used line. -/
def touch (capacity : Nat) (set : List (Entry Line)) (entry : Entry Line) : List (Entry Line) :=
  let others := without set entry.line
  (if others.length < capacity then others else others.tail) ++ [entry]

theorem without_absent {set : List (Entry Line)} {line : Line}
    (absent : ∀ entry ∈ set, entry.line ≠ line) : without set line = set := by
  rw [without, List.filter_eq_self]
  intro entry mem
  simpa using absent entry mem

/-- A line of a set stands at one place. -/
theorem split_present {set : List (Entry Line)} (distinct : (set.map fun entry => entry.line).Nodup)
    {entry : Entry Line} (mem : entry ∈ set) :
    ∃ before after, set = before ++ entry :: after ∧
      (∀ other ∈ before ++ after, other.line ≠ entry.line) ∧
      without set entry.line = before ++ after := by
  obtain ⟨before, after, rfl⟩ := List.append_of_mem mem
  have apart : ∀ other ∈ before ++ after, other.line ≠ entry.line := by
    intro other present same
    simp only [List.map_append, List.map_cons, List.nodup_append, List.nodup_cons] at distinct
    obtain ⟨_, ⟨notAfter, _⟩, notBefore⟩ := distinct
    rcases List.mem_append.mp present with first | second
    · exact notBefore _ (List.mem_map_of_mem first) _ List.mem_cons_self same
    · exact notAfter (same ▸ List.mem_map_of_mem second)
  refine ⟨before, after, rfl, apart, ?_⟩
  have kept := without_absent apart
  rw [without, List.filter_append] at kept
  rw [without, List.filter_append, List.filter_cons_of_neg (by simp)]
  exact kept

theorem touch_present {capacity : Nat} {set before after : List (Entry Line)}
    {entry : Entry Line} (others : without set entry.line = before ++ after)
    (room : before.length + 1 + after.length ≤ capacity) :
    touch capacity set entry = before ++ after ++ [entry] := by
  have smaller : (before ++ after).length < capacity := by
    rw [List.length_append]
    omega
  simp only [touch, others, smaller, if_true]

theorem touch_absent {capacity : Nat} {set : List (Entry Line)} {entry : Entry Line}
    (absent : ∀ other ∈ set, other.line ≠ entry.line) :
    touch capacity set entry =
      (if set.length < capacity then set else set.tail) ++ [entry] := by
  simp only [touch, without_absent absent]

theorem touch_kept {capacity : Nat} {set : List (Entry Line)} (kept : Kept capacity set)
    (positive : 0 < capacity) (entry : Entry Line) : Kept capacity (touch capacity set entry) := by
  have others : ((without set entry.line).map fun other => other.line).Nodup :=
    kept.distinct.sublist (List.Sublist.map _ List.filter_sublist)
  have absent : ∀ other ∈ without set entry.line, other.line ≠ entry.line := by
    intro other mem
    simpa using (List.mem_filter.mp mem).2
  have smaller : (without set entry.line).length ≤ capacity :=
    Nat.le_trans (List.length_filter_le _ _) kept.room
  have appended : ∀ rest : List (Entry Line), rest.Sublist (without set entry.line) →
      rest.length < capacity → Kept capacity (rest ++ [entry]) := by
    intro rest sub less
    constructor
    · rw [List.length_append]
      exact less
    · rw [List.map_append, List.nodup_append]
      refine ⟨others.sublist (sub.map _), List.nodup_singleton _, ?_⟩
      intro line first line' second same
      obtain ⟨other, mem, rfl⟩ := List.mem_map.mp first
      simp only [List.map_cons, List.map_nil, List.mem_singleton] at second
      exact absent other (sub.subset mem) (same.trans second)
  unfold touch
  by_cases room : (without set entry.line).length < capacity
  · simp only [room, if_true]
    exact appended _ (List.Sublist.refl _) room
  · simp only [room, if_false]
    refine appended _ (List.tail_sublist _) ?_
    rw [List.length_tail]
    omega

end Sac2c.LruSets
