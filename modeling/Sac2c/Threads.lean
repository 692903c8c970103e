import Mathlib.Algebra.BigOperators.Group.Finset.Basic
import Mathlib.Algebra.Order.BigOperators.Group.Finset

/-!
A fixed number of threads, each in a phase of its own, of which one moves at a
time. `total` adds up a weight over all threads; a move changes the total by the
weights of the moving thread alone.
-/

namespace Sac2c.Threads

variable {Phase : Type}

def total (count : Nat) (weight : Nat → Phase → Nat) (phase : Nat → Phase) : Nat :=
  ∑ thread ∈ Finset.range count, weight thread (phase thread)

theorem total_moved {count : Nat} (weight : Nat → Phase → Nat) (phase : Nat → Phase)
    {thread : Nat} (inside : thread < count) (next : Phase) :
    total count weight (Function.update phase thread next) + weight thread (phase thread) =
      total count weight phase + weight thread next := by
  have member : thread ∈ Finset.range count := Finset.mem_range.mpr inside
  simp only [total]
  rw [← Finset.add_sum_erase _ _ member, ← Finset.add_sum_erase _ _ member]
  have others : ∑ other ∈ (Finset.range count).erase thread,
        weight other (Function.update phase thread next other) =
      ∑ other ∈ (Finset.range count).erase thread, weight other (phase other) := by
    apply Finset.sum_congr rfl
    intro other apart
    rw [Function.update_of_ne (Finset.ne_of_mem_erase apart)]
  rw [others, Function.update_self]
  omega

theorem weight_le_total {count : Nat} (weight : Nat → Phase → Nat) (phase : Nat → Phase)
    {thread : Nat} (inside : thread < count) :
    weight thread (phase thread) ≤ total count weight phase :=
  Finset.single_le_sum (f := fun thread => weight thread (phase thread))
    (fun _ _ => Nat.zero_le _) (Finset.mem_range.mpr inside)

theorem total_eq_zero {count : Nat} (weight : Nat → Phase → Nat) (phase : Nat → Phase)
    (none : ∀ thread, thread < count → weight thread (phase thread) = 0) :
    total count weight phase = 0 :=
  Finset.sum_eq_zero fun thread member => none thread (Finset.mem_range.mp member)

/-- A weight that only the thread with one given number has. -/
theorem total_single {count : Nat} (weight : Nat → Phase → Nat) (phase : Nat → Phase)
    {only : Nat} (inside : only < count)
    (others : ∀ thread, thread < count → thread ≠ only → weight thread (phase thread) = 0) :
    total count weight phase = weight only (phase only) :=
  Finset.sum_eq_single_of_mem only (Finset.mem_range.mpr inside)
    fun thread member apart => others thread (Finset.mem_range.mp member) apart

end Sac2c.Threads
