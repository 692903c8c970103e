import Mathlib.Data.List.Forall2
import Mathlib.Algebra.BigOperators.Group.List.Basic
import Mathlib.Tactic.Ring

/-!
Row-major positions of the indices of an array, for every rank. A position has one
digit for each axis; the digits of the next position are those of an odometer.
-/

namespace Sac2c.RowMajor

/-- An index into a shape. -/
abbrev Within (idx shape : List Nat) : Prop := List.Forall₂ (· < ·) idx shape

/-- The position of an index, of which the last entries may be left out. -/
def position : List Nat → List Nat → Nat
  | _ :: shape, i :: idx => i * shape.prod + position shape idx
  | _, _ => 0

/-- The index at a position. -/
def digits : List Nat → Nat → List Nat
  | [], _ => []
  | _ :: shape, p => p / shape.prod :: digits shape (p % shape.prod)

section Positions

variable {shape shape' idx idx' : List Nat}

theorem position_append (same : idx.length = shape.length) :
    position (shape ++ shape') (idx ++ idx') =
      position shape idx * shape'.prod + position shape' idx' := by
  induction shape generalizing idx with
  | nil => simp [List.length_eq_zero_iff.mp same, position]
  | cons e shape ih =>
      cases idx with
      | nil => simp at same
      | cons i idx =>
          simp only [List.cons_append, position, List.prod_append, ih (by simpa using same)]
          ring

theorem position_lt (within : Within idx shape) : position shape idx < shape.prod := by
  induction within with
  | nil => simp [position]
  | @cons i e idx shape lt _ ih =>
      rw [position, List.prod_cons]
      calc i * shape.prod + position shape idx < i * shape.prod + shape.prod := by omega
        _ = (i + 1) * shape.prod := by ring
        _ ≤ e * shape.prod := Nat.mul_le_mul_right _ lt

/-- An index that is in range leaves no axis empty. -/
theorem within_filled (within : Within idx shape) : 0 ∉ shape := by
  induction within with
  | nil => simp
  | cons lt _ ih =>
      rw [List.mem_cons, not_or]
      exact ⟨by omega, ih⟩

theorem digits_length (p : Nat) : (digits shape p).length = shape.length := by
  induction shape generalizing p with
  | nil => rfl
  | cons e shape ih => simp [digits, ih]

theorem digits_within {p : Nat} (inside : p < shape.prod) : Within (digits shape p) shape := by
  induction shape generalizing p with
  | nil => exact .nil
  | cons e shape ih =>
      rw [List.prod_cons] at inside
      have filled : 0 < shape.prod := Nat.pos_of_ne_zero fun none => by simp [none] at inside
      exact .cons (Nat.div_lt_of_lt_mul (by rwa [Nat.mul_comm])) (ih (Nat.mod_lt _ filled))

theorem position_digits {p : Nat} (inside : p < shape.prod) :
    position shape (digits shape p) = p := by
  induction shape generalizing p with
  | nil => simpa [position, digits, eq_comm] using inside
  | cons e shape ih =>
      rw [List.prod_cons] at inside
      have filled : 0 < shape.prod := Nat.pos_of_ne_zero fun none => by simp [none] at inside
      rw [digits, position, ih (Nat.mod_lt _ filled)]
      exact Nat.div_add_mod' p shape.prod

theorem digits_position (within : Within idx shape) : digits shape (position shape idx) = idx := by
  induction within with
  | nil => rfl
  | @cons i e idx shape _ within ih =>
      have lt := position_lt within
      have first : (i * shape.prod + position shape idx) / shape.prod = i := by
        rw [Nat.mul_comm, Nat.mul_add_div (by omega), Nat.div_eq_of_lt lt, Nat.add_zero]
      have rest : (i * shape.prod + position shape idx) % shape.prod = position shape idx := by
        rw [Nat.mul_comm, Nat.mul_add_mod, Nat.mod_eq_of_lt lt]
      rw [position, digits, first, rest, ih]

theorem digits_snoc {e p : Nat} (inside : p < shape.prod * e) :
    digits (shape ++ [e]) p = digits shape (p / e) ++ [p % e] := by
  induction shape generalizing p with
  | nil =>
      rw [List.prod_nil, Nat.one_mul] at inside
      simp [digits, Nat.mod_eq_of_lt inside]
  | cons f shape ih =>
      rw [List.prod_cons, Nat.mul_assoc] at inside
      have filled : 0 < shape.prod * e := Nat.pos_of_ne_zero fun none => by simp [none] at inside
      have middle : p % (shape.prod * e) / e = p / e % shape.prod := by
        rw [Nat.mul_comm, Nat.mod_mul_right_div_self]
      have product : (shape ++ [e]).prod = shape.prod * e := by simp
      rw [List.cons_append, digits, product, ih (Nat.mod_lt _ filled), middle, Nat.mod_mul_left_mod,
        digits, Nat.div_div_eq_div_mul, Nat.mul_comm e, List.cons_append]

/-- The next position, if the last axis is at its end. -/
theorem next_turned {p e : Nat} (turned : p % e + 1 = e) (n : Nat) :
    (p + 1) / e = p / e + 1 ∧ (p + 1) % e = 0 ∧ (p + 1 < n * e ↔ p / e + 1 < n) := by
  have filled : 0 < e := by omega
  have next : p + 1 = (p / e + 1) * e := by
    have division := Nat.div_add_mod p e
    rw [Nat.add_mul, Nat.one_mul, Nat.mul_comm]
    omega
  rw [next, Nat.mul_div_cancel _ filled, Nat.mul_mod_left, Nat.mul_lt_mul_right filled]
  exact ⟨rfl, rfl, Iff.rfl⟩

/-- The next position, if the last axis is not at its end. -/
theorem next_counted {p e : Nat} (below : p % e + 1 < e) {n : Nat} (outer : p / e < n) :
    (p + 1) / e = p / e ∧ (p + 1) % e = p % e + 1 ∧ p + 1 < n * e := by
  have filled : 0 < e := by omega
  have next : p + 1 = e * (p / e) + (p % e + 1) := by
    have division := Nat.div_add_mod p e
    omega
  have quotient : (p + 1) / e = p / e := by
    rw [next, Nat.mul_add_div filled, Nat.div_eq_of_lt below, Nat.add_zero]
  have remainder : (p + 1) % e = p % e + 1 := by
    rw [next, Nat.mul_add_mod, Nat.mod_eq_of_lt below]
  exact ⟨quotient, remainder, (Nat.div_lt_iff_lt_mul filled).mp (quotient ▸ outer)⟩

end Positions

section Blocks

variable {α : Type}

theorem flat_length {block : Nat → List α} {size : Nat} (n : Nat)
    (sized : ∀ k < n, (block k).length = size) :
    ((List.range n).flatMap block).length = n * size := by
  rw [List.length_flatMap, List.map_congr_left (g := fun _ => size)]
  · simp
  · exact fun k member => sized k (List.mem_range.mp member)

/-- An element of blocks of one size that are joined. -/
theorem flat_get {block : Nat → List α} {size : Nat} (n : Nat)
    (sized : ∀ k < n, (block k).length = size) {k i : Nat} (inside : k < n) (within : i < size) :
    ((List.range n).flatMap block)[k * size + i]? = (block k)[i]? := by
  induction n with
  | zero => cases inside
  | succ n ih =>
      have length := flat_length n fun k less => sized k (Nat.lt_succ_of_lt less)
      rw [List.range_succ, List.flatMap_append, List.flatMap_singleton]
      by_cases last : k = n
      · rw [last, List.getElem?_append_right (by omega), length]
        congr 1
        omega
      · have earlier : k < n := by omega
        have before : k * size + i < n * size :=
          calc k * size + i < k * size + size := by omega
            _ = (k + 1) * size := by ring
            _ ≤ n * size := Nat.mul_le_mul_right _ earlier
        rw [List.getElem?_append_left (by omega),
          ih (fun k less => sized k (Nat.lt_succ_of_lt less)) earlier]

/-- One of the joined blocks. -/
theorem flat_block {block : Nat → List α} {size : Nat} (n : Nat)
    (sized : ∀ k < n, (block k).length = size) {k : Nat} (inside : k < n) :
    (((List.range n).flatMap block).drop (k * size)).take size = block k := by
  apply List.ext_getElem?
  intro i
  by_cases within : i < size
  · rw [List.getElem?_take_of_lt within, List.getElem?_drop, flat_get n sized inside within]
  · have length := sized k inside
    rw [List.getElem?_take_eq_none (by omega), List.getElem?_eq_none (by omega)]

end Blocks

end Sac2c.RowMajor
