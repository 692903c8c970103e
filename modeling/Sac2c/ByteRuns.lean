import Mathlib.Data.Int.Order.Basic
import Mathlib.Tactic.Common
import Mathlib.Tactic.Ring

/-!
Bytes within words, and the runs of stores that memset and memcpy are. The runs are over any
memory with a load and a store at integer addresses; what they leave behind follows from the
one law that a load sees the last store to its address.
-/

namespace Sac2c.ByteRuns

section Words

/-- Byte `index` of a word, the lowest one being byte 0. -/
def wordByte (word : Int) (index : Nat) : BitVec 8 := BitVec.ofInt 8 (word / 256 ^ index)

def setWordByte (word : Int) (index : Nat) (byte : BitVec 8) : Int :=
  word + (byte.toNat - word / 256 ^ index % 256) * 256 ^ index

/-- The digit is replaced, and the digits above it stay in place. -/
theorem set_word_byte_div (word : Int) (index : Nat) (byte : BitVec 8) :
    setWordByte word index byte / 256 ^ index = word / 256 ^ index / 256 * 256 + byte.toNat := by
  have positive : (256 : Int) ^ index ≠ 0 := ne_of_gt (Int.pow_pos (by decide))
  have division := Int.emod_add_mul_ediv (word / 256 ^ index) 256
  rw [setWordByte, Int.add_mul_ediv_right _ _ positive]
  omega

theorem word_byte_set_same (word : Int) (index : Nat) (byte : BitVec 8) :
    wordByte (setWordByte word index byte) index = byte := by
  have small := byte.isLt
  rw [wordByte, set_word_byte_div]
  apply BitVec.eq_of_toNat_eq
  rw [BitVec.toNat_ofInt]
  omega

/-- A byte above the one that was set comes from the digits above it. -/
theorem word_byte_set_above (word : Int) {index other : Nat} (above : index < other)
    (byte : BitVec 8) : wordByte (setWordByte word index byte) other = wordByte word other := by
  obtain ⟨more, rfl⟩ : ∃ more, other = index + (1 + more) := ⟨other - index - 1, by omega⟩
  have small := byte.isLt
  have nonneg : (0 : Int) ≤ 256 ^ index := le_of_lt (Int.pow_pos (by decide))
  have split : ∀ value : Int, value / 256 ^ (index + (1 + more)) =
      value / 256 ^ index / 256 / 256 ^ more := by
    intro value
    rw [Int.pow_add, Int.pow_add, Int.pow_one, Int.ediv_ediv_of_nonneg nonneg,
      Int.ediv_ediv_of_nonneg (Int.mul_nonneg nonneg (by decide)), Int.mul_assoc]
  rw [wordByte, wordByte, split, split, set_word_byte_div]
  congr 2
  omega

/-- To a byte below, a multiple of a power of 256 was added. -/
theorem word_byte_set_below (word : Int) {index other : Nat} (below : other < index)
    (byte : BitVec 8) : wordByte (setWordByte word index byte) other = wordByte word other := by
  obtain ⟨more, rfl⟩ : ∃ more, index = other + (more + 1) := ⟨index - other - 1, by omega⟩
  have positive : (256 : Int) ^ other ≠ 0 := ne_of_gt (Int.pow_pos (by decide))
  have added : setWordByte word (other + (more + 1)) byte = word +
      (byte.toNat - word / 256 ^ (other + (more + 1)) % 256) * 256 ^ more * 256 *
        256 ^ other := by
    rw [setWordByte, Int.pow_add, Int.pow_add, Int.pow_one]
    ring
  rw [wordByte, wordByte, added, Int.add_mul_ediv_right _ _ positive]
  apply BitVec.eq_of_toNat_eq
  rw [BitVec.toNat_ofInt, BitVec.toNat_ofInt]
  omega

theorem word_byte_set (word : Int) (index other : Nat) (byte : BitVec 8) :
    wordByte (setWordByte word index byte) other =
      if other = index then byte else wordByte word other := by
  split_ifs with same
  · rw [same, word_byte_set_same]
  · rcases Nat.lt_or_gt_of_ne same with below | above
    · exact word_byte_set_below word below byte
    · exact word_byte_set_above word above byte

end Words

section Runs

variable {Memory Value View : Type} (load : Memory → Int → Value)
  (store : Memory → Int → Value → Memory)

/-- A load sees the last store to its address. -/
def Lawful : Prop :=
  ∀ memory addr value other,
    load (store memory addr value) other = if other = addr then value else load memory other

/-- memset: `count` values from `start` on. -/
def fill (memory : Memory) (start : Int) (value : Value) : Nat → Memory
  | 0 => memory
  | count + 1 => store (fill memory start value count) (start + count) value

/-- memcpy: `count` values from `source` on, from the lowest address to the highest. -/
def copy (memory : Memory) (target source : Int) : Nat → Memory
  | 0 => memory
  | count + 1 =>
      let memory := copy memory target source count
      store memory (target + count) (load memory (source + count))

variable {load store} (lawful : Lawful load store)

include lawful in
theorem load_fill (memory : Memory) (start : Int) (value : Value) (count : Nat) (addr : Int) :
    load (fill store memory start value count) addr =
      if start ≤ addr ∧ addr < start + count then value else load memory addr := by
  induction count with
  | zero => rw [fill, if_neg (by omega)]
  | succ count ih =>
      rw [fill, lawful, ih]
      by_cases last : addr = start + count
      · rw [if_pos last, if_pos (by omega)]
      · rw [if_neg last]
        by_cases inside : start ≤ addr ∧ addr < start + count
        · rw [if_pos inside, if_pos (by omega)]
        · rw [if_neg inside, if_neg (by omega)]

include lawful in
theorem load_copy_outside (memory : Memory) (target source : Int) (count : Nat) {addr : Int}
    (outside : addr < target ∨ target + count ≤ addr) :
    load (copy load store memory target source count) addr = load memory addr := by
  induction count with
  | zero => rfl
  | succ count ih => rw [copy, lawful, if_neg (by omega), ih (by omega)]

include lawful in
/-- The values of a source that the target does not meet arrive. -/
theorem load_copy (memory : Memory) (target source : Int) (count : Nat)
    (apart : target + count ≤ source ∨ source + count ≤ target) {index : Int} (low : 0 ≤ index)
    (high : index < count) :
    load (copy load store memory target source count) (target + index) =
      load memory (source + index) := by
  induction count with
  | zero => omega
  | succ count ih =>
      rw [copy, lawful]
      by_cases last : index = count
      · rw [if_pos (by rw [last]), load_copy_outside lawful memory target source count (by omega),
          last]
      · rw [if_neg (by omega), ih (by omega) (by omega)]

/-- What no store to the addresses of a run changes, the run does not change. -/
theorem fill_keeps (view : Memory → View) (memory : Memory) (start : Int) (value : Value)
    (count : Nat) (kept : ∀ memory addr, start ≤ addr → addr < start + count →
      view (store memory addr value) = view memory) :
    view (fill store memory start value count) = view memory := by
  induction count with
  | zero => rfl
  | succ count ih =>
      rw [fill, kept _ _ (by omega) (by omega)]
      exact ih fun memory addr above below => kept memory addr above (by omega)

theorem copy_keeps (view : Memory → View) (memory : Memory) (target source : Int) (count : Nat)
    (kept : ∀ memory addr value, target ≤ addr → addr < target + count →
      view (store memory addr value) = view memory) :
    view (copy load store memory target source count) = view memory := by
  induction count with
  | zero => rfl
  | succ count ih =>
      rw [copy, kept _ _ _ (by omega) (by omega)]
      exact ih fun memory addr value above below => kept memory addr value above (by omega)

end Runs

end Sac2c.ByteRuns
