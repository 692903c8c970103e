import Mathlib.Data.BitVec
import Mathlib.Data.List.Basic

/-!
Sets of positions kept in lists of machine words. Position `p` is bit `p % w` of word `p / w`; a
position beyond the last word has a given default. A word by word loop over such a list acts on
every bit on its own.
-/

namespace Sac2c.BitWords

variable {w : Nat}

/-- The word whose only set bit is `bit`. -/
def oneAt (w bit : Nat) : BitVec w :=
  1#w <<< bit

def bitOr (default : Bool) (words : List (BitVec w)) (position : Nat) : Bool :=
  match words[position / w]? with
  | some word => word.getLsbD (position % w)
  | none => default

/-- All bits of a word have one value. -/
def fill (w : Nat) (value : Bool) : BitVec w :=
  if value then ~~~0#w else 0#w

theorem getLsbD_oneAt {bit other : Nat} (inside : other < w) :
    (oneAt w bit).getLsbD other = decide (bit = other) := by
  have positive : 0 < w := by omega
  simp only [oneAt, BitVec.getLsbD_shiftLeft, BitVec.getLsbD_one, inside, positive, decide_true,
    Bool.true_and]
  by_cases below : other < bit
  · have : bit ≠ other := by omega
    simp [below, this]
  · have same : other - bit = 0 ↔ bit = other := by omega
    simp [below, same]

@[simp] theorem getLsbD_fill {value : Bool} {bit : Nat} (inside : bit < w) :
    (fill w value).getLsbD bit = value := by
  cases value <;> simp [fill, inside]

/-- The masked word is positive exactly when the bit is set. -/
theorem and_oneAt_pos {word : BitVec w} {bit : Nat} (inside : bit < w) :
    0#w < word &&& oneAt w bit ↔ word.getLsbD bit = true := by
  rw [BitVec.pos_iff_ne_zero]
  constructor
  · intro nonzero
    by_contra clear
    refine nonzero (BitVec.eq_of_getLsbD_eq fun other below => ?_)
    rw [BitVec.getLsbD_and, getLsbD_oneAt below, BitVec.getLsbD_zero]
    by_cases same : bit = other
    · subst same
      simpa using clear
    · simp [same]
  · intro set zero
    have bits := congrArg (fun masked => masked.getLsbD bit) zero
    simp [BitVec.getLsbD_and, getLsbD_oneAt inside, set] at bits

section Lists

variable {default : Bool} {words : List (BitVec w)} {position : Nat}

theorem bitOr_of_lt (inside : position / w < words.length) :
    bitOr default words position = (words[position / w]).getLsbD (position % w) := by
  simp [bitOr, List.getElem?_eq_getElem inside]

theorem bitOr_of_ge (outside : words.length ≤ position / w) :
    bitOr default words position = default := by
  simp [bitOr, List.getElem?_eq_none outside]

/-- Words filled with the default leave every position as it is. -/
theorem bitOr_append_fill (positive : 0 < w) (count : Nat) :
    bitOr default (words ++ List.replicate count (fill w default)) position =
      bitOr default words position := by
  have bit : position % w < w := Nat.mod_lt _ positive
  by_cases inside : position / w < words.length
  · simp only [bitOr, List.getElem?_append_left inside]
  · rw [bitOr_of_ge (by omega : words.length ≤ position / w)]
    simp only [bitOr, List.getElem?_append_right (by omega : words.length ≤ position / w),
      List.getElem?_replicate]
    by_cases added : position / w - words.length < count
    · simp only [added, ↓reduceIte, getLsbD_fill bit]
    · simp only [added, ↓reduceIte]

/-- A loop over the words that computes each from its index and its old value. -/
theorem bitOr_mapIdx (f : Nat → BitVec w → BitVec w) (inside : position / w < words.length) :
    bitOr default (words.mapIdx f) position =
      (f (position / w) words[position / w]).getLsbD (position % w) := by
  simp [bitOr, List.getElem?_eq_getElem inside]

theorem position_ext (w : Nat) {p q : Nat} :
    p = q ↔ p / w = q / w ∧ p % w = q % w := by
  constructor
  · rintro rfl
    exact ⟨rfl, rfl⟩
  · rintro ⟨quotients, remainders⟩
    rw [← Nat.div_add_mod p w, ← Nat.div_add_mod q w, quotients, remainders]

/-- Writing one word changes the positions of that word only. -/
theorem bitOr_modify (positive : 0 < w) {f : BitVec w → BitVec w} {target : Nat} {value : Bool}
    (inside : target / w < words.length)
    (writes : ∀ word bit, bit < w →
      (f word).getLsbD bit = if bit = target % w then value else word.getLsbD bit) :
    bitOr default (words.modify (target / w) f) position =
      if position = target then value else bitOr default words position := by
  have bit : position % w < w := Nat.mod_lt _ positive
  by_cases same : target / w = position / w
  · have found : position / w < words.length := by omega
    have cut : position = target ↔ position % w = target % w := by
      rw [position_ext w, same]
      exact and_iff_right rfl
    simp only [bitOr, List.getElem?_modify, List.getElem?_eq_getElem found, same, ↓reduceIte,
      Option.map_eq_map, Option.map_some, writes _ _ bit, cut]
  · have other : position ≠ target := by
      rintro rfl
      exact same rfl
    simp only [bitOr, List.getElem?_modify, same, other, ↓reduceIte, Option.map_eq_map,
      Option.map_id_fun', id_eq]

end Lists

end Sac2c.BitWords
