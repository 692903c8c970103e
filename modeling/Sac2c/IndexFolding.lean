import Mathlib.Data.List.Induction
import Mathlib.Data.List.Lex
import Sac2c.RowMajor

/-!
COcreateAllIndicesAndFold of constants/constants_basic.c, which calls a function for
each index vector of a shape. The index vector is counted up in place like an odometer.
The loop is entered if the length of the unrolled shape, as an int, is positive: a shape
whose length has its lower 32 bits zero or the bit of the sign set is taken for empty.
-/

namespace Sac2c.IndexFolding

open RowMajor

section Model

/-- A shape, with extents that are ints. -/
structure Shape where
  exts : List Nat
  ints : ∀ ext ∈ exts, ext < 2 ^ 31

/-- SHgetUnrLen, a product of long longs that is undefined if it overflows. -/
def getUnrLen : List Nat → Option Nat
  | [] => some 1
  | ext :: exts => do
      let length ← getUnrLen exts
      if length * ext < 2 ^ 63 then some (length * ext) else none

/-- A long long stored in an int. -/
def toInt (length : Nat) : Int := Int.bmod length (2 ^ 32)

/-- The constant that is passed to the function. -/
structure Constant where
  shape : List Nat
  elems : List Nat
  deriving DecidableEq, Repr

def increment (datav : List Nat) (d : Nat) : Option (List Nat) :=
  datav[d]?.map fun digit => datav.set d (digit + 1)

/-- The inner loop, from d on. -/
def carry (exts : List Nat) : Nat → List Nat → Option (Nat × List Nat)
  | 0, datav => some (0, datav)
  | d + 1, datav => do
      let digit ← datav[d + 1]?
      let ext ← exts[d + 1]?
      if digit = ext then
        carry exts d (← increment (datav.set (d + 1) 0) d)
      else some (d + 1, datav)

/-- The end of a round: the next index vector, and whether there is one. -/
def turn (exts : List Nat) (maxD : Nat) (datav : List Nat) : Option (Bool × List Nat) := do
  let (d, datav) ← carry exts maxD (← increment datav maxD)
  let digit ← datav[d]?
  let ext ← exts[d]?
  some (decide (digit < ext), datav)

variable {A B : Type}

/-- The outer loop. -/
def rounds (exts : List Nat) (foldfun : Constant → A → B → A) (attr : B)
    (idxShape : List Nat) (maxD : Nat) : Nat → List Nat → A → Option A
  | 0, _, _ => none
  | fuel + 1, datav, accu => do
      let accu := foldfun ⟨idxShape, datav⟩ accu attr
      let (more, datav) ← turn exts maxD datav
      if more then rounds exts foldfun attr idxShape maxD fuel datav accu else some accu

/-- COcreateAllIndicesAndFold. -/
def createAllIndicesAndFold (fuel : Nat) (shp : Shape) (foldfun : Constant → A → B → A)
    (accu : A) (attr : B) (scalaridx : Bool) : Option A := do
  let dim := shp.exts.length
  let idx : Constant := if scalaridx then ⟨[], [0]⟩ else ⟨[dim], List.replicate dim 0⟩
  let len := toInt (← getUnrLen shp.exts)
  match dim with
  | 0 => some (foldfun idx accu attr)
  | maxD + 1 =>
      if 0 < len then rounds shp.exts foldfun attr idx.shape maxD fuel idx.elems accu
      else some accu

end Model

section Odometer

variable {front v w tail : List Nat}

theorem increment_append {d : Nat} (inside : d < v.length) :
    increment (v ++ w) d = (increment v d).map (· ++ w) := by
  have here : v[d]? = some v[d] := List.getElem?_eq_getElem inside
  simp [increment, List.getElem?_append_left inside, List.set_append_left _ _ inside, here]

/-- The digits behind d are left as they are. -/
theorem carry_append {d : Nat} (within : d < v.length) (same : v.length = front.length) :
    carry (front ++ tail) d (v ++ w) = (carry front d v).map fun (d, v) => (d, v ++ w) := by
  induction d generalizing v with
  | zero => rfl
  | succ d ih =>
      have before : d < (v.set (d + 1) 0).length := by
        rw [List.length_set]
        omega
      have digit : v[d + 1]? = some v[d + 1] := List.getElem?_eq_getElem within
      have ext : front[d + 1]? = some (front.get ⟨d + 1, same ▸ within⟩) :=
        List.getElem?_eq_getElem _
      simp only [carry, List.getElem?_append_left within,
        List.getElem?_append_left (same ▸ within), digit, ext, Option.bind_eq_bind,
        Option.bind_some]
      split
      · rw [List.set_append_left _ _ within, increment_append before]
        have here : (v.set (d + 1) 0)[d]? = some (v.set (d + 1) 0)[d] :=
          List.getElem?_eq_getElem before
        simp only [increment, here, Option.map_some, Option.bind_some]
        exact ih (by simpa using before) (by simpa using same)
      · rfl

theorem increment_length {next : List Nat} {d : Nat} (done : increment v d = some next) :
    next.length = v.length := by
  simp only [increment, Option.map_eq_some_iff] at done
  obtain ⟨digit, _, rfl⟩ := done
  simp

theorem carry_inside {next : List Nat} {d stop : Nat}
    (done : carry front d v = some (stop, next)) : stop ≤ d ∧ next.length = v.length := by
  induction d generalizing v with
  | zero =>
      cases done
      simp
  | succ d ih =>
      simp only [carry, Option.bind_eq_bind, Option.bind_eq_some_iff] at done
      obtain ⟨digit, _, ext, _, done⟩ := done
      split at done
      · obtain ⟨middle, counted, done⟩ := Option.bind_eq_some_iff.mp done
        have rest := ih done
        have kept := increment_length counted
        simp only [List.length_set] at kept
        omega
      · cases done
        simp

theorem turn_snoc {front v : List Nat} {d e i : Nat} (front_length : front.length = d + 1)
    (length : v.length = d + 1) :
    turn (front ++ [e]) (d + 1) (v ++ [i]) =
      if i + 1 = e then (turn front d v).map fun (more, v) => (more, v ++ [0])
      else some (decide (i + 1 < e), v ++ [i + 1]) := by
  have last (j : Nat) : (v ++ [j])[d + 1]? = some j := by simp [← length]
  have ext : (front ++ [e])[d + 1]? = some e := by simp [← front_length]
  have first : increment (v ++ [i]) (d + 1) = some (v ++ [i + 1]) := by
    simp [increment, ← length]
  simp only [turn, first, Option.bind_eq_bind, Option.bind_some, carry, last, ext]
  split
  · have cleared : (v ++ [i + 1]).set (d + 1) 0 = v ++ [0] := by simp [← length]
    rw [cleared, increment_append (by omega)]
    cases inner : increment v d with
    | none => rfl
    | some next =>
        have next_length := increment_length inner
        simp only [Option.map_some, Option.bind_some]
        rw [carry_append (by omega) (by omega)]
        cases carried : carry front d next with
        | none => rfl
        | some stopped =>
            obtain ⟨stop, v'⟩ := stopped
            have inside := carry_inside carried
            simp only [Option.map_some, Option.bind_some]
            rw [List.getElem?_append_left (by omega), List.getElem?_append_left (by omega)]
            cases v'[stop]? <;> cases front[stop]? <;> rfl
  · simp [last, ext]

/-- The index vectors are turned through in row-major order. -/
theorem turn_digits {d p : Nat} {exts : List Nat} (rank : exts.length = d + 1)
    (inside : p < exts.prod) :
    ∃ next, turn exts d (digits exts p) = some (decide (p + 1 < exts.prod), next) ∧
      (p + 1 < exts.prod → next = digits exts (p + 1)) := by
  induction exts using List.reverseRecOn generalizing d p with
  | nil => simp at rank
  | append_singleton front e ih =>
      have product : (front ++ [e]).prod = front.prod * e := by simp
      rw [product] at inside ⊢
      have filled : 0 < e := Nat.pos_of_ne_zero fun none => by simp [none] at inside
      have outer : p / e < front.prod := Nat.div_lt_of_lt_mul (by rwa [Nat.mul_comm])
      rw [digits_snoc inside]
      cases d with
      | zero =>
          have alone : front = [] := by simpa using rank
          subst alone
          have small : p < e := by simpa using inside
          refine ⟨[p + 1], ?_, fun again => ?_⟩
          · simp [turn, carry, increment, digits, Nat.mod_eq_of_lt small]
          · rw [digits_snoc again]
            simp [digits, Nat.mod_eq_of_lt (by simpa using again : p + 1 < e)]
      | succ d =>
          have front_length : front.length = d + 1 := by simpa using rank
          rw [turn_snoc front_length (by rw [digits_length, front_length])]
          by_cases turned : p % e + 1 = e
          · obtain ⟨quotient, remainder, more⟩ := next_turned turned front.prod
            obtain ⟨next, done, follows⟩ := ih front_length outer
            rw [if_pos turned, done]
            refine ⟨next ++ [0], by simp [more], fun again => ?_⟩
            rw [digits_snoc again, quotient, remainder, follows (more.mp again)]
          · have below := Nat.mod_lt p filled
            obtain ⟨quotient, remainder, more⟩ :=
              next_counted (by omega : p % e + 1 < e) outer
            refine ⟨digits front (p / e) ++ [p % e + 1], ?_, fun again => ?_⟩
            · rw [if_neg turned]
              simp only [more, decide_true, Option.some.injEq, Prod.mk.injEq, decide_eq_true_eq, and_true]
              omega
            · rw [digits_snoc again, quotient, remainder]

/-- The outer loop from a position on. -/
theorem rounds_fold {A B : Type} {exts : List Nat} {maxD : Nat} (rank : exts.length = maxD + 1)
    (foldfun : Constant → A → B → A) (attr : B) (idxShape : List Nat) (fuel : Nat) {p : Nat}
    (inside : p < exts.prod) (enough : exts.prod - p ≤ fuel) (accu : A) :
    rounds exts foldfun attr idxShape maxD fuel (digits exts p) accu =
      some ((List.range' p (exts.prod - p)).foldl
        (fun accu p => foldfun ⟨idxShape, digits exts p⟩ accu attr) accu) := by
  induction fuel generalizing p accu with
  | zero => omega
  | succ fuel ih =>
      obtain ⟨next, turned, follows⟩ := turn_digits rank inside
      have left : exts.prod - p = (exts.prod - (p + 1)) + 1 := by omega
      simp only [rounds, turned, Option.bind_eq_bind, Option.bind_some, left, List.range'_succ,
        List.foldl_cons]
      by_cases more : p + 1 < exts.prod
      · rw [follows more, if_pos (by simpa using more)]
        exact ih more (by omega) _
      · have none : exts.prod - (p + 1) = 0 := by omega
        simp [more, none]

end Odometer

section Enumeration

/-- Exactly the index vectors of a shape, each once and in row-major order. -/
def Enumerates (exts : List Nat) (calls : List (List Nat)) : Prop :=
  (∀ idx, idx ∈ calls ↔ Within idx exts) ∧ calls.Pairwise (· < ·)

theorem prod_zero {exts : List Nat} : exts.prod = 0 ↔ 0 ∈ exts := by
  induction exts with
  | nil => simp
  | cons ext exts ih => simp [ih, eq_comm]

theorem digits_lt {exts : List Nat} {p q : Nat} (less : p < q) (inside : q < exts.prod) :
    digits exts p < digits exts q := by
  induction exts generalizing p q with
  | nil => simp at inside; omega
  | cons e exts ih =>
      have filled : 0 < exts.prod := Nat.pos_of_ne_zero fun none => by simp [none] at inside
      have grows : p / exts.prod ≤ q / exts.prod := Nat.div_le_div_right (by omega)
      simp only [digits, List.cons_lt_cons_iff]
      by_cases same : p / exts.prod = q / exts.prod
      · have p_split := Nat.div_add_mod p exts.prod
        have q_split := Nat.div_add_mod q exts.prod
        rw [same] at p_split
        exact .inr ⟨same, ih (by omega) (Nat.mod_lt _ filled)⟩
      · exact .inl (by omega)

theorem digits_enumerate (exts : List Nat) :
    Enumerates exts ((List.range exts.prod).map (digits exts)) := by
  constructor
  · intro idx
    simp only [List.mem_map, List.mem_range]
    constructor
    · rintro ⟨p, inside, rfl⟩
      exact digits_within inside
    · intro within
      exact ⟨position exts idx, position_lt within, digits_position within⟩
  · rw [List.pairwise_map]
    refine List.pairwise_lt_range.imp_of_mem fun _ last less => ?_
    exact digits_lt less (List.mem_range.mp last)

theorem enumerates_filled {exts : List Nat} {calls : List (List Nat)}
    (whole : Enumerates exts calls) (filled : 0 ∉ exts) : calls ≠ [] := by
  have first : Within (digits exts 0) exts :=
    digits_within (Nat.pos_of_ne_zero fun none => filled (prod_zero.mp none))
  intro none
  simpa [none] using (whole.1 _).mpr first

end Enumeration

section Folding

variable {A B : Type}

/-- The function is applied to the index vectors of the shape in their order, whatever it
does with the accumulated value. -/
def Folds (shp : Shape) : Prop :=
  ∃ calls, Enumerates shp.exts calls ∧
    ∀ (A B : Type) (foldfun : Constant → A → B → A) (accu : A) (attr : B), ∃ fuel,
      createAllIndicesAndFold fuel shp foldfun accu attr false =
        some (calls.foldl
          (fun accu idx => foldfun ⟨[shp.exts.length], idx⟩ accu attr) accu)

theorem unr_len (exts : List Nat) (length : Nat) :
    getUnrLen exts = some length ↔
      exts.prod = length ∧ ∀ tail, tail <:+ exts → tail.prod < 2 ^ 63 := by
  induction exts generalizing length with
  | nil => simp [getUnrLen]
  | cons ext exts ih =>
      simp only [getUnrLen, Option.bind_eq_bind, Option.bind_eq_some_iff, ih, List.prod_cons,
        List.suffix_cons_iff, Nat.mul_comm ext]
      constructor
      · rintro ⟨inner, ⟨rfl, fits⟩, done⟩
        split at done
        · cases done
          refine ⟨rfl, fun tail part => part.elim (fun whole => ?_) (fits tail)⟩
          rw [whole, List.prod_cons, Nat.mul_comm]
          assumption
        · cases done
      · rintro ⟨rfl, fits⟩
        have whole := fits _ (.inl rfl)
        rw [List.prod_cons, Nat.mul_comm] at whole
        exact ⟨exts.prod, ⟨rfl, fun tail part => fits tail (.inr part)⟩, if_pos whole⟩

theorem zeros_digits (exts : List Nat) : List.replicate exts.length 0 = digits exts 0 := by
  induction exts with
  | nil => rfl
  | cons ext exts ih => simp [List.replicate_succ, digits, ih]

/-- The loop is entered. -/
theorem entered_fold (shp : Shape) (defined : getUnrLen shp.exts = some shp.exts.prod)
    (positive : shp.exts = [] ∨ 0 < toInt shp.exts.prod) (foldfun : Constant → A → B → A)
    (accu : A) (attr : B) :
    createAllIndicesAndFold shp.exts.prod shp foldfun accu attr false =
      some (((List.range shp.exts.prod).map (digits shp.exts)).foldl
        (fun accu idx => foldfun ⟨[shp.exts.length], idx⟩ accu attr) accu) := by
  simp only [createAllIndicesAndFold, defined, Option.bind_eq_bind, Option.bind_some]
  cases rank : shp.exts.length with
  | zero =>
      have scalar := List.length_eq_zero_iff.mp rank
      simp [scalar, digits]
  | succ maxD =>
      have length : 0 < toInt shp.exts.prod := by
        rcases positive with scalar | length
        · simp [scalar] at rank
        · exact length
      have inside : 0 < shp.exts.prod := by
        refine Nat.pos_of_ne_zero fun none => ?_
        rw [none] at length
        exact absurd length (by decide)
      have run := rounds_fold rank foldfun attr [maxD + 1] shp.exts.prod inside (by omega) accu
      simp only [length, ↓reduceIte, Bool.false_eq_true]
      rw [← rank, zeros_digits, rank, run, Nat.sub_zero, List.foldl_map, List.range_eq_range']

/-- The loop is left out. -/
theorem skipped_fold (fuel : Nat) (shp : Shape)
    (defined : getUnrLen shp.exts = some shp.exts.prod) (ranked : shp.exts ≠ [])
    (small : toInt shp.exts.prod ≤ 0) (foldfun : Constant → A → B → A) (accu : A) (attr : B) :
    createAllIndicesAndFold fuel shp foldfun accu attr false = some accu := by
  simp only [createAllIndicesAndFold, defined, Option.bind_eq_bind, Option.bind_some]
  cases rank : shp.exts.length with
  | zero => exact absurd (List.length_eq_zero_iff.mp rank) ranked
  | succ maxD =>
      simp only
      rw [if_neg (by omega)]

/-- A shape whose loop is left out has an index vector that is not reached. -/
theorem skipped_wrong (shp : Shape) (defined : getUnrLen shp.exts = some shp.exts.prod)
    (ranked : shp.exts ≠ []) (filled : 0 ∉ shp.exts) (small : toInt shp.exts.prod ≤ 0) :
    ¬ Folds shp := by
  rintro ⟨calls, whole, applies⟩
  have some_call := enumerates_filled whole filled
  -- counting the calls tells a loop that is left out
  obtain ⟨fuel, counted⟩ := applies Nat Unit (fun _ count _ => count + 1) 0 ()
  rw [skipped_fold fuel shp defined ranked small] at counted
  cases calls with
  | nil => exact some_call rfl
  | cons first calls =>
      have grows (calls : List (List Nat)) (count : Nat) :
          count ≤ calls.foldl (fun count _ => count + 1) count := by
        induction calls generalizing count with
        | nil => exact Nat.le_refl _
        | cons _ calls ih => exact Nat.le_trans (Nat.le_succ _) (ih _)
      have := grows calls 1
      simp only [Option.some.injEq, List.foldl_cons, Nat.zero_add] at counted
      omega

/-- The calls are those for the index vectors of the shape exactly if the length, as an
int, tells whether there is one, and no part of the product of extents overflows. -/
theorem folds_iff (shp : Shape) :
    Folds shp ↔ (∀ tail, tail <:+ shp.exts → tail.prod < 2 ^ 63) ∧
      (shp.exts = [] ∨ 0 ∈ shp.exts ∨ 0 < toInt shp.exts.prod) := by
  constructor
  · rintro ⟨calls, whole, applies⟩
    have defined : ∃ length, getUnrLen shp.exts = some length := by
      obtain ⟨fuel, done⟩ := applies Unit Unit (fun _ accu _ => accu) () ()
      cases found : getUnrLen shp.exts with
      | none => simp [createAllIndicesAndFold, found] at done
      | some length => exact ⟨length, rfl⟩
    obtain ⟨length, defined⟩ := defined
    obtain ⟨rfl, fits⟩ := (unr_len _ _).mp defined
    refine ⟨fits, ?_⟩
    by_contra skipped
    simp only [not_or, Int.not_lt] at skipped
    exact skipped_wrong shp defined skipped.1 skipped.2.1 skipped.2.2 ⟨calls, whole, applies⟩
  · rintro ⟨fits, shape⟩
    have defined := (unr_len _ _).mpr ⟨rfl, fits⟩
    refine ⟨_, digits_enumerate shp.exts, fun A B foldfun accu attr => ⟨shp.exts.prod, ?_⟩⟩
    by_cases empty : 0 ∈ shp.exts
    · have none : shp.exts.prod = 0 := prod_zero.mpr empty
      have ranked : shp.exts ≠ [] := List.ne_nil_of_mem empty
      rw [skipped_fold _ shp defined ranked (by rw [none]; decide), none]
      rfl
    · exact entered_fold shp defined (shape.imp_right fun either => either.resolve_left empty)
        foldfun accu attr

example :
    createAllIndicesAndFold 4 ⟨[2, 2], by decide⟩ (fun idx accu (_ : Unit) => accu ++ [idx.elems])
      [] () false = some [[0, 0], [0, 1], [1, 0], [1, 1]] := by
  decide

/-- 2^32 index vectors, and none is reached. -/
theorem folds_none : ¬ ∀ shp : Shape, Folds shp := by
  intro all
  refine skipped_wrong ⟨[65536, 65536], by decide⟩ ?_ (by decide) (by decide) ?_ (all _)
  · rw [unr_len]
    refine ⟨rfl, fun tail part => ?_⟩
    simp only [List.suffix_cons_iff, List.suffix_nil] at part
    rcases part with rfl | rfl | rfl <;> decide
  · decide

end Folding

end Sac2c.IndexFolding
