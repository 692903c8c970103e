import Sac2c.RowMajor

/-!
The constants of constants_basic.c as arrays of any element type, and what the structural
operations of constants_struc_ops.c have in common: the offset of an index, and the copying
of elements into the elements of a result. An int is unbounded here.
-/

namespace Sac2c.ConstantArrays
open RowMajor

variable {α : Type}

section Model

/-- A constant, with its elements unrolled. -/
structure Constant (α : Type) where
  shape : List Nat
  elems : List α
  unrolled : elems.length = shape.prod
  deriving DecidableEq, Repr

/-- The constant that an operation makes. An element that has not been written is none. -/
structure Result (α : Type) where
  shape : List Nat
  elems : List (Option α)
  deriving DecidableEq, Repr

/-- COINTallocCV. -/
def allocCV (length : Nat) : List (Option α) := List.replicate length none

/-- The loop of COINTcopyElemsFromCVToCV. It is none if it reads or writes outside. -/
def copyElems (src : List α) : Nat → Nat → List (Option α) → Nat → Option (List (Option α))
  | _, 0, res, _ => some res
  | off, len + 1, res, resOff =>
      (src[off]?).bind fun x =>
        if resOff < res.length then copyElems src (off + 1) len (res.set resOff (some x)) (resOff + 1)
        else none

/-- The same from an offset that has been computed as an int. -/
def copyFrom (src : List α) (off : Int) (len : Nat) (res : List (Option α)) (resOff : Nat) :
    Option (List (Option α)) :=
  if 0 ≤ off then copyElems src off.toNat len res resOff else none

/-- The loops of Idx2Offset, with the assertions that the index is in range. -/
def offsetFrom (offset : Int) : List Int → List Nat → Option Int
  | [], shp => some (shp.foldl (fun (offset : Int) (ext : Nat) => offset * ext) offset)
  | i :: cvidx, ext :: shp => if i < ext then offsetFrom (offset * ext + i) cvidx shp else none
  | _ :: _, [] => none

/-- Idx2Offset. -/
def idx2Offset (cvidx : List Int) (shp : List Nat) : Option Int := offsetFrom 0 cvidx shp

/-- COsel. -/
def sel (idx : List Int) (a : Constant α) : Option (Result α) :=
  if idx.length ≤ a.shape.length then
    let resShp := a.shape.drop idx.length
    (idx2Offset idx a.shape).bind fun offset =>
      (copyFrom a.elems offset resShp.prod (allocCV resShp.prod) 0).map fun elems => ⟨resShp, elems⟩
  else none

end Model

section Specification

/-- The element at an index. -/
def Constant.at (a : Constant α) (idx : List Nat) : Option α := a.elems[position a.shape idx]?

def Result.at (res : Result α) (idx : List Nat) : Option α :=
  (res.elems[position res.shape idx]?).join

end Specification

section Copying

theorem copy_block (src : List α) {off len : Nat} (inside : off + len ≤ src.length)
    (before old after : List (Option α)) (same : old.length = len) :
    copyElems src off len (before ++ old ++ after) before.length =
      some (before ++ ((src.drop off).take len).map some ++ after) := by
  induction len generalizing off before old with
  | zero => simp [copyElems, List.length_eq_zero_iff.mp same]
  | succ len ih =>
      cases old with
      | nil => simp at same
      | cons y old =>
          have here : off < src.length := by omega
          have inside' : off + 1 + len ≤ src.length := by omega
          have rest := ih inside' (before ++ [some src[off]]) old (by simpa using same)
          have written : (before ++ y :: old ++ after).set before.length (some src[off]) =
              before ++ [some src[off]] ++ old ++ after := by simp
          rw [copyElems, List.getElem?_eq_getElem here, Option.bind_some, if_pos (by simp), written]
          rw [List.length_append, List.length_singleton] at rest
          rw [rest, List.drop_eq_getElem_cons here]
          simp only [List.take_succ_cons, List.map_cons, List.append_assoc, List.cons_append,
            List.nil_append]

theorem copy_from (src : List α) {off len : Nat} (inside : off + len ≤ src.length)
    (before old after : List (Option α)) (same : old.length = len) :
    copyFrom src off len (before ++ old ++ after) before.length =
      some (before ++ ((src.drop off).take len).map some ++ after) := by
  rw [copyFrom, if_pos (Int.natCast_nonneg off), Int.toNat_natCast,
    copy_block src inside before old after same]

end Copying

section Blocks

variable (block : Nat → List α) (size rounds : Nat)

/-- A result of blocks of one size, of which the first `k` have been written. -/
def filled (k : Nat) : List (Option α) :=
  ((List.range k).flatMap block).map some ++ List.replicate ((rounds - k) * size) none

variable {block size rounds}

theorem filled_zero : filled block size rounds 0 = allocCV (rounds * size) := rfl

theorem filled_length (sized : ∀ k < rounds, (block k).length = size) :
    (filled block size rounds rounds).length = rounds * size := by
  simp [filled, flat_length rounds sized]

/-- The next block is written behind the blocks before. -/
theorem block_copied (src : List α) {off k : Nat} (inside : off + size ≤ src.length)
    (sized : ∀ j < rounds, (block j).length = size) (more : k < rounds)
    (copied : block k = (src.drop off).take size) :
    copyFrom src off size (filled block size rounds k) (k * size) =
      some (filled block size rounds (k + 1)) := by
  have length : (((List.range k).flatMap block).map some).length = k * size := by
    rw [List.length_map]
    exact flat_length k fun j less => sized j (Nat.lt_trans less more)
  have room : (rounds - k) * size = size + (rounds - (k + 1)) * size := by
    have count : rounds - k = rounds - (k + 1) + 1 := by omega
    rw [count]
    ring
  have written := copy_from src inside (((List.range k).flatMap block).map some)
    (List.replicate size none) (List.replicate ((rounds - (k + 1)) * size) none) (by simp)
  rw [filled, room, List.replicate_add, ← List.append_assoc, ← length, written, filled,
    List.range_succ, List.flatMap_append, List.flatMap_singleton, List.map_append, copied]

theorem filled_at (sized : ∀ k < rounds, (block k).length = size) {k i : Nat}
    (inside : k < rounds) (within : i < size) :
    (filled block size rounds rounds)[k * size + i]?.join = (block k)[i]? := by
  have full : filled block size rounds rounds = ((List.range rounds).flatMap block).map some := by
    simp [filled]
  rw [full, List.getElem?_map, flat_get rounds sized inside within]
  cases (block k)[i]? <;> rfl

end Blocks

section Offsets

theorem multiplied (offset : Int) (shp : List Nat) :
    shp.foldl (fun (offset : Int) (ext : Nat) => offset * ext) offset = offset * (shp.prod : Nat) := by
  induction shp generalizing offset with
  | nil => simp
  | cons ext shp ih => rw [List.foldl_cons, ih, List.prod_cons, Nat.cast_mul, mul_assoc]

theorem offset_from {cvidx axes : List Nat} (rest : List Nat) (within : Within cvidx axes)
    (offset : Nat) :
    offsetFrom offset (cvidx.map Int.ofNat) (axes ++ rest) =
      some ((offset * (axes ++ rest).prod + position (axes ++ rest) cvidx : Nat) : Int) := by
  induction within generalizing offset with
  | nil => simp [offsetFrom, multiplied, position]
  | @cons i ext cvidx axes lt within ih =>
      have below : (i : Int) < ext := by exact_mod_cast lt
      have step : (offset : Int) * ext + i = ((offset * ext + i : Nat) : Int) := by push_cast; rfl
      rw [List.map_cons, List.cons_append, offsetFrom]
      simp only [Int.ofNat_eq_natCast]
      rw [if_pos below, step, ih, List.prod_cons, position]
      congr 2
      ring

/-- An index that is in range has its row-major offset. -/
theorem idx2offset_position {cvidx axes : List Nat} (rest : List Nat)
    (within : Within cvidx axes) :
    idx2Offset (cvidx.map Int.ofNat) (axes ++ rest) =
      some (position (axes ++ rest) cvidx : Int) := by
  have offset := offset_from rest within 0
  rwa [Nat.zero_mul, Nat.zero_add] at offset

end Offsets

end Sac2c.ConstantArrays
