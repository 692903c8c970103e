import Mathlib.Algebra.BigOperators.Ring.List
import Mathlib.Data.List.GetD
import Mathlib.Data.List.Induction
import Sac2c.ConstantArrays

/-!
COtake and COdrop of constants_struc_ops.c. Both copy a tile of the array in chunks: an
odometer runs through the indices of the leading axes of the tile, from a minimum to a
maximum. It stops if none of these axes is empty; an empty one has its maximum before its
minimum, and the odometer never comes to it.
-/

namespace Sac2c.ConstantTiles
open RowMajor ConstantArrays

variable {α : Type}

section Model

/-- The loop of IncrementIndex, from the axis `dim`. None is the null pointer. -/
def incrementFrom (min max : List Int) : Nat → List Int → Option (List Int)
  | 0, idx =>
      if idx.getD 0 0 = max.getD 0 0 then none else some (idx.set 0 (idx.getD 0 0 + 1))
  | dim + 1, idx =>
      if idx.getD (dim + 1) 0 = max.getD (dim + 1) 0 then
        incrementFrom min max dim (idx.set (dim + 1) (min.getD (dim + 1) 0))
      else some (idx.set (dim + 1) (idx.getD (dim + 1) 0 + 1))

/-- IncrementIndex. -/
def incrementIndex (min idx max : List Int) : Option (List Int) :=
  if 0 < idx.length then incrementFrom min max (idx.length - 1) idx else none

/-- The copying loop of TileFromArray, for some number of rounds at most. -/
def tileLoop (a : Constant α) (min max : List Int) (offSize : Int) (chunkSize : Nat) :
    Nat → List Int → Nat → List (Option α) → Option (List (Option α))
  | 0, _, _, _ => none
  | fuel + 1, off, resOff, resElems =>
      (idx2Offset off a.shape).bind fun offset =>
        (copyFrom a.elems (offset + offSize) chunkSize resElems resOff).bind fun resElems =>
          match incrementIndex min off max with
          | none => some resElems
          | some off => tileLoop a min max offSize chunkSize fuel off (resOff + chunkSize) resElems

/-- TileFromArray. -/
def tileFromArray (fuel : Nat) (idx : List Int) (resShp : List Nat) (a : Constant α) :
    Option (Result α) :=
  if 1 ≤ idx.length then
    let off := idx.dropLast
    let max := List.zipWith (fun (i : Int) (ext : Nat) => i + (ext - 1)) off resShp
    let trailing := (resShp.drop (off.length + 1)).prod
    let offSize := trailing * idx.getLastD 0
    let chunkSize := trailing * resShp.getD off.length 0
    (tileLoop a off max offSize chunkSize fuel off 0 (allocCV resShp.prod)).map fun resElems =>
      ⟨resShp, resElems⟩
  else none

/-- COtake. -/
def take (fuel : Nat) (idx : List Int) (a : Constant α) : Option (Result α) :=
  if idx.length ≤ a.shape.length then
    if 0 < idx.length then
      let resShp := idx.map Int.natAbs ++ a.shape.drop idx.length
      let offset := List.zipWith (fun (i : Int) (ext : Nat) => if i ≥ 0 then 0 else ext + i)
        idx a.shape
      tileFromArray fuel offset resShp a
    else some ⟨a.shape, a.elems.map some⟩
  else none

/-- COdrop. -/
def drop (fuel : Nat) (idx : List Int) (a : Constant α) : Option (Result α) :=
  if idx.length ≤ a.shape.length then
    if 0 < idx.length then
      let resShp := List.zipWith (fun (i : Int) (ext : Nat) => ext - i.natAbs) idx a.shape ++
        a.shape.drop idx.length
      let offset := idx.map fun i => if i < 0 then 0 else i
      tileFromArray fuel offset resShp a
    else some ⟨a.shape, a.elems.map some⟩
  else none

end Model

section Specification

/-- An index moved by an offset on its first axes. -/
def shifted : List Nat → List Nat → List Nat
  | o :: offset, i :: idx => (i + o) :: shifted offset idx
  | _, idx => idx

/-- A result is the tile of an array of some shape at some offset. -/
structure IsTile (a : Constant α) (offset tile : List Nat) (res : Result α) : Prop where
  shape : res.shape = tile
  full : res.elems.length = tile.prod
  copied : ∀ idx, Within idx tile →
    Within (shifted offset idx) a.shape ∧ res.at idx = a.at (shifted offset idx)

/-- The extents of take on the first axes, and where they begin. -/
def takeExtents (v : List Int) : List Nat := v.map Int.natAbs

def takeOffset (v : List Int) (shape : List Nat) : List Nat :=
  List.zipWith (fun (i : Int) (ext : Nat) => if 0 ≤ i then 0 else (ext + i).toNat) v shape

/-- The extents of drop on the first axes, and where they begin. -/
def dropExtents (v : List Int) (shape : List Nat) : List Nat :=
  List.zipWith (fun (i : Int) (ext : Nat) => ext - i.natAbs) v shape

def dropOffset (v : List Int) : List Nat := v.map fun i => (max i 0).toNat

end Specification

section Odometer

variable {min max idx : List Int}

theorem increment_frame (a b x : Int) {dim : Nat} (inside : dim < idx.length)
    (sameMin : min.length = idx.length) (sameMax : max.length = idx.length) :
    incrementFrom (min ++ [a]) (max ++ [b]) dim (idx ++ [x]) =
      (incrementFrom min max dim idx).map (· ++ [x]) := by
  induction dim generalizing idx with
  | zero =>
      simp only [incrementFrom, List.getD_append _ _ _ 0 inside,
        List.getD_append _ _ _ 0 (sameMax ▸ inside), List.set_append_left 0 _ inside]
      split <;> rfl
  | succ dim ih =>
      simp only [incrementFrom, List.getD_append _ _ _ (dim + 1) inside,
        List.getD_append _ _ _ (dim + 1) (sameMax ▸ inside),
        List.getD_append _ _ _ (dim + 1) (sameMin ▸ inside), List.set_append_left (dim + 1) _ inside]
      split
      · exact ih (by simp; omega) (by simpa using sameMin) (by simpa using sameMax)
      · rfl

/-- The last axis turns first. -/
theorem increment_snoc (a b i : Int) (sameMin : min.length = idx.length)
    (sameMax : max.length = idx.length) :
    incrementIndex (min ++ [a]) (idx ++ [i]) (max ++ [b]) =
      if i = b then (incrementIndex min idx max).map (· ++ [a]) else some (idx ++ [i + 1]) := by
  cases idx with
  | nil =>
      have noMin : min = [] := List.length_eq_zero_iff.mp sameMin
      have noMax : max = [] := List.length_eq_zero_iff.mp sameMax
      simp [incrementIndex, incrementFrom, noMin, noMax]
  | cons j idx =>
      have dim : (j :: idx ++ [i]).length - 1 = idx.length + 1 := by simp
      have atEnd : ∀ (l : List Int) (x : Int), l.length = (j :: idx).length →
          (l ++ [x]).getD (idx.length + 1) 0 = x := by
        intro l x same
        rw [List.getD_append_right _ _ _ _ (by simp [same])]
        simp [same]
      have setEnd : ∀ x : Int, (j :: idx ++ [i]).set (idx.length + 1) x = j :: idx ++ [x] := by
        intro x
        rw [List.set_append_right _ _ (by simp)]
        simp
      have before : incrementIndex min (j :: idx) max = incrementFrom min max idx.length (j :: idx) :=
        if_pos (by simp)
      rw [before, incrementIndex, if_pos (by simp), dim, incrementFrom, atEnd _ _ rfl,
        atEnd _ _ sameMax, atEnd _ _ sameMin, setEnd, setEnd,
        increment_frame a b a (by simp) sameMin sameMax]

/-- An axis of an array, and the part of it that belongs to a tile. -/
structure Axis where
  ext : Nat
  off : Nat
  len : Nat
  fits : off + len ≤ ext

/-- The index of the tile that is reached after some rounds. -/
def reached (axes : List Axis) (k : Nat) : List Int :=
  List.zipWith (fun axis d => ((axis.off + d : Nat) : Int)) axes (digits (axes.map Axis.len) k)

def minima (axes : List Axis) : List Int := axes.map fun axis => (axis.off : Int)

def maxima (axes : List Axis) : List Int := axes.map fun axis => axis.off + (axis.len - 1)

theorem reached_snoc (axes : List Axis) (axis : Axis) {k : Nat}
    (inside : k < (axes.map Axis.len).prod * axis.len) :
    reached (axes ++ [axis]) k = reached axes (k / axis.len) ++ [((axis.off + k % axis.len : Nat) : Int)] := by
  rw [reached, List.map_append, List.map_singleton, digits_snoc inside,
    List.zipWith_append (by simp [digits_length])]
  rfl

theorem reached_length (axes : List Axis) (k : Nat) : (reached axes k).length = axes.length := by
  simp [reached, digits_length]

/-- The odometer goes through the positions of the tile in row-major order, and stops after
the last one. -/
theorem odometer_step {axes : List Axis} {k : Nat} (inside : k < (axes.map Axis.len).prod) :
    incrementIndex (minima axes) (reached axes k) (maxima axes) =
      if k + 1 < (axes.map Axis.len).prod then some (reached axes (k + 1)) else none := by
  induction axes using List.reverseRecOn generalizing k with
  | nil =>
      have first : k = 0 := by simpa using inside
      simp [first, incrementIndex, reached]
  | append_singleton axes axis ih =>
      have product : ((axes ++ [axis]).map Axis.len).prod = (axes.map Axis.len).prod * axis.len := by
        simp
      rw [product] at inside ⊢
      have filled : 0 < axis.len := Nat.pos_of_ne_zero fun none => by simp [none] at inside
      have outer : k / axis.len < (axes.map Axis.len).prod := Nat.div_lt_of_lt_mul (by rwa [Nat.mul_comm])
      rw [reached_snoc axes axis inside, minima, maxima, List.map_append, List.map_append,
        List.map_singleton, List.map_singleton, ← minima, ← maxima,
        increment_snoc _ _ _ (by simp [minima, reached_length]) (by simp [maxima, reached_length]),
        ih outer]
      -- The last axis turns and the others count the turn, or it is counted up.
      by_cases turned : k % axis.len + 1 = axis.len
      · obtain ⟨quotient, remainder, more⟩ := next_turned turned (axes.map Axis.len).prod
        have atMax : ((axis.off + k % axis.len : Nat) : Int) = axis.off + (axis.len - 1) := by
          push_cast
          omega
        rw [if_pos atMax]
        by_cases inner : k / axis.len + 1 < (axes.map Axis.len).prod
        · rw [if_pos inner, if_pos (more.mpr inner), Option.map_some,
            reached_snoc axes axis (more.mpr inner), quotient, remainder]
          rfl
        · rw [if_neg inner, if_neg fun past => inner (more.mp past), Option.map_none]
      · have below := Nat.mod_lt k filled
        obtain ⟨quotient, remainder, more⟩ :=
          next_counted (by omega : k % axis.len + 1 < axis.len) outer
        have notMax : ((axis.off + k % axis.len : Nat) : Int) ≠ axis.off + (axis.len - 1) := by
          push_cast
          omega
        rw [if_neg notMax, if_pos more, reached_snoc axes axis more, quotient, remainder]
        push_cast
        rw [Int.add_assoc]

theorem written_entry {idx : List Int} {j : Nat} (inside : j < idx.length) (x : Int) :
    (idx.set j x).getD j 0 = x := by
  simp [List.getD_eq_getElem?_getD, inside]

/-- On an axis that has its maximum before its minimum the odometer does not stop. -/
theorem increment_goes_on {j dim : Nat} {idx : List Int} (at_axis : j ≤ dim)
    (inside : dim < idx.length) (empty : max.getD j 0 < min.getD j 0)
    (above : min.getD j 0 ≤ idx.getD j 0) :
    ∃ idx', incrementFrom min max dim idx = some idx' ∧ idx'.length = idx.length ∧
      min.getD j 0 ≤ idx'.getD j 0 := by
  -- The index of the empty axis is never its maximum, so that the axis does not turn.
  induction dim generalizing idx with
  | zero =>
      have first : j = 0 := Nat.le_zero.mp at_axis
      subst first
      have differs : idx.getD 0 0 ≠ max.getD 0 0 := by omega
      refine ⟨_, if_neg differs, by simp, ?_⟩
      rw [written_entry inside]
      omega
  | succ dim ih =>
      rw [incrementFrom]
      by_cases here : j = dim + 1
      · subst here
        have differs : idx.getD (dim + 1) 0 ≠ max.getD (dim + 1) 0 := by omega
        refine ⟨_, if_neg differs, by simp, ?_⟩
        rw [written_entry inside]
        omega
      · have kept : ∀ x : Int, (idx.set (dim + 1) x).getD j 0 = idx.getD j 0 := by
          intro x
          simp [List.getD_eq_getElem?_getD, List.getElem?_set_ne (Ne.symm here)]
        split
        · have room : dim < (idx.set (dim + 1) (min.getD (dim + 1) 0)).length := by
            simp
            omega
          obtain ⟨idx', next, same, above'⟩ := ih (by omega) room (by rw [kept]; exact above)
          exact ⟨idx', next, by simpa using same, above'⟩
        · exact ⟨_, rfl, by simp, by rw [kept]; exact above⟩

/-- The copying loop never stops if a leading axis is empty. -/
theorem tile_loop_endless (a : Constant α) {min max : List Int} (offSize : Int) (chunkSize : Nat)
    {j : Nat} (empty : max.getD j 0 < min.getD j 0) (fuel : Nat) {off : List Int}
    (inside : j < off.length) (above : min.getD j 0 ≤ off.getD j 0) (resOff : Nat)
    (resElems : List (Option α)) :
    tileLoop a min max offSize chunkSize fuel off resOff resElems = none := by
  induction fuel generalizing off resOff resElems with
  | zero => rfl
  | succ fuel ih =>
      obtain ⟨next, stepped, same, above'⟩ := increment_goes_on
        (Nat.le_sub_one_of_lt inside) (Nat.sub_lt (by omega) Nat.one_pos) empty above
      have goesOn : incrementIndex min off max = some next := by
        rw [incrementIndex, if_pos (by omega), stepped]
      rw [tileLoop]
      simp only [goesOn, ih (same ▸ inside) above']
      cases idx2Offset off a.shape with
      | none => rfl
      | some offset =>
          rw [Option.bind_some]
          cases copyFrom a.elems (offset + offSize) chunkSize resElems resOff <;> rfl

end Odometer

section Shifting

theorem shifted_append {offset idx : List Nat} (same : offset.length = idx.length)
    (offset' idx' : List Nat) :
    shifted (offset ++ offset') (idx ++ idx') = shifted offset idx ++ shifted offset' idx' := by
  induction offset generalizing idx with
  | nil =>
      rw [List.length_eq_zero_iff.mp same.symm]
      rfl
  | cons o offset ih =>
      cases idx with
      | nil => simp at same
      | cons i idx => simp [shifted, ih (by simpa using same)]

theorem shifted_length (offset idx : List Nat) : (shifted offset idx).length = idx.length := by
  induction offset generalizing idx with
  | nil => rfl
  | cons o offset ih =>
      cases idx with
      | nil => rfl
      | cons i idx => simp [shifted, ih]

theorem shifted_within {axes : List Axis} {idx : List Nat} (within : Within idx (axes.map Axis.len)) :
    Within (shifted (axes.map Axis.off) idx) (axes.map Axis.ext) := by
  induction axes generalizing idx with
  | nil => cases within with | nil => exact .nil
  | cons axis axes ih =>
      cases within with
      | cons lt within =>
          have fits := axis.fits
          exact .cons (by omega) (ih within)

theorem reached_shifted (axes : List Axis) {digits : List Nat} (same : digits.length = axes.length) :
    List.zipWith (fun axis d => ((axis.off + d : Nat) : Int)) axes digits =
      (shifted (axes.map Axis.off) digits).map Int.ofNat := by
  induction axes generalizing digits with
  | nil => rw [List.length_eq_zero_iff.mp same]; rfl
  | cons axis axes ih =>
      cases digits with
      | nil => simp at same
      | cons d digits =>
          rw [List.zipWith_cons_cons, ih (by simpa using same)]
          simp [shifted, Int.add_comm]

end Shifting

section Tiles

variable (a : Constant α) (outer : List Axis) (last : Axis) (rest : List Nat)

/-- The index on the leading axes in some round. -/
def outerIndex (k : Nat) : List Nat :=
  shifted (outer.map Axis.off) (digits (outer.map Axis.len) k)

/-- The offset at which the chunk of a round begins. -/
def start (k : Nat) : Nat :=
  position (outer.map Axis.ext ++ last.ext :: rest) (outerIndex outer k) + rest.prod * last.off

/-- The elements of a chunk. -/
def chunk (k : Nat) : List α :=
  (a.elems.drop (start outer last rest k)).take (rest.prod * last.len)

/-- The elements of the result before some round. -/
def written (k : Nat) : List (Option α) :=
  filled (chunk a outer last rest) (rest.prod * last.len) (outer.map Axis.len).prod k

variable {a outer last rest}

theorem outer_position {idx : List Nat} (same : idx.length = outer.length) :
    position (outer.map Axis.ext ++ last.ext :: rest) idx =
      position (outer.map Axis.ext) idx * (last.ext * rest.prod) := by
  have split : position (outer.map Axis.ext ++ last.ext :: rest) (idx ++ []) =
      position (outer.map Axis.ext) idx * (last.ext :: rest).prod +
        position (last.ext :: rest) [] := position_append (by simpa using same)
  have none : position (last.ext :: rest) [] = 0 := rfl
  rw [List.append_nil, none, Nat.add_zero] at split
  rw [split, List.prod_cons]

theorem outer_index_length (k : Nat) : (outerIndex outer k).length = outer.length := by
  rw [outerIndex, shifted_length, digits_length, List.length_map]

theorem chunk_inside (whole : a.shape = outer.map Axis.ext ++ last.ext :: rest) {k : Nat}
    (inside : k < (outer.map Axis.len).prod) :
    start outer last rest k + rest.prod * last.len ≤ a.elems.length := by
  have within := shifted_within (digits_within inside)
  have below := position_lt within
  have fits := last.fits
  rw [a.unrolled, whole, List.prod_append, List.prod_cons, start,
    outer_position (outer_index_length k), outerIndex]
  generalize position (outer.map Axis.ext) _ = p at below ⊢
  generalize (outer.map Axis.ext).prod = n at below ⊢
  calc p * (last.ext * rest.prod) + rest.prod * last.off + rest.prod * last.len
      = p * (last.ext * rest.prod) + (last.off + last.len) * rest.prod := by ring
    _ ≤ p * (last.ext * rest.prod) + last.ext * rest.prod :=
        Nat.add_le_add_left (Nat.mul_le_mul_right _ fits) _
    _ = (p + 1) * (last.ext * rest.prod) := by ring
    _ ≤ n * (last.ext * rest.prod) := Nat.mul_le_mul_right _ below

theorem chunk_length (whole : a.shape = outer.map Axis.ext ++ last.ext :: rest) {k : Nat}
    (inside : k < (outer.map Axis.len).prod) :
    (chunk a outer last rest k).length = rest.prod * last.len := by
  have bound := chunk_inside whole inside
  rw [chunk, List.length_take, List.length_drop]
  omega

theorem reached_offset (k : Nat) (inside : k < (outer.map Axis.len).prod) :
    idx2Offset (reached outer k) (outer.map Axis.ext ++ last.ext :: rest) =
      some (position (outer.map Axis.ext ++ last.ext :: rest) (outerIndex outer k) : Int) := by
  have within := shifted_within (digits_within inside)
  rw [reached, reached_shifted outer (by simp [digits_length])]
  exact idx2offset_position (last.ext :: rest) within

/-- A round writes its chunk behind what has been written before. -/
theorem chunk_copied (whole : a.shape = outer.map Axis.ext ++ last.ext :: rest) {k : Nat}
    (inside : k < (outer.map Axis.len).prod) :
    copyFrom a.elems (start outer last rest k) (rest.prod * last.len)
        (written a outer last rest k) (k * (rest.prod * last.len)) =
      some (written a outer last rest (k + 1)) :=
  block_copied a.elems (chunk_inside whole inside) (fun _ less => chunk_length whole less) inside rfl

/-- From any round on the loop copies all the chunks that remain. -/
theorem tile_loop_runs (whole : a.shape = outer.map Axis.ext ++ last.ext :: rest) {k n : Nat}
    (left : k + n + 1 = (outer.map Axis.len).prod) :
    tileLoop a (minima outer) (maxima outer) (rest.prod * last.off : Nat) (rest.prod * last.len)
        (n + 1) (reached outer k) (k * (rest.prod * last.len)) (written a outer last rest k) =
      some (written a outer last rest (outer.map Axis.len).prod) := by
  have offset : ∀ k, (position (outer.map Axis.ext ++ last.ext :: rest) (outerIndex outer k) : Int) +
      (rest.prod * last.off : Nat) = (start outer last rest k : Nat) := fun k => rfl
  -- Induction on the rounds behind the current one.
  induction n generalizing k with
  | zero =>
      have inside : k < (outer.map Axis.len).prod := by omega
      have past : ¬ k + 1 < (outer.map Axis.len).prod := by omega
      have done : k + 1 = (outer.map Axis.len).prod := by omega
      rw [tileLoop, whole, reached_offset k inside, Option.bind_some, offset,
        chunk_copied whole inside, Option.bind_some, odometer_step inside, if_neg past, done]
  | succ n ih =>
      have inside : k < (outer.map Axis.len).prod := by omega
      have more : k + 1 < (outer.map Axis.len).prod := by omega
      have next := ih (k := k + 1) (by omega)
      rw [Nat.add_mul, Nat.one_mul] at next
      rw [tileLoop, whole, reached_offset k inside, Option.bind_some, offset,
        chunk_copied whole inside, Option.bind_some, odometer_step inside, if_pos more]
      exact next

theorem reached_zero (axes : List Axis) : reached axes 0 = minima axes := by
  have zeros : ∀ axes : List Axis, List.zipWith (fun axis d => ((axis.off + d : Nat) : Int)) axes
      (digits (axes.map Axis.len) 0) = minima axes := by
    intro axes
    induction axes with
    | nil => rfl
    | cons axis axes ih =>
        rw [List.map_cons, digits, Nat.zero_div, Nat.zero_mod, List.zipWith_cons_cons, ih]
        rfl
  exact zeros axes

theorem minima_snoc (outer : List Axis) (last : Axis) :
    minima (outer ++ [last]) = minima outer ++ [(last.off : Int)] := by simp [minima]

theorem maxima_made (outer : List Axis) (shape : List Nat) :
    List.zipWith (fun (i : Int) (ext : Nat) => i + (ext - 1)) (minima outer)
      (outer.map Axis.len ++ shape) = maxima outer := by
  induction outer with
  | nil => simp [minima, maxima]
  | cons axis outer ih =>
      simp only [minima, maxima, List.map_cons, List.cons_append, List.zipWith_cons_cons] at ih ⊢
      rw [ih]

/-- The variables of TileFromArray before its loop. -/
theorem tile_from_array (a : Constant α) (outer : List Axis) (last : Axis) (rest : List Nat)
    (fuel : Nat) :
    tileFromArray fuel (minima (outer ++ [last])) (outer.map Axis.len ++ last.len :: rest) a =
      (tileLoop a (minima outer) (maxima outer) (rest.prod * last.off : Nat)
        (rest.prod * last.len) fuel (minima outer) 0
        (allocCV (outer.map Axis.len ++ last.len :: rest).prod)).map fun resElems =>
          ⟨outer.map Axis.len ++ last.len :: rest, resElems⟩ := by
  have length : (minima outer).length = outer.length := by simp [minima]
  have trailing : (outer.map Axis.len ++ last.len :: rest).drop ((minima outer).length + 1) = rest := by
    rw [length, List.drop_append]
    simp
  have chunkLen : (outer.map Axis.len ++ last.len :: rest).getD (minima outer).length 0 = last.len := by
    simp [length]
  rw [minima_snoc, tileFromArray, if_pos (by simp), List.dropLast_concat]
  simp only [maxima_made, trailing, chunkLen, List.getLastD_concat, Nat.cast_mul]

end Tiles

section Contents

variable {a : Constant α} {outer : List Axis} {last : Axis} {rest : List Nat}

/-- The offsets of a tile on its leading axes. -/
def offsets (axes : List Axis) : List Nat := axes.map Axis.off

/-- An element of the copied chunks is the element of the array at the moved index. -/
theorem written_at (whole : a.shape = outer.map Axis.ext ++ last.ext :: rest) {io js : List Nat}
    {j : Nat} (within : Within io (outer.map Axis.len)) (lt : j < last.len) (inner : Within js rest) :
    ((written a outer last rest (outer.map Axis.len).prod)[
        position (outer.map Axis.len ++ last.len :: rest) (io ++ j :: js)]?).join =
      a.at (shifted (offsets (outer ++ [last])) (io ++ j :: js)) := by
  have size : (last.len :: rest).prod = rest.prod * last.len := by
    rw [List.prod_cons, Nat.mul_comm]
  have outerLength : io.length = outer.length := by simpa using within.length_eq
  have round := position_lt within
  have rowInner := position_lt inner
  have place : j * rest.prod + position rest js < rest.prod * last.len :=
    calc j * rest.prod + position rest js < j * rest.prod + rest.prod := by omega
      _ = rest.prod * (j + 1) := by ring
      _ ≤ rest.prod * last.len := Nat.mul_le_mul_left _ lt
  have split : position (outer.map Axis.len ++ last.len :: rest) (io ++ j :: js) =
      position (outer.map Axis.len) io * (rest.prod * last.len) + (j * rest.prod + position rest js) := by
    rw [position_append (by simpa using outerLength), size, position]
  have moved : shifted (offsets (outer ++ [last])) (io ++ j :: js) =
      shifted (offsets outer) io ++ (j + last.off) :: js := by
    rw [offsets, List.map_append, shifted_append (by simpa using outerLength.symm)]
    rfl
  have movedLength : (shifted (offsets outer) io).length = (outer.map Axis.ext).length := by
    rw [shifted_length, List.length_map, outerLength]
  -- The place in the chunk is the same in the array as in the tile.
  have source : start outer last rest (position (outer.map Axis.len) io) +
      (j * rest.prod + position rest js) =
        position a.shape (shifted (offsets outer) io ++ (j + last.off) :: js) := by
    rw [start, outer_position (outer_index_length _), outerIndex, digits_position within, whole,
      position_append movedLength, List.prod_cons, position, offsets]
    ring
  have sized : ∀ k < (outer.map Axis.len).prod,
      (chunk a outer last rest k).length = rest.prod * last.len :=
    fun _ less => chunk_length whole less
  have element := filled_at sized round place
  rw [split, written, element, chunk, List.getElem?_take_of_lt place, List.getElem?_drop, source,
    moved, Constant.at]

theorem tile_product (outer : List Axis) (last : Axis) (rest : List Nat) :
    (outer.map Axis.len ++ last.len :: rest).prod =
      (outer.map Axis.len).prod * (rest.prod * last.len) := by
  rw [List.prod_append, List.prod_cons, Nat.mul_comm last.len]

theorem written_is_tile (whole : a.shape = outer.map Axis.ext ++ last.ext :: rest) :
    IsTile a (offsets (outer ++ [last])) (outer.map Axis.len ++ last.len :: rest)
      ⟨outer.map Axis.len ++ last.len :: rest, written a outer last rest (outer.map Axis.len).prod⟩ := by
  constructor
  · rfl
  · rw [tile_product]
    exact filled_length fun k less => chunk_length whole less
  · intro idx within
    have leading := List.forall₂_take_append idx (outer.map Axis.len) (last.len :: rest) within
    have trailing := List.forall₂_drop_append idx (outer.map Axis.len) (last.len :: rest) within
    obtain ⟨j, js, lt, inner, behind⟩ := List.forall₂_cons_right_iff.mp trailing
    rw [← List.take_append_drop (outer.map Axis.len).length idx, behind]
    refine ⟨?_, written_at whole leading lt inner⟩
    have length := leading.length_eq
    have fits := last.fits
    rw [whole, offsets, List.map_append, shifted_append (by simpa using length.symm)]
    exact List.rel_append (shifted_within leading) (.cons (by omega) inner)

/-- If no leading axis of the tile is empty, as many rounds as there are chunks make the
tile. -/
theorem tile_made (whole : a.shape = outer.map Axis.ext ++ last.ext :: rest)
    (filled : ∀ axis ∈ outer, axis.len ≠ 0) :
    ∃ fuel res, tileFromArray fuel (minima (outer ++ [last]))
        (outer.map Axis.len ++ last.len :: rest) a = some res ∧
      IsTile a (offsets (outer ++ [last])) (outer.map Axis.len ++ last.len :: rest) res := by
  have rounds : 0 < (outer.map Axis.len).prod := by
    apply Nat.pos_of_ne_zero
    apply List.prod_ne_zero
    intro member
    obtain ⟨axis, inside, none⟩ := List.mem_map.mp member
    exact filled axis inside none
  have runs := tile_loop_runs whole (k := 0) (n := (outer.map Axis.len).prod - 1) (by omega)
  rw [reached_zero, Nat.zero_mul, Nat.sub_add_cancel rounds] at runs
  have initial : allocCV (outer.map Axis.len ++ last.len :: rest).prod =
      written a outer last rest 0 := by
    rw [tile_product]
    rfl
  refine ⟨(outer.map Axis.len).prod, _, ?_, written_is_tile whole⟩
  rw [tile_from_array, initial, runs]
  rfl

/-- If a leading axis of the tile is empty, the copying never ends. -/
theorem tile_endless {axis : Axis} (member : axis ∈ outer) (empty : axis.len = 0) (fuel : Nat) :
    tileFromArray fuel (minima (outer ++ [last])) (outer.map Axis.len ++ last.len :: rest) a =
      none := by
  obtain ⟨j, inside, rfl⟩ := List.getElem_of_mem member
  have least : (minima outer).getD j 0 = outer[j].off := by simp [minima, inside]
  have greatest : (maxima outer).getD j 0 = outer[j].off - 1 := by
    simp [maxima, inside, empty, Int.sub_eq_add_neg]
  have length : (minima outer).length = outer.length := by simp [minima]
  rw [tile_from_array, tile_loop_endless a _ _ (j := j) (by omega) fuel (by omega) (Int.le_refl _)]
  rfl

end Contents

section TakeAndDrop

variable {v : List Int} {shape : List Nat} {a : Constant α}

/-- The parts of the axes that take leaves. -/
theorem take_axes (fits : List.Forall₂ (fun i ext => i.natAbs ≤ ext) v shape) :
    ∃ axes : List Axis, axes.map Axis.ext = shape ∧ axes.map Axis.len = takeExtents v ∧
      offsets axes = takeOffset v shape ∧
      minima axes = List.zipWith (fun (i : Int) (ext : Nat) => if i ≥ 0 then 0 else ext + i)
        v shape := by
  induction fits with
  | nil => exact ⟨[], rfl, rfl, rfl, rfl⟩
  | @cons i ext v shape bound _ ih =>
      obtain ⟨axes, exts, lens, offs, mins⟩ := ih
      have inside : (if 0 ≤ i then 0 else (ext + i).toNat) + i.natAbs ≤ ext := by
        split <;> omega
      refine ⟨⟨ext, _, i.natAbs, inside⟩ :: axes, by rw [List.map_cons, exts],
        by rw [List.map_cons, lens]; rfl, ?_, ?_⟩
      · rw [offsets] at offs ⊢
        rw [List.map_cons, offs]
        rfl
      · rw [minima] at mins ⊢
        rw [List.map_cons, mins, List.zipWith_cons_cons]
        congr 1
        dsimp only
        split <;> omega

/-- The parts of the axes that drop leaves. -/
theorem drop_axes (fits : List.Forall₂ (fun i ext => i.natAbs ≤ ext) v shape) :
    ∃ axes : List Axis, axes.map Axis.ext = shape ∧ axes.map Axis.len = dropExtents v shape ∧
      offsets axes = dropOffset v ∧ minima axes = v.map (fun i => if i < 0 then 0 else i) := by
  induction fits with
  | nil => exact ⟨[], rfl, rfl, rfl, rfl⟩
  | @cons i ext v shape bound _ ih =>
      obtain ⟨axes, exts, lens, offs, mins⟩ := ih
      have inside : (max i 0).toNat + (ext - i.natAbs) ≤ ext := by omega
      refine ⟨⟨ext, _, ext - i.natAbs, inside⟩ :: axes, by rw [List.map_cons, exts],
        by rw [List.map_cons, lens]; rfl, ?_, ?_⟩
      · rw [offsets] at offs ⊢
        rw [List.map_cons, offs]
        rfl
      · rw [minima] at mins ⊢
        rw [List.map_cons, mins, List.map_cons]
        congr 1
        dsimp only
        split <;> omega

/-- Copying a tile ends with the tile exactly if no leading axis of the tile is empty. -/
theorem tile_right_iff {axes : List Axis} (some_axis : axes ≠ []) {rest : List Nat}
    (whole : a.shape = axes.map Axis.ext ++ rest) :
    (∃ fuel res, tileFromArray fuel (minima axes) (axes.map Axis.len ++ rest) a = some res ∧
        IsTile a (offsets axes) (axes.map Axis.len ++ rest) res) ↔
      0 ∉ (axes.map Axis.len).dropLast := by
  obtain ⟨outer, last, rfl⟩ := (List.eq_nil_or_concat' axes).resolve_left some_axis
  have extents : (outer ++ [last]).map Axis.len ++ rest = outer.map Axis.len ++ last.len :: rest := by
    simp
  have leading : ((outer ++ [last]).map Axis.len).dropLast = outer.map Axis.len := by simp
  rw [extents, leading]
  constructor
  · rintro ⟨fuel, res, made, _⟩ empty
    obtain ⟨axis, member, none⟩ := List.mem_map.mp empty
    rw [tile_endless member none] at made
    cases made
  · intro filled
    apply tile_made (by simpa using whole)
    intro axis member none
    exact filled (List.mem_map.mpr ⟨axis, member, none⟩)

theorem zip_truncated {γ : Type} (f : Int → Nat → γ) (v : List Int) (shape : List Nat) :
    List.zipWith f v shape = List.zipWith f v (shape.take v.length) := by
  induction v generalizing shape with
  | nil => simp
  | cons i v ih =>
      cases shape with
      | nil => simp
      | cons ext shape => simp [ih shape]

theorem axes_bound (fits : List.Forall₂ (fun i ext => i.natAbs ≤ ext) v (a.shape.take v.length)) :
    v.length ≤ a.shape.length := by
  have length := fits.length_eq
  rw [List.length_take] at length
  omega

theorem take_right_iff (some_axis : v ≠ [])
    (fits : List.Forall₂ (fun i ext => i.natAbs ≤ ext) v (a.shape.take v.length)) :
    (∃ fuel res, take fuel v a = some res ∧
        IsTile a (takeOffset v a.shape) (takeExtents v ++ a.shape.drop v.length) res) ↔
      0 ∉ (takeExtents v).dropLast := by
  obtain ⟨axes, exts, lens, offs, mins⟩ := take_axes fits
  have whole : a.shape = axes.map Axis.ext ++ a.shape.drop v.length := by
    rw [exts, List.take_append_drop]
  have filled : axes ≠ [] := by
    rintro rfl
    exact some_axis (List.map_eq_nil_iff.mp lens.symm)
  have made : ∀ fuel, take fuel v a =
      tileFromArray fuel (minima axes) (axes.map Axis.len ++ a.shape.drop v.length) a := by
    intro fuel
    rw [take, if_pos (axes_bound fits), if_pos (List.length_pos_iff.mpr some_axis), mins, lens,
      zip_truncated]
    rfl
  simp only [made]
  rw [takeOffset, zip_truncated, ← takeOffset, ← offs, ← lens]
  exact tile_right_iff filled whole

theorem drop_right_iff (some_axis : v ≠ [])
    (fits : List.Forall₂ (fun i ext => i.natAbs ≤ ext) v (a.shape.take v.length)) :
    (∃ fuel res, drop fuel v a = some res ∧
        IsTile a (dropOffset v) (dropExtents v a.shape ++ a.shape.drop v.length) res) ↔
      0 ∉ (dropExtents v a.shape).dropLast := by
  obtain ⟨axes, exts, lens, offs, mins⟩ := drop_axes fits
  have whole : a.shape = axes.map Axis.ext ++ a.shape.drop v.length := by
    rw [exts, List.take_append_drop]
  have filled : axes ≠ [] := by
    rintro rfl
    exact some_axis (List.map_eq_nil_iff.mp offs.symm)
  have truncated : dropExtents v a.shape = dropExtents v (a.shape.take v.length) :=
    zip_truncated _ v a.shape
  have made : ∀ fuel, drop fuel v a =
      tileFromArray fuel (minima axes) (axes.map Axis.len ++ a.shape.drop v.length) a := by
    intro fuel
    rw [drop, if_pos (axes_bound fits), if_pos (List.length_pos_iff.mpr some_axis), mins, lens,
      ← truncated]
    rfl
  simp only [made]
  rw [truncated, ← offs, ← lens]
  exact tile_right_iff filled whole

theorem take_and_drop_right_iff (some_axis : v ≠ [])
    (fits : List.Forall₂ (fun i ext => i.natAbs ≤ ext) v (a.shape.take v.length)) :
    ((∃ fuel res, take fuel v a = some res ∧
        IsTile a (takeOffset v a.shape) (takeExtents v ++ a.shape.drop v.length) res) ↔
      0 ∉ (takeExtents v).dropLast) ∧
    ((∃ fuel res, drop fuel v a = some res ∧
        IsTile a (dropOffset v) (dropExtents v a.shape ++ a.shape.drop v.length) res) ↔
      0 ∉ (dropExtents v a.shape).dropLast) :=
  ⟨take_right_iff some_axis fits, drop_right_iff some_axis fits⟩

/-- The matrix of two rows and three columns. -/
def matrix : Constant Nat := ⟨[2, 3], [0, 1, 2, 3, 4, 5], rfl⟩

theorem matrix_tiles :
    ((∃ fuel res, take fuel [1, -2] matrix = some res ∧
        IsTile matrix (takeOffset [1, -2] matrix.shape)
          (takeExtents [1, -2] ++ matrix.shape.drop 2) res) ↔ 0 ∉ (takeExtents [1, -2]).dropLast) ∧
    ((∃ fuel res, drop fuel [1, -2] matrix = some res ∧
        IsTile matrix (dropOffset [1, -2])
          (dropExtents [1, -2] matrix.shape ++ matrix.shape.drop 2) res) ↔
      0 ∉ (dropExtents [1, -2] matrix.shape).dropLast) :=
  take_and_drop_right_iff (by decide) (.cons (by decide) (.cons (by decide) .nil))

/-- No row, and two columns. -/
theorem empty_rows_endless :
    ¬ ∀ (v : List Int) (a : Constant Nat), v ≠ [] →
      List.Forall₂ (fun i ext => i.natAbs ≤ ext) v (a.shape.take v.length) →
      ∃ fuel res, take fuel v a = some res ∧
        IsTile a (takeOffset v a.shape) (takeExtents v ++ a.shape.drop v.length) res := by
  intro right
  have fits : List.Forall₂ (fun (i : Int) (ext : Nat) => i.natAbs ≤ ext) [0, 2] [2, 3] :=
    .cons (by decide) (.cons (by decide) .nil)
  have taken := right [0, 2] matrix (by decide) fits
  have filled := (take_right_iff (a := matrix) (by decide) fits).mp taken
  exact filled (by decide)

end TakeAndDrop

end Sac2c.ConstantTiles
