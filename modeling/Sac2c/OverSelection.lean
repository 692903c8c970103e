import Mathlib.Algebra.BigOperators.Group.List.Lemmas
import Mathlib.Algebra.BigOperators.Ring.List
import Mathlib.Data.List.GetD
import Mathlib.Data.List.Induction
import Sac2c.ConstantArrays

/-!
COoverSel of constants_struc_ops.c. The position in the frame and the index into the array
are both weighted with the next extent instead of the product of all the extents behind, and
nothing is selected if the index array is empty.
-/

namespace Sac2c.OverSelection
open RowMajor ConstantArrays

variable {α : Type}

section Model

/-- The loop of incCounter, from the field `i - 1` on. -/
def incFrom (upperBounds : List Nat) : Nat → List Nat → Bool → Bool × List Nat
  | 0, counter, isMax => (isMax, counter)
  | i + 1, counter, isMax =>
      if isMax then
        if counter.getD i 0 + 1 = upperBounds.getD i 0 then incFrom upperBounds i (counter.set i 0) true
        else incFrom upperBounds i (counter.set i (counter.getD i 0 + 1)) false
      else incFrom upperBounds i counter false

/-- incCounter: whether all the loops have reached their upper bounds, and the counter. -/
def incCounter (counter upperBounds : List Nat) (depth : Nat) : Bool × List Nat :=
  incFrom upperBounds depth counter true

/-- The sums of COoverSel: an entry is multiplied with the next extent, the last one with 1. -/
def strided : List Int → List Nat → Int
  | i :: idx, _ :: shape => i * shape.headD 1 + strided idx shape
  | _, _ => 0

/-- The entries of an index from `idx_elems[idx_pos]` on. -/
def readIndex (idxElems : List Int) (idxPos : Int) (ivLen : Nat) : Option (List Int) :=
  if 0 ≤ idxPos ∧ idxPos + ivLen ≤ idxElems.length then
    some ((idxElems.drop idxPos.toNat).take ivLen)
  else none

/-- The loop that copies the selections, for some number of rounds at most. -/
def copySelections (idxElems : List Int) (frameShape : List Nat) (ivLen : Nat) (a : Constant α)
    (elemLen : Nat) : Nat → List Nat → Nat → List (Option α) → Option (List (Option α))
  | 0, _, _, _ => none
  | fuel + 1, idxCounter, toOffset, resCv =>
      (readIndex idxElems (strided (idxCounter.map Int.ofNat) frameShape * ivLen) ivLen).bind
        fun iv =>
          (copyFrom a.elems (strided iv (a.shape.take ivLen) * elemLen) elemLen resCv toOffset).bind
            fun resCv =>
              let counted := incCounter idxCounter frameShape frameShape.length
              if counted.1 then some resCv
              else
                copySelections idxElems frameShape ivLen a elemLen fuel counted.2
                  (toOffset + elemLen) resCv

/-- COoverSel. The pointer to the elements of an empty index array is null. -/
def overSel (fuel : Nat) (idx : Constant Int) (a : Constant α) : Option (Result α) :=
  if 0 < idx.shape.length ∧ idx.shape.getLastD 0 ≤ a.shape.length then
    let ivLen := idx.shape.getLastD 0
    let frameShape := idx.shape.dropLast
    let cellShape := a.shape.drop ivLen
    let resShape := frameShape ++ cellShape
    (if idx.elems = [] then some (allocCV resShape.prod)
      else copySelections idx.elems frameShape ivLen a cellShape.prod fuel
        (List.replicate frameShape.length 0) 0 (allocCV resShape.prod)).map fun resCv =>
          ⟨resShape, resCv⟩
  else none

end Model

section Specification

/-- The index at a position of the frame. -/
def indexAt (idx : Constant Int) (frame : List Nat) (ivLen : Nat) (f : List Nat) : List Int :=
  (idx.elems.drop (position frame f * ivLen)).take ivLen

/-- Every index selects from the leading axes of an array. -/
def Valid (idx : Constant Int) (frame : List Nat) (ivLen : Nat) (shape : List Nat) : Prop :=
  ∀ f, Within f frame →
    List.Forall₂ (fun (i : Int) (ext : Nat) => 0 ≤ i ∧ i < ext) (indexAt idx frame ivLen f)
      (shape.take ivLen)

/-- The cells of a result are the selections at the positions of the frame. -/
structure Selects (idx : Constant Int) (frame : List Nat) (ivLen : Nat) (a : Constant α)
    (res : Result α) : Prop where
  shape : res.shape = frame ++ a.shape.drop ivLen
  cells : ∀ f, Within f frame → ∃ cell, sel (indexAt idx frame ivLen f) a = some cell ∧
    ∀ c, Within c (a.shape.drop ivLen) → ∃ x, cell.at c = some x ∧ res.at (f ++ c) = some x

/-- The shapes in which the product of the extents behind an axis is the next one wherever
that matters. -/
def NextIsRest : List Nat → Prop
  | [] => True
  | ext :: shape => (2 ≤ ext → ∀ other ∈ shape.tail, other = 1) ∧ NextIsRest shape

end Specification

section Counter

theorem inc_stopped (upper counter : List Nat) (i : Nat) :
    incFrom upper i counter false = (false, counter) := by
  induction i with
  | zero => rfl
  | succ i ih => rw [incFrom, if_neg Bool.false_ne_true, ih]

theorem inc_frame (u x : Nat) {upper counter : List Nat} {i : Nat} (inside : i ≤ counter.length)
    (same : upper.length = counter.length) :
    incFrom (upper ++ [u]) i (counter ++ [x]) true =
      ((incFrom upper i counter true).1, (incFrom upper i counter true).2 ++ [x]) := by
  induction i generalizing counter with
  | zero => rfl
  | succ i ih =>
      have inCounter : i < counter.length := inside
      simp only [incFrom, List.getD_append _ _ _ i inCounter,
        List.getD_append _ _ _ i (same ▸ inCounter), List.set_append_left i _ inCounter, if_true]
      split
      · exact ih (by simp; omega) (by simpa using same)
      · simp only [inc_stopped]

/-- The last field turns first. -/
theorem inc_snoc (u c : Nat) {upper counter : List Nat} (same : upper.length = counter.length) :
    incCounter (counter ++ [c]) (upper ++ [u]) (upper ++ [u]).length =
      if c + 1 = u then
        ((incCounter counter upper upper.length).1, (incCounter counter upper upper.length).2 ++ [0])
      else (false, counter ++ [c + 1]) := by
  have length : (upper ++ [u]).length = counter.length + 1 := by simp [same]
  have atCounter : (counter ++ [c]).getD counter.length 0 = c := by simp
  have atUpper : (upper ++ [u]).getD counter.length 0 = u := by simp [← same]
  have set : ∀ x, (counter ++ [c]).set counter.length x = counter ++ [x] := by
    intro x
    rw [List.set_append_right _ _ (Nat.le_refl _)]
    simp
  rw [incCounter, length, incFrom, if_pos rfl, atCounter, atUpper, set, set,
    inc_frame u 0 (Nat.le_refl _) same, inc_stopped, same, incCounter]

/-- The counter goes through the positions of the frame in row-major order. -/
theorem counter_step {frame : List Nat} {k : Nat} (inside : k < frame.prod) :
    incCounter (digits frame k) frame frame.length =
      if k + 1 < frame.prod then (false, digits frame (k + 1)) else (true, digits frame 0) := by
  induction frame using List.reverseRecOn generalizing k with
  | nil =>
      have first : k = 0 := by simpa using inside
      simp [first, incCounter, incFrom, digits]
  | append_singleton frame ext ih =>
      have product : (frame ++ [ext]).prod = frame.prod * ext := by simp
      rw [product] at inside ⊢
      have filled : 0 < ext := Nat.pos_of_ne_zero fun none => by simp [none] at inside
      have outer : k / ext < frame.prod := Nat.div_lt_of_lt_mul (by rwa [Nat.mul_comm])
      have total : 0 < frame.prod * ext := by omega
      rw [digits_snoc inside, inc_snoc _ _ (by simp [digits_length]), ih outer, digits_snoc total,
        Nat.zero_div, Nat.zero_mod]
      -- The last field turns and carries, or it is counted up.
      by_cases turned : k % ext + 1 = ext
      · obtain ⟨quotient, remainder, more⟩ := next_turned turned frame.prod
        rw [if_pos turned]
        by_cases inner : k / ext + 1 < frame.prod
        · rw [if_pos inner, if_pos (more.mpr inner), digits_snoc (more.mpr inner), quotient,
            remainder]
        · rw [if_neg inner, if_neg fun past => inner (more.mp past)]
      · have below := Nat.mod_lt k filled
        obtain ⟨quotient, remainder, more⟩ := next_counted (by omega : k % ext + 1 < ext) outer
        rw [if_neg turned, if_pos more, digits_snoc more, quotient, remainder]

end Counter

section Strides

variable {shape idx : List Nat}

theorem next_le_rest (filled : 0 ∉ shape) : shape.headD 1 ≤ shape.prod := by
  cases shape with
  | nil => exact Nat.le_refl 1
  | cons ext shape =>
      rw [List.headD_cons, List.prod_cons]
      have rest := List.prod_ne_zero fun empty => filled (List.mem_cons_of_mem ext empty)
      exact Nat.le_mul_of_pos_right ext (Nat.pos_of_ne_zero rest)

/-- The sums stay in range. -/
theorem strided_bounds (within : Within idx shape) :
    0 ≤ strided (idx.map Int.ofNat) shape ∧
      strided (idx.map Int.ofNat) shape ≤ (position shape idx : Nat) := by
  induction within with
  | nil => exact ⟨Int.le_refl 0, Int.le_refl 0⟩
  | @cons i ext idx shape _ within ih =>
      have weight : i * shape.headD 1 ≤ i * shape.prod :=
        Nat.mul_le_mul_left i (next_le_rest (within_filled within))
      rw [List.map_cons, strided, position]
      simp only [Int.ofNat_eq_natCast]
      rw [← Nat.cast_mul, Nat.cast_add]
      omega

theorem ones_product (ones : ∀ other ∈ shape.tail, other = 1) : shape.headD 1 = shape.prod := by
  cases shape with
  | nil => rfl
  | cons ext shape =>
      have rest : shape.prod = 1 := List.prod_eq_one ones
      rw [List.headD_cons, List.prod_cons, rest, Nat.mul_one]

/-- The sums are the positions if the next extent is all the rest. -/
theorem strided_position (flat : NextIsRest shape) (within : Within idx shape) :
    strided (idx.map Int.ofNat) shape = (position shape idx : Nat) := by
  induction within with
  | nil => rfl
  | @cons i ext idx shape lt within ih =>
      have weight : i * shape.headD 1 = i * shape.prod := by
        by_cases wide : 2 ≤ ext
        · rw [ones_product (flat.1 wide)]
        · have zero : i = 0 := by omega
          rw [zero, Nat.zero_mul, Nat.zero_mul]
      rw [List.map_cons, strided, position, ih flat.2]
      simp only [Int.ofNat_eq_natCast]
      rw [← Nat.cast_mul, Nat.cast_add, weight]

theorem zeros_within (filled : 0 ∉ shape) : Within (digits shape 0) shape :=
  digits_within (Nat.pos_of_ne_zero (List.prod_ne_zero filled))

theorem strided_zeros (shape : List Nat) : strided ((digits shape 0).map Int.ofNat) shape = 0 := by
  induction shape with
  | nil => rfl
  | cons ext shape ih =>
      rw [digits, Nat.zero_div, Nat.zero_mod, List.map_cons, strided, ih]
      simp

theorem uneven_next {ext : Nat} (filled : 0 ∉ shape) (inner : NextIsRest shape)
    (uneven : ¬ NextIsRest (ext :: shape)) : 2 ≤ ext ∧ shape.headD 1 ≠ shape.prod := by
  have outer : ¬ (2 ≤ ext → ∀ other ∈ shape.tail, other = 1) := fun flat => uneven ⟨flat, inner⟩
  rw [Classical.not_imp] at outer
  refine ⟨outer.1, fun same => outer.2 ?_⟩
  cases shape with
  | nil => simp
  | cons next shape =>
      intro other member
      have positive : 0 < next := Nat.pos_of_ne_zero fun none => filled (none ▸ List.mem_cons_self)
      have rest : shape.prod = 1 := by
        rw [List.headD_cons, List.prod_cons] at same
        exact Nat.eq_of_mul_eq_mul_left positive (by rw [Nat.mul_one, ← same])
      exact Nat.dvd_one.mp (rest ▸ List.dvd_prod member)

/-- Otherwise some index has another sum. -/
theorem strided_differs (filled : 0 ∉ shape) (uneven : ¬ NextIsRest shape) :
    ∃ idx, Within idx shape ∧ strided (idx.map Int.ofNat) shape ≠ (position shape idx : Nat) := by
  induction shape with
  | nil => exact absurd trivial uneven
  | cons ext shape ih =>
      have rest : 0 ∉ shape := fun empty => filled (List.mem_cons_of_mem ext empty)
      by_cases inner : NextIsRest shape
      · obtain ⟨wide, differs⟩ := uneven_next rest inner uneven
        have inside : 0 < shape.prod := Nat.pos_of_ne_zero (List.prod_ne_zero rest)
        refine ⟨1 :: digits shape 0, .cons wide (zeros_within rest), ?_⟩
        rw [List.map_cons, strided, strided_zeros, position, position_digits inside, Nat.one_mul,
          Int.add_zero, Nat.add_zero, show Int.ofNat 1 = 1 from rfl, Int.one_mul]
        exact fun same => differs (Int.ofNat.inj same)
      · obtain ⟨idx, within, differs⟩ := ih rest inner
        have first : 0 < ext := by
          have nonzero : 0 ≠ ext := fun empty => filled (empty ▸ List.mem_cons_self)
          omega
        refine ⟨0 :: idx, .cons first within, ?_⟩
        rw [List.map_cons, strided, position]
        simpa using differs

/-- The index at the sum of an index. -/
def readAt (shape idx : List Nat) : List Nat :=
  digits shape (strided (idx.map Int.ofNat) shape).toNat

theorem read_position (within : Within idx shape) :
    (position shape (readAt shape idx) : Int) = strided (idx.map Int.ofNat) shape ∧
      Within (readAt shape idx) shape := by
  obtain ⟨least, greatest⟩ := strided_bounds within
  have inside := position_lt within
  have below : (strided (idx.map Int.ofNat) shape).toNat < shape.prod := by omega
  refine ⟨?_, digits_within below⟩
  rw [readAt, position_digits below]
  omega

theorem read_right (flat : NextIsRest shape) (within : Within idx shape) : readAt shape idx = idx := by
  rw [readAt, strided_position flat within, Int.toNat_natCast, digits_position within]

end Strides

section Rows

variable (idx : Constant Int) (frame : List Nat) (m : Nat)

/-- The index at a position, as natural numbers. -/
def naturalAt (f : List Nat) : List Nat := (indexAt idx frame m f).map Int.toNat

variable {idx frame m} {axes f : List Nat}

theorem natural_row {row : List Int}
    (inRange : List.Forall₂ (fun (i : Int) (ext : Nat) => 0 ≤ i ∧ i < ext) row axes) :
    Within (row.map Int.toNat) axes ∧ (row.map Int.toNat).map Int.ofNat = row := by
  induction inRange with
  | nil => exact ⟨.nil, rfl⟩
  | @cons i ext row axes bounds _ ih =>
      have back : ((i.toNat : Nat) : Int) = i := Int.toNat_of_nonneg bounds.1
      refine ⟨.cons (by omega) ih.1, ?_⟩
      rw [List.map_cons, List.map_cons, ih.2]
      simp only [Int.ofNat_eq_natCast, back]

theorem index_read (whole : idx.shape = frame ++ [m]) (within : Within f frame) :
    readIndex idx.elems (strided (f.map Int.ofNat) frame * m) m =
      some (indexAt idx frame m (readAt frame f)) := by
  obtain ⟨here, within'⟩ := read_position within
  have length : idx.elems.length = frame.prod * m := by
    rw [idx.unrolled, whole, List.prod_append, List.prod_singleton]
  have inside : position frame (readAt frame f) * m + m ≤ idx.elems.length :=
    calc position frame (readAt frame f) * m + m
        = (position frame (readAt frame f) + 1) * m := by ring
      _ ≤ idx.elems.length := length ▸ Nat.mul_le_mul_right m (position_lt within')
  rw [← here, ← Nat.cast_mul, readIndex, if_pos (by omega), Int.toNat_natCast, indexAt]

end Rows

section Copies

variable (idx : Constant Int) (frame : List Nat) (m : Nat) (a : Constant α) (axes cell : List Nat)

/-- The index that is selected for a position of the frame. -/
def selected (f : List Nat) : List Nat := readAt axes (naturalAt idx frame m (readAt frame f))

/-- The elements that are copied in some round. -/
def selection (k : Nat) : List α :=
  (a.elems.drop (position axes (selected idx frame m axes (digits frame k)) * cell.prod)).take
    cell.prod

/-- The elements of the result before some round. -/
def written (k : Nat) : List (Option α) :=
  filled (selection idx frame m a axes cell) cell.prod frame.prod k

variable {idx frame m a axes cell}

/-- A cell is inside the array. -/
theorem cell_inside (whole : a.shape = axes ++ cell) {i : List Nat} (within : Within i axes) :
    position axes i * cell.prod + cell.prod ≤ a.elems.length := by
  have below := position_lt within
  rw [a.unrolled, whole, List.prod_append]
  calc position axes i * cell.prod + cell.prod = (position axes i + 1) * cell.prod := by ring
    _ ≤ axes.prod * cell.prod := Nat.mul_le_mul_right _ below

/-- The indices are in range, of every position of the frame. -/
def InRange (idx : Constant Int) (frame : List Nat) (m : Nat) (axes : List Nat) : Prop :=
  ∀ f, Within f frame → Within (naturalAt idx frame m f) axes ∧
    (naturalAt idx frame m f).map Int.ofNat = indexAt idx frame m f

theorem selected_within (ranged : InRange idx frame m axes) {f : List Nat}
    (within : Within f frame) : Within (selected idx frame m axes f) axes :=
  (read_position (ranged _ (read_position within).2).1).2

theorem selection_length (whole : a.shape = axes ++ cell) (ranged : InRange idx frame m axes)
    {k : Nat} (more : k < frame.prod) :
    (selection idx frame m a axes cell k).length = cell.prod := by
  have inside := cell_inside whole (selected_within ranged (digits_within more))
  rw [selection, List.length_take, List.length_drop]
  omega

/-- One round. -/
theorem selection_copied (whole : a.shape = axes ++ cell) (long : axes.length = m)
    (rows : idx.shape = frame ++ [m]) (ranged : InRange idx frame m axes) {k : Nat}
    (more : k < frame.prod) (fuel : Nat) :
    copySelections idx.elems frame m a cell.prod (fuel + 1) (digits frame k) (k * cell.prod)
        (written idx frame m a axes cell k) =
      if k + 1 < frame.prod then
        copySelections idx.elems frame m a cell.prod fuel (digits frame (k + 1))
          ((k + 1) * cell.prod) (written idx frame m a axes cell (k + 1))
      else some (written idx frame m a axes cell (k + 1)) := by
  have within := digits_within more
  obtain ⟨_, read⟩ := read_position within
  obtain ⟨natural, same⟩ := ranged _ read
  have offset : strided (indexAt idx frame m (readAt frame (digits frame k))) axes * cell.prod =
      ((position axes (selected idx frame m axes (digits frame k)) * cell.prod : Nat) : Int) := by
    rw [← same, ← (read_position natural).1, selected]
    push_cast
    rfl
  have leading : a.shape.take m = axes := by rw [whole, ← long, List.take_left]
  have sized : ∀ j < frame.prod, (selection idx frame m a axes cell j).length = cell.prod :=
    fun _ less => selection_length whole ranged less
  have copied : copyFrom a.elems
      (position axes (selected idx frame m axes (digits frame k)) * cell.prod : Nat) cell.prod
      (written idx frame m a axes cell k) (k * cell.prod) =
        some (written idx frame m a axes cell (k + 1)) :=
    block_copied a.elems (cell_inside whole (selected_within ranged within)) sized more rfl
  rw [copySelections, index_read rows within, Option.bind_some, leading, offset, copied,
    Option.bind_some]
  simp only [counter_step more]
  split
  · rw [if_neg Bool.false_ne_true, Nat.add_mul, Nat.one_mul]
  · rw [if_pos rfl]

/-- The loop goes through the positions of the frame. -/
theorem selections_copied (whole : a.shape = axes ++ cell) (long : axes.length = m)
    (rows : idx.shape = frame ++ [m]) (ranged : InRange idx frame m axes) (fuel : Nat) {k : Nat}
    (more : k < frame.prod) :
    copySelections idx.elems frame m a cell.prod fuel (digits frame k) (k * cell.prod)
        (written idx frame m a axes cell k) =
      if frame.prod - k ≤ fuel then some (written idx frame m a axes cell frame.prod) else none := by
  induction fuel generalizing k with
  | zero => rw [copySelections, if_neg (by omega)]
  | succ fuel ih =>
      rw [selection_copied whole long rows ranged more]
      by_cases again : k + 1 < frame.prod
      · rw [if_pos again, ih again]
        congr 1
        simp only [eq_iff_iff]
        omega
      · have last : k + 1 = frame.prod := by omega
        rw [if_neg again, if_pos (by omega), last]

theorem zero_digits (shape : List Nat) : List.replicate shape.length 0 = digits shape 0 := by
  induction shape with
  | nil => rfl
  | cons ext shape ih => rw [List.length_cons, List.replicate_succ, ih, digits, Nat.zero_div, Nat.zero_mod]

/-- The result of a selection that is not empty. -/
theorem over_selected (whole : a.shape = axes ++ cell) (long : axes.length = m)
    (rows : idx.shape = frame ++ [m]) (ranged : InRange idx frame m axes) (filled : 0 ∉ frame)
    (some_axis : m ≠ 0) (fuel : Nat) :
    overSel fuel idx a =
      if frame.prod ≤ fuel then
        some ⟨frame ++ cell, written idx frame m a axes cell frame.prod⟩
      else none := by
  have positive : 0 < frame.prod := Nat.pos_of_ne_zero (List.prod_ne_zero filled)
  have last : idx.shape.getLastD 0 = m := by rw [rows, List.getLastD_concat]
  have behind : a.shape.drop m = cell := by rw [whole, ← long, List.drop_left]
  have accepted : 0 < idx.shape.length ∧ m ≤ a.shape.length := by
    rw [rows, whole]
    simp [long]
  have pointer : idx.elems ≠ [] := by
    rw [← List.length_pos_iff, idx.unrolled, rows, List.prod_append, List.prod_singleton]
    exact Nat.mul_pos positive (Nat.pos_of_ne_zero some_axis)
  have looped := selections_copied whole long rows ranged fuel positive
  rw [written, filled_zero, Nat.zero_mul, Nat.sub_zero] at looped
  rw [overSel, last, if_pos accepted]
  simp only [rows, List.dropLast_concat, behind, if_neg pointer, zero_digits, List.prod_append]
  rw [looped]
  split <;> rfl

/-- An element of a cell. -/
theorem cell_element (offset : Nat) {c : List Nat} (within : Within c cell) :
    (((a.elems.drop offset).take cell.prod).map some)[position cell c]?.join =
      a.elems[offset + position cell c]? := by
  rw [List.getElem?_map, List.getElem?_take_of_lt (position_lt within), List.getElem?_drop]
  cases a.elems[offset + position cell c]? <;> rfl

/-- An index that is in range selects a cell. -/
theorem cell_selected (whole : a.shape = axes ++ cell) {i : List Nat} (within : Within i axes) :
    sel (i.map Int.ofNat) a = some
      ⟨cell, ((a.elems.drop (position axes i * cell.prod)).take cell.prod).map some⟩ := by
  have long : (i.map Int.ofNat).length = axes.length := by rw [List.length_map, within.length_eq]
  have accepted : (i.map Int.ofNat).length ≤ a.shape.length := by
    rw [long, whole, List.length_append]
    omega
  have behind : a.shape.drop (i.map Int.ofNat).length = cell := by rw [long, whole, List.drop_left]
  have offset : position (axes ++ cell) i = position axes i * cell.prod := by
    have split : position (axes ++ cell) (i ++ []) = _ := position_append within.length_eq
    have none : position cell [] = 0 := by cases cell <;> rfl
    rwa [List.append_nil, none, Nat.add_zero] at split
  have copied := copy_from a.elems (cell_inside whole within) [] (allocCV cell.prod) [] (by simp [allocCV])
  simp only [List.nil_append, List.append_nil, List.length_nil] at copied
  rw [sel, if_pos accepted]
  simp only [behind]
  rw [whole, idx2offset_position cell within, offset, Option.bind_some, copied]
  rfl

/-- An element of the result. -/
theorem written_at (whole : a.shape = axes ++ cell) (ranged : InRange idx frame m axes)
    {f c : List Nat} (inFrame : Within f frame) (inCell : Within c cell) :
    Result.at ⟨frame ++ cell, written idx frame m a axes cell frame.prod⟩ (f ++ c) =
      a.elems[position axes (selected idx frame m axes f) * cell.prod + position cell c]? := by
  have sized : ∀ j < frame.prod, (selection idx frame m a axes cell j).length = cell.prod :=
    fun _ less => selection_length whole ranged less
  have place := position_lt inCell
  rw [Result.at, position_append inFrame.length_eq, written,
    filled_at sized (position_lt inFrame) place, selection, digits_position inFrame,
    List.getElem?_take_of_lt place, List.getElem?_drop]

/-- The selections are right if the elements that are copied are those that are selected. -/
theorem selects_iff (whole : a.shape = axes ++ cell) (long : axes.length = m)
    (ranged : InRange idx frame m axes) :
    Selects idx frame m a ⟨frame ++ cell, written idx frame m a axes cell frame.prod⟩ ↔
      ∀ f, Within f frame → ∀ c, Within c cell →
        a.elems[position axes (selected idx frame m axes f) * cell.prod + position cell c]? =
          a.elems[position axes (naturalAt idx frame m f) * cell.prod + position cell c]? := by
  have behind : a.shape.drop m = cell := by rw [whole, ← long, List.drop_left]
  have made : ∀ f, Within f frame → sel (indexAt idx frame m f) a = some
      ⟨cell, ((a.elems.drop (position axes (naturalAt idx frame m f) * cell.prod)).take
        cell.prod).map some⟩ := by
    intro f inFrame
    obtain ⟨natural, same⟩ := ranged f inFrame
    rw [← same, cell_selected whole natural]
  constructor
  · rintro ⟨_, cells⟩ f inFrame c inCell
    obtain ⟨selCell, chosen, copied⟩ := cells f inFrame
    rw [behind] at copied
    obtain ⟨x, expected, found⟩ := copied c inCell
    rw [made f inFrame, Option.some.injEq] at chosen
    rw [written_at whole ranged inFrame inCell] at found
    rw [← chosen, Result.at, cell_element _ inCell] at expected
    rw [found, expected]
  · intro right
    refine ⟨by rw [behind], fun f inFrame => ⟨_, made f inFrame, ?_⟩⟩
    rw [behind]
    intro c inCell
    have inside := cell_inside whole (ranged f inFrame).1
    have place := position_lt inCell
    have present : position axes (naturalAt idx frame m f) * cell.prod + position cell c <
        a.elems.length := by omega
    obtain ⟨x, found⟩ : ∃ x,
        a.elems[position axes (naturalAt idx frame m f) * cell.prod + position cell c]? = some x :=
      ⟨_, List.getElem?_eq_getElem present⟩
    refine ⟨x, ?_, ?_⟩
    · rw [Result.at, cell_element _ inCell, found]
    · rw [written_at whole ranged inFrame inCell, right f inFrame c inCell, found]

end Copies

section Right

variable {idx : Constant Int} {frame : List Nat} {m : Nat} {a : Constant α} {axes cell : List Nat}

theorem valid_ranged {shape : List Nat} (valid : Valid idx frame m shape) :
    InRange idx frame m (shape.take m) := fun f within => natural_row (valid f within)

theorem ones_first (ones : ∀ e ∈ axes, e = 1) {i : List Nat} (within : Within i axes) :
    i = digits axes 0 := by
  have below := position_lt within
  rw [List.prod_eq_one ones] at below
  rw [← digits_position within, Nat.lt_one_iff.mp below]

/-- The index of every position is selected if the sums are right where they matter. -/
theorem selected_right (ranged : InRange idx frame m axes) (flat : NextIsRest axes)
    (framed : NextIsRest frame ∨ ∀ e ∈ axes, e = 1) {f : List Nat} (within : Within f frame) :
    selected idx frame m axes f = naturalAt idx frame m f := by
  have read := (read_position within).2
  rw [selected, read_right flat (ranged _ read).1]
  cases framed with
  | inl framed => rw [read_right framed within]
  | inr ones => rw [ones_first ones (ranged _ read).1, ones_first ones (ranged f within).1]

theorem over_null (whole : a.shape = axes ++ cell) (long : axes.length = m)
    (rows : idx.shape = frame ++ [m]) (null : idx.elems = []) (fuel : Nat) :
    overSel fuel idx a = some ⟨frame ++ cell, allocCV (frame ++ cell).prod⟩ := by
  have last : idx.shape.getLastD 0 = m := by rw [rows, List.getLastD_concat]
  have behind : a.shape.drop m = cell := by rw [whole, ← long, List.drop_left]
  have accepted : 0 < idx.shape.length ∧ m ≤ a.shape.length := by
    rw [rows, whole]
    simp [long]
  rw [overSel, last, if_pos accepted]
  simp only [rows, List.dropLast_concat, behind, if_pos null, Option.map_some]

/-- Some result is made. -/
theorem over_made (whole : a.shape = axes ++ cell) (long : axes.length = m)
    (rows : idx.shape = frame ++ [m]) (ranged : InRange idx frame m axes) :
    ∃ fuel elems, overSel fuel idx a = some ⟨frame ++ cell, elems⟩ := by
  by_cases null : idx.elems = []
  · exact ⟨0, _, over_null whole long rows null 0⟩
  · have nonzero : idx.shape.prod ≠ 0 := by
      rw [← idx.unrolled]
      exact fun none => null (List.length_eq_zero_iff.mp none)
    rw [rows, List.prod_append, List.prod_singleton, Nat.mul_ne_zero_iff] at nonzero
    have filled : 0 ∉ frame := fun empty => nonzero.1 (List.prod_eq_zero empty)
    have made := over_selected whole long rows ranged filled nonzero.2 frame.prod
    exact ⟨frame.prod, _, by rw [made, if_pos (Nat.le_refl _)]⟩

/-- There is nothing to select, or nothing of it to copy. -/
theorem selects_empty (whole : a.shape = axes ++ cell) (long : axes.length = m)
    (ranged : InRange idx frame m axes) (empty : 0 ∈ frame ∨ 0 ∈ cell)
    (elems : List (Option α)) : Selects idx frame m a ⟨frame ++ cell, elems⟩ := by
  have behind : a.shape.drop m = cell := by rw [whole, ← long, List.drop_left]
  refine ⟨by rw [behind], fun f inFrame => ?_⟩
  obtain ⟨natural, same⟩ := ranged f inFrame
  refine ⟨_, by rw [← same, cell_selected whole natural], ?_⟩
  rw [behind]
  intro c inCell
  cases empty with
  | inl empty => exact absurd empty (within_filled inFrame)
  | inr empty => exact absurd empty (within_filled inCell)

/-- The selections are right if nothing is selected or the sums are right. -/
theorem over_right (whole : a.shape = axes ++ cell) (long : axes.length = m)
    (rows : idx.shape = frame ++ [m]) (ranged : InRange idx frame m axes)
    (right : 0 ∈ frame ∨ 0 ∈ axes ++ cell ∨
      m ≠ 0 ∧ NextIsRest axes ∧ (NextIsRest frame ∨ ∀ e ∈ axes, e = 1)) :
    ∃ fuel res, overSel fuel idx a = some res ∧ Selects idx frame m a res := by
  by_cases empty : 0 ∈ frame ∨ 0 ∈ cell
  · obtain ⟨fuel, elems, made⟩ := over_made whole long rows ranged
    exact ⟨fuel, _, made, selects_empty whole long ranged empty elems⟩
  · rw [not_or] at empty
    have first := (ranged _ (zeros_within empty.1)).1
    have all : 0 ∉ axes ++ cell := by
      rw [List.mem_append, not_or]
      exact ⟨within_filled first, empty.2⟩
    obtain ⟨some_axis, flat, framed⟩ := (right.resolve_left empty.1).resolve_left all
    have made := over_selected whole long rows ranged empty.1 some_axis frame.prod
    rw [if_pos (Nat.le_refl _)] at made
    refine ⟨_, _, made, (selects_iff whole long ranged).mpr fun f inFrame c _ => ?_⟩
    rw [selected_right ranged flat framed inFrame]

end Right

section Wrong

variable {frame : List Nat} {m : Nat} {axes cell : List Nat} {row : Nat → List Nat}

/-- The array whose elements are their positions. -/
def positions (shape : List Nat) : Constant Nat :=
  ⟨shape, List.range shape.prod, List.length_range⟩

/-- The index array of some rows. -/
def indices (frame : List Nat) (m : Nat) (row : Nat → List Nat)
    (sized : ∀ k < frame.prod, (row k).length = m) : Constant Int where
  shape := frame ++ [m]
  elems := (List.range frame.prod).flatMap fun k => (row k).map Int.ofNat
  unrolled := by
    rw [flat_length frame.prod fun k less => by rw [List.length_map, sized k less],
      List.prod_append, List.prod_singleton]

theorem index_of_rows (sized : ∀ k < frame.prod, (row k).length = m) {f : List Nat}
    (within : Within f frame) :
    indexAt (indices frame m row sized) frame m f = (row (position frame f)).map Int.ofNat := by
  have blocks : ∀ k < frame.prod, ((row k).map Int.ofNat).length = m := fun k less => by
    rw [List.length_map, sized k less]
  exact flat_block frame.prod blocks (position_lt within)

theorem natural_of_rows (sized : ∀ k < frame.prod, (row k).length = m) {f : List Nat}
    (within : Within f frame) :
    naturalAt (indices frame m row sized) frame m f = row (position frame f) := by
  rw [naturalAt, index_of_rows sized within, List.map_map]
  exact List.map_id _

theorem natural_in_range {i axes : List Nat} (within : Within i axes) :
    List.Forall₂ (fun (i : Int) (ext : Nat) => 0 ≤ i ∧ i < ext) (i.map Int.ofNat) axes := by
  rw [List.forall₂_map_left_iff]
  exact within.imp fun i ext lt => ⟨Int.natCast_nonneg i, Int.ofNat_lt.mpr lt⟩

theorem rows_valid {shape : List Nat} (sized : ∀ k < frame.prod, (row k).length = m)
    (inside : ∀ k < frame.prod, Within (row k) (shape.take m)) :
    Valid (indices frame m row sized) frame m shape := by
  intro f within
  rw [index_of_rows sized within]
  exact natural_in_range (inside _ (position_lt within))

/-- What it takes that the selections from the positions are right. -/
def RightFor (idx : Constant Int) (frame : List Nat) (m : Nat) (a : Constant α) : Prop :=
  ∃ fuel res, overSel fuel idx a = some res ∧ Selects idx frame m a res

/-- The rows that are read are those of the indices, if the selections are right. -/
theorem rows_read (long : axes.length = m) (filled : 0 ∉ frame) (some_axis : m ≠ 0)
    (full : 0 ∉ cell) (inside : ∀ k < frame.prod, Within (row k) axes)
    (sized : ∀ k < frame.prod, (row k).length = m)
    (right : RightFor (indices frame m row sized) frame m (positions (axes ++ cell)))
    {f : List Nat} (within : Within f frame) :
    readAt axes (row (position frame (readAt frame f))) = row (position frame f) := by
  have leading : (axes ++ cell).take m = axes := by rw [← long, List.take_left]
  have valid : Valid (indices frame m row sized) frame m (axes ++ cell) :=
    rows_valid sized (by rwa [leading])
  have ranged := valid_ranged valid
  rw [leading] at ranged
  obtain ⟨fuel, res, made, selects⟩ := right
  have whole : (positions (axes ++ cell)).shape = axes ++ cell := rfl
  rw [over_selected whole long rfl ranged filled some_axis] at made
  split at made
  · cases made
    have natural := natural_of_rows sized within
    have read := (read_position within).2
    have inFull := zeros_within full
    -- The first element of a cell tells which cell it is.
    have same := (selects_iff whole long ranged).mp selects f within _ inFull
    have start : position cell (digits cell 0) = 0 :=
      position_digits (Nat.pos_of_ne_zero (List.prod_ne_zero full))
    have chosen := selected_within ranged within
    have number : ∀ i, Within i axes →
        (positions (axes ++ cell)).elems[position axes i * cell.prod + 0]? =
          some (position axes i * cell.prod) := by
      intro i inAxes
      have below := cell_inside whole inAxes
      have positive := position_lt inFull
      have less : position axes i * cell.prod < (axes ++ cell).prod := by
        rw [(positions (axes ++ cell)).unrolled, whole] at below
        omega
      exact List.getElem?_range less
    rw [start, number _ chosen, natural, number _ (inside _ (position_lt within)), Option.some.injEq]
      at same
    have positive : 0 < cell.prod := Nat.pos_of_ne_zero (List.prod_ne_zero full)
    have positions_same := Nat.eq_of_mul_eq_mul_right positive same
    rw [selected, natural_of_rows sized read] at positions_same chosen
    rw [← digits_position chosen, positions_same, digits_position (inside _ (position_lt within))]
  · cases made

/-- Without an axis to select from, nothing is copied. -/
theorem scalar_rows_wrong (filled : 0 ∉ frame) (full : 0 ∉ cell) :
    ¬ RightFor (indices frame 0 (fun _ => []) fun _ _ => rfl) frame 0 (positions cell) := by
  rintro ⟨fuel, res, made, selects⟩
  have null : (indices frame 0 (fun _ => []) fun _ _ => rfl).elems = [] := by simp [indices]
  have copied_none : overSel fuel (indices frame 0 (fun _ => []) fun _ _ => rfl) (positions cell) =
      some ⟨frame ++ cell, allocCV (frame ++ cell).prod⟩ :=
    over_null (List.nil_append cell).symm rfl rfl null fuel
  rw [copied_none, Option.some.injEq] at made
  obtain ⟨selCell, _, copied⟩ := selects.cells _ (zeros_within filled)
  obtain ⟨x, _, found⟩ := copied _ (zeros_within full)
  rw [← made, Result.at, allocCV, List.getElem?_replicate] at found
  split at found <;> cases found

/-- The sums have to be right on the axes that are selected from. -/
theorem axes_flat (fullAxes : 0 ∉ axes)
    (read : ∀ i, Within i axes → readAt axes i = i) : NextIsRest axes := by
  by_contra uneven
  obtain ⟨i, within, differs⟩ := strided_differs fullAxes uneven
  rw [← (read_position within).1, read i within] at differs
  exact differs rfl

/-- The sums have to be right on the frame too, if there is more than one index. -/
theorem frame_flat (filled : 0 ∉ frame) (fullAxes : 0 ∉ axes)
    (read : ∀ row : Nat → List Nat, (∀ k < frame.prod, Within (row k) axes) →
      ∀ f, Within f frame → row (position frame (readAt frame f)) = row (position frame f)) :
    NextIsRest frame ∨ ∀ e ∈ axes, e = 1 := by
  by_contra uneven
  rw [not_or] at uneven
  obtain ⟨f, within, differs⟩ := strided_differs filled uneven.1
  rw [← (read_position within).1] at differs
  have several : 1 < axes.prod := by
    have positive := List.prod_ne_zero fullAxes
    have notOne : axes.prod ≠ 1 := fun one =>
      uneven.2 fun e member => Nat.dvd_one.mp (one ▸ List.dvd_prod member)
    omega
  have same := read (fun k => digits axes (if k = position frame f then 1 else 0))
    (fun k _ => digits_within (by split <;> omega)) f within
  rw [if_pos rfl, if_neg fun here => differs (by rw [here])] at same
  have positions_same := congrArg (position axes) same
  rw [position_digits (by omega), position_digits several] at positions_same
  cases positions_same

end Wrong

section Selections

variable {frame : List Nat} {m : Nat} {shape : List Nat}

/-- The selections are right for all arrays of some shape and all index arrays of a frame if and
only if nothing is selected or the next extents are all the rest where that matters. -/
theorem over_sel_right_iff (bound : m ≤ shape.length) :
    (∀ (α : Type) (a : Constant α) (idx : Constant Int), a.shape = shape →
      idx.shape = frame ++ [m] → Valid idx frame m shape →
        ∃ fuel res, overSel fuel idx a = some res ∧ Selects idx frame m a res) ↔
    0 ∈ frame ∨ 0 ∈ shape ∨ m ≠ 0 ∧ NextIsRest (shape.take m) ∧
      (NextIsRest frame ∨ ∀ e ∈ shape.take m, e = 1) := by
  have split : shape.take m ++ shape.drop m = shape := List.take_append_drop m shape
  have long : (shape.take m).length = m := by rw [List.length_take, Nat.min_eq_left bound]
  constructor
  -- Arrays whose elements are their own positions show which cells are read.
  · intro right
    by_contra wrong
    rw [not_or, not_or] at wrong
    obtain ⟨filled, full, uneven⟩ := wrong
    have fullAxes : 0 ∉ shape.take m := fun empty => full (List.mem_of_mem_take empty)
    have fullCell : 0 ∉ shape.drop m := fun empty => full (List.mem_of_mem_drop empty)
    have some_axis : m ≠ 0 := by
      rintro rfl
      exact scalar_rows_wrong filled fullCell (right Nat _ _ rfl rfl (rows_valid _ fun _ _ => .nil))
    have read : ∀ row : Nat → List Nat, (∀ k < frame.prod, Within (row k) (shape.take m)) →
        ∀ f, Within f frame →
          readAt (shape.take m) (row (position frame (readAt frame f))) = row (position frame f) := by
      intro row inside f within
      have sized : ∀ k < frame.prod, (row k).length = m := fun k less => by
        rw [(inside k less).length_eq, long]
      have valid := rows_valid sized inside
      exact rows_read long filled some_axis fullCell inside sized
        (right Nat _ _ split rfl valid) within
    have flat : NextIsRest (shape.take m) := axes_flat fullAxes fun i within =>
      read (fun _ => i) (fun _ _ => within) _ (zeros_within filled)
    refine uneven ⟨some_axis, flat, frame_flat filled fullAxes fun row inside f within => ?_⟩
    rw [← read row inside f within,
      read_right flat (inside _ (position_lt (read_position within).2))]
  · intro right α a idx shaped rows valid
    have whole : a.shape = shape.take m ++ shape.drop m := by rw [shaped, split]
    exact over_right whole long rows (valid_ranged valid) (by rwa [split])

theorem cube_frame_right_iff :
    (∀ (α : Type) (a : Constant α) (idx : Constant Int), a.shape = [3] →
      idx.shape = [2, 2, 2] ++ [1] → Valid idx [2, 2, 2] 1 [3] →
        ∃ fuel res, overSel fuel idx a = some res ∧ Selects idx [2, 2, 2] 1 a res) ↔
    0 ∈ [2, 2, 2] ∨ 0 ∈ [3] ∨ 1 ≠ 0 ∧ NextIsRest ([3].take 1) ∧
      (NextIsRest [2, 2, 2] ∨ ∀ e ∈ [3].take 1, e = 1) :=
  over_sel_right_iff (by decide)

/-- The index at [1, 0, 0] is read from [0, 1, 0]. -/
theorem cube_frame_wrong :
    ¬ ∀ (a : Constant Nat) (idx : Constant Int) (frame : List Nat) (m : Nat),
      idx.shape = frame ++ [m] → m ≤ a.shape.length → Valid idx frame m a.shape →
        ∃ fuel res, overSel fuel idx a = some res ∧ Selects idx frame m a res := by
  intro right
  have inside : ∀ k < [2, 2, 2].prod, Within (if k = 4 then [1] else [0]) [2] := by decide
  have sized : ∀ k < [2, 2, 2].prod, (if k = 4 then [1] else [0]).length = 1 := by decide
  have long : [2].length = 1 := rfl
  have place : Within [1, 0, 0] [2, 2, 2] := by decide
  have leading : (positions ([2] ++ [])).shape.take 1 = [2] := rfl
  have valid := rows_valid sized (leading ▸ inside)
  have made := right (positions ([2] ++ [])) _ [2, 2, 2] 1 rfl (by decide) valid
  have read := rows_read long (by decide) Nat.one_ne_zero (by decide) inside sized made place
  exact absurd read (by decide)

end Selections

end Sac2c.OverSelection
