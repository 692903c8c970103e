import Sac2c.Cubes
import Sac2c.StrideNormalisation

/-!
TestAndDivideStrides of wltransform/wltransform.c. If the outlines of two strides meet, but
in some dimension there is nothing of one stride in the outline of the other, then the
stride is divided at the bounds of the other one.
-/

namespace Sac2c.StrideDivision

open RunSets StrideNormalisation

section Cutting

/-- The stride with new bounds, where the grid is moved by WLTRAgridOffset. -/
def cut (s : Stride1) (newBound1 newBound2 : Int) : Stride1 :=
  let offset := Cubes.gridOffset newBound1 s.bound1 s.step s.gridB2
  { bound1 := newBound1
    bound2 := newBound2
    step := s.step
    gridB1 := s.gridB1 - offset
    gridB2 := s.gridB2 - offset }

/-- The grid stays in one piece. -/
def Compatible (s : Stride1) (newBound1 : Int) : Prop :=
  Cubes.gridOffset newBound1 s.bound1 s.step s.gridB2 ≤ s.gridB1

variable {s t : Stride1} {x y : Int}

theorem offset_range (legal : Legal s) (forward : s.bound1 ≤ x) :
    Cubes.gridOffset x s.bound1 s.step s.gridB2 < s.gridB2 ∧
      s.gridB2 - s.step ≤ Cubes.gridOffset x s.bound1 s.step s.gridB2 := by
  have positive := step_positive legal
  have shift := Int.emod_nonneg (x - s.bound1) positive.ne'
  have shift_lt := Int.emod_lt_of_pos (x - s.bound1) positive
  obtain ⟨lower, some, grid, wide, fits⟩ := legal
  rw [Cubes.grid_offset_eq s.gridB2 forward]
  split <;> omega

/-- From the new lower bound on the moved grid selects what the old one did. -/
theorem cut_indexes (legal : Legal s) (forward : s.bound1 ≤ x) (whole : Compatible s x)
    (inside : y ≤ s.bound2) (i : Int) : Indexes (cut s x y) i ↔ Indexes s i ∧ x ≤ i ∧ i < y := by
  have positive := step_positive legal
  have old := Int.emod_nonneg (i - s.bound1) positive.ne'
  have old_lt := Int.emod_lt_of_pos (i - s.bound1) positive
  have new := Int.emod_nonneg (i - x) positive.ne'
  have new_lt := Int.emod_lt_of_pos (i - x) positive
  have shift := Int.emod_nonneg (x - s.bound1) positive.ne'
  have shift_lt := Int.emod_lt_of_pos (x - s.bound1) positive
  have moved := Cubes.offset_moved s.step s.bound1 x i positive
  obtain ⟨lower, some, grid, wide, fits⟩ := legal
  simp only [Compatible, Cubes.grid_offset_eq s.gridB2 forward] at whole
  simp only [Indexes, cut, Cubes.grid_offset_eq s.gridB2 forward]
  split at whole <;> omega

/-- The first element from the new lower bound on. -/
theorem first_le_index (legal : Legal s) (forward : s.bound1 ≤ x) (whole : Compatible s x) {i : Int}
    (element : Indexes s i) (behind : x ≤ i) :
    x + (s.gridB1 - Cubes.gridOffset x s.bound1 s.step s.gridB2) ≤ i := by
  have range := offset_range legal forward
  have fits := legal.fits
  have covered := ((cut_indexes legal forward whole (Int.le_refl _) i).mpr
    ⟨element, behind, element.2.1⟩).2.2.1
  by_contra before
  simp only [cut] at covered
  rw [Int.emod_eq_of_lt (by omega) (by have := legal.wide; omega)] at covered
  omega

theorem cut_legal (legal : Legal s) (forward : s.bound1 ≤ x) (whole : Compatible s x)
    (some : x + (s.gridB1 - Cubes.gridOffset x s.bound1 s.step s.gridB2) < y) :
    Legal (cut s x y) := by
  have range := offset_range legal forward
  obtain ⟨lower, _, grid, wide, fits⟩ := legal
  simp only [Compatible] at whole
  constructor <;> simp only [cut] <;> omega

/-- At its own lower bound a stride is not moved. -/
theorem offset_self (legal : Legal s) :
    Cubes.gridOffset s.bound1 s.bound1 s.step s.gridB2 = 0 := by
  have wide := legal.wide
  have grid := legal.grid
  rw [Cubes.grid_offset_eq s.gridB2 (Int.le_refl _), Int.sub_self, Int.zero_emod]
  split <;> omega

theorem compatible_self (legal : Legal s) : Compatible s s.bound1 := by
  rw [Compatible, offset_self legal]
  exact legal.grid

end Cutting

section Elements

/-- IndexHeadStride; none if the assertion fails. -/
def indexHeadStride (s : Stride1) : Option Int :=
  if s.bound1 < s.bound2 then some (s.bound1 + s.gridB1) else none

/-- IndexRearStride, for a stride with one grid. -/
def indexRearStride (s : Stride1) : Option Int :=
  if s.bound1 < s.bound2 then
    some (s.bound2 - max 0 ((s.bound2 - s.bound1 - s.gridB1 - 1).tmod s.step + 1
      - (s.gridB2 - s.gridB1)))
  else none

variable {s : Stride1}

theorem index_head (legal : Legal s) :
    indexHeadStride s = some (s.bound1 + s.gridB1) ∧ Indexes s (s.bound1 + s.gridB1) := by
  have more : s.bound1 < s.bound2 := by
    have := legal.some
    have := legal.grid
    omega
  exact ⟨by simp [indexHeadStride, more],
    (indexes_iff legal _).mpr (has_first (runs_proper legal))⟩

/-- The element before the rear index belongs to the stride. -/
theorem index_rear (legal : Legal s) :
    ∃ rear, indexRearStride s = some rear ∧ Indexes s (rear - 1) := by
  have iff := indexes_iff legal
  have last := has_rear (runs_proper legal)
  obtain ⟨lower, some, grid, wide, fits⟩ := legal
  have length : s.bound2 - s.bound1 - s.gridB1 - 1 = s.bound2 - (s.bound1 + s.gridB1) - 1 := by
    omega
  refine ⟨(runs s).rear, ?_, (iff _).mpr last⟩
  rw [indexRearStride, if_pos (by omega), Int.tmod_eq_emod_of_nonneg (by omega), length]
  rfl

end Elements

section OneDimension

/-- What the tests of a dimension have shown when a division is decided. -/
structure Meeting (s t : Stride1) : Prop where
  legal : Legal s
  other : Legal t
  /-- The outlines meet: the first element of one is not behind the last one of the other. -/
  before : ∃ i, Indexes t i ∧ s.bound1 + s.gridB1 ≤ i
  behind : ∃ i, Indexes s i ∧ t.bound1 + t.gridB1 ≤ i
  whole : Compatible s (max s.bound1 t.bound1)
  /-- There is nothing of this stride in the outline of the other. -/
  empty : min s.bound2 t.bound2 ≤ max s.bound1 t.bound1
    + (s.gridB1 - Cubes.gridOffset (max s.bound1 t.bound1) s.bound1 s.step s.gridB2)

variable {s t : Stride1}

theorem meeting_outside (meeting : Meeting s t) {i : Int} (element : Indexes s i) :
    i < max s.bound1 t.bound1 ∨ min s.bound2 t.bound2 ≤ i := by
  by_contra inside
  have first := first_le_index meeting.legal (by omega) meeting.whole element (by omega)
  have := meeting.empty
  omega

/-- The outline of the other stride lies between two elements of this one. -/
theorem meeting_inside (meeting : Meeting s t) :
    s.bound1 + s.gridB1 < t.bound1 ∧ t.bound2 < s.bound2 ∧
      ∃ i, Indexes s i ∧ t.bound2 ≤ i := by
  obtain ⟨i, t_element, after_head⟩ := meeting.before
  obtain ⟨j, s_element, after_other⟩ := meeting.behind
  have head := (index_head meeting.legal).2
  have outside_head := meeting_outside meeting head
  have outside := meeting_outside meeting s_element
  have grid := meeting.legal.grid
  have grid' := meeting.other.grid
  have head_upper := head.2.1
  have t_upper := t_element.2.1
  have s_lower := s_element.1
  have s_upper := s_element.2.1
  exact ⟨by omega, by omega, j, s_element, by omega⟩

theorem meeting_divides (meeting : Meeting s t) {i : Int} (element : Indexes s i) :
    i < t.bound1 ∨ t.bound2 ≤ i := by
  have outside := meeting_outside meeting element
  have inside := meeting_inside meeting
  have grid := meeting.legal.grid
  omega

/-- Both intersections are not empty at once. -/
theorem meeting_other (meeting : Meeting s t) :
    max s.bound1 t.bound1 + (t.gridB1
      - Cubes.gridOffset (max s.bound1 t.bound1) t.bound1 t.step t.gridB2) <
      min s.bound2 t.bound2 := by
  have inside := meeting_inside meeting
  have grid := meeting.legal.grid
  have some := meeting.other.some
  have lower : max s.bound1 t.bound1 = t.bound1 := by omega
  rw [lower, offset_self meeting.other]
  omega

/-- The grid of the second part is not split: a run that reached over the end of the other
stride would have an element in it. -/
theorem meeting_compatible (meeting : Meeting s t) : Compatible s t.bound2 := by
  have positive := step_positive meeting.legal
  obtain ⟨before, behind, _⟩ := meeting_inside meeting
  have grid := meeting.legal.grid
  have wide := meeting.legal.wide
  have fits := meeting.legal.fits
  have some := meeting.other.some
  have grid' := meeting.other.grid
  have place := Int.emod_nonneg (t.bound2 - s.bound1) positive.ne'
  have place_lt := Int.emod_lt_of_pos (t.bound2 - s.bound1) positive
  rw [Compatible, Cubes.grid_offset_eq s.gridB2 (by omega)]
  split
  · omega
  · by_contra late
    have last : (t.bound2 - 1 - s.bound1) % s.step = (t.bound2 - s.bound1) % s.step - 1 := by
      have split : t.bound2 - 1 - s.bound1 = t.bound2 - s.bound1 - 1 := by omega
      have one : (t.bound2 - s.bound1 - 1) % s.step = ((t.bound2 - s.bound1) % s.step - 1) % s.step := by
        rw [Int.emod_sub_emod]
      rw [split, one]
      exact Int.emod_eq_of_lt (by omega) (by omega)
    have element : Indexes s (t.bound2 - 1) := by
      refine ⟨by omega, by omega, ?_, ?_⟩ <;> rw [last] <;> omega
    have := meeting_divides meeting element
    omega

/-- The two parts, before and behind the outline of the other stride. -/
theorem meeting_halves (meeting : Meeting s t) :
    ∃ a b, normalizeStride1 { s with bound2 := t.bound1 } = some a ∧
      normalizeStride1 (cut s t.bound2 s.bound2) = some b ∧ Normal a ∧ Normal b ∧
      (∀ i, Indexes a i ↔ Indexes s i ∧ i < t.bound1) ∧
      (∀ i, Indexes b i ↔ Indexes s i ∧ t.bound2 ≤ i) := by
  have legal := meeting.legal
  have whole := meeting_compatible meeting
  obtain ⟨before, behind, i, element, later⟩ := meeting_inside meeting
  have grid := legal.grid
  have some := meeting.other.some
  have grid' := meeting.other.grid
  have start : { s with bound2 := t.bound1 } = cut s s.bound1 t.bound1 := by
    simp [cut, offset_self legal]
  have first_legal : Legal (cut s s.bound1 t.bound1) :=
    cut_legal legal (Int.le_refl _) (compatible_self legal) (by rw [offset_self legal]; omega)
  have reached := first_le_index legal (by omega) whole element later
  have upper := element.2.1
  have second_legal : Legal (cut s t.bound2 s.bound2) :=
    cut_legal legal (by omega) whole (by omega)
  obtain ⟨a, a_done, a_normal, a_same⟩ := normalize_spec first_legal
  obtain ⟨b, b_done, b_normal, b_same⟩ := normalize_spec second_legal
  refine ⟨a, b, start ▸ a_done, b_done, a_normal, b_normal, fun i => ?_, fun i => ?_⟩
  · rw [a_same, cut_indexes legal (Int.le_refl _) (compatible_self legal) (by omega)]
    exact ⟨fun both => ⟨both.1, both.2.2⟩, fun both => ⟨both.1, both.1.1, both.2⟩⟩
  · rw [b_same, cut_indexes legal (by omega) whole (Int.le_refl _)]
    exact ⟨fun both => ⟨both.1, both.2.1⟩, fun both => ⟨both.1, both.2, both.1.2.1⟩⟩

end OneDimension

section Model

variable {Part Code : Type}

/-- N_wlstride with its only N_wlgrid, in one dimension. -/
structure Dim (Part : Type) where
  part : Part
  attrs : Stride1
  deriving DecidableEq

/-- A constant stride: its dimensions along WLGRID_NEXTDIM, and the code of the last grid. -/
structure WlStride (Part Code : Type) where
  dims : List (Dim Part)
  code : Code

/-- The result of TestAndDivideStrides, with the divided strides. -/
inductive Divided (α : Type) where
  | none
  | stride1 (stridea strideb : α)
  | stride2 (stridea strideb : α)

namespace Divided

variable {α β : Type}

/-- The strides behind another dimension, which is that of the divided stride. -/
def within (dim1 dim2 : Dim Part) : Divided (List (Dim Part)) → Divided (List (Dim Part))
  | none => none
  | stride1 a b => stride1 (dim1 :: a) (dim1 :: b)
  | stride2 a b => stride2 (dim2 :: a) (dim2 :: b)

/-- The copies have the code of the stride that they were made of. -/
def withCode (code1 code2 : Code) : Divided (List (Dim Part)) → Divided (WlStride Part Code)
  | none => none
  | stride1 a b => stride1 ⟨a, code1⟩ ⟨b, code1⟩
  | stride2 a b => stride2 ⟨a, code2⟩ ⟨b, code2⟩

end Divided

/-- The division of the first stride, at the bounds of the second one. -/
def divide (s t : Stride1) : Option (Stride1 × Stride1) := do
  let offset := Cubes.gridOffset t.bound2 s.bound1 s.step s.gridB2
  if offset ≤ s.gridB1 then
    let a ← normalizeStride1 { s with bound2 := t.bound1 }
    let b ← normalizeStride1
      { s with bound1 := t.bound2, gridB1 := s.gridB1 - offset, gridB2 := s.gridB2 - offset }
    some (a, b)
  else none

/-- The loop of TestAndDivideStrides; none if an assertion fails. -/
def testAndDivideDims [DecidableEq Part] : List (Dim Part) → List (Dim Part) →
    Option (Divided (List (Dim Part)))
  | [], _ => some .none
  | _ :: _, [] => none
  | dim1 :: inner1, dim2 :: inner2 => do
      let s := dim1.attrs
      let t := dim2.attrs
      let head1 ← indexHeadStride s
      let rear1 ← indexRearStride s
      let head2 ← indexHeadStride t
      let rear2 ← indexRearStride t
      let iBound1 := max s.bound1 t.bound1
      let iBound2 := min s.bound2 t.bound2
      let iOffset1 := Cubes.gridOffset iBound1 s.bound1 s.step s.gridB2
      let iOffset2 := Cubes.gridOffset iBound1 t.bound1 t.step t.gridB2
      if head1 < rear2 ∧ head2 < rear1 ∧ dim1.part ≠ dim2.part ∧
          iOffset1 ≤ s.gridB1 ∧ iOffset2 ≤ t.gridB1 then
        if iBound1 + s.gridB1 - iOffset1 ≥ iBound2 then
          if iBound1 + t.gridB1 - iOffset2 < iBound2 then
            let (a, b) ← divide s t
            some (.stride1 ({ dim1 with attrs := a } :: inner1) ({ dim1 with attrs := b } :: inner1))
          else none
        else if iBound1 + t.gridB1 - iOffset2 ≥ iBound2 then
          let (a, b) ← divide t s
          -- the copy of the first stride is normalised as well
          let _ ← normalizeStride1 s
          some (.stride2 ({ dim2 with attrs := a } :: inner2) ({ dim2 with attrs := b } :: inner2))
        else (testAndDivideDims inner1 inner2).map (Divided.within dim1 dim2)
      else some .none

/-- TestAndDivideStrides. -/
def testAndDivideStrides [DecidableEq Part] (stride1 stride2 : WlStride Part Code) :
    Option (Divided (WlStride Part Code)) :=
  (testAndDivideDims stride1.dims stride2.dims).map (Divided.withCode stride1.code stride2.code)

end Model

section Division

variable {Part Code : Type}

/-- The index vectors of the dimensions. -/
def InDims (dims : List (Dim Part)) (iv : List Int) : Prop :=
  List.Forall₂ (fun dim i => Indexes dim.attrs i) dims iv

/-- A normalised stride of `n` dimensions. -/
structure NormalStride (Part Code : Type) (n : Nat) where
  stride : WlStride Part Code
  rank : stride.dims.length = n
  normal : ∀ dim ∈ stride.dims, Normal dim.attrs

/-- The dimensions are divided into two strides that are normalised and not empty. -/
structure DividesDims (whole a b : List (Dim Part)) : Prop where
  ranks : a.length = whole.length ∧ b.length = whole.length
  normal : ∀ dim ∈ a ++ b, Normal dim.attrs
  some : (∃ iv, InDims a iv) ∧ ∃ iv, InDims b iv
  disjoint : ∀ iv, InDims a iv → ¬ InDims b iv
  union : ∀ iv, InDims whole iv ↔ InDims a iv ∨ InDims b iv

/-- The stride is divided, and both parts have its code. -/
structure Divides (whole a b : WlStride Part Code) : Prop where
  dims : DividesDims whole.dims a.dims b.dims
  code : a.code = whole.code ∧ b.code = whole.code

variable {dim : Dim Part} {inner : List (Dim Part)}

theorem in_cons (iv : List Int) :
    InDims (dim :: inner) iv ↔
      ∃ i rest, iv = i :: rest ∧ Indexes dim.attrs i ∧ InDims inner rest := by
  cases iv with
  | nil =>
      constructor
      · intro inside
        cases inside
      · rintro ⟨_, _, same, _⟩
        cases same
  | cons i rest => simp [InDims]

theorem dims_some {dims : List (Dim Part)} (normal : ∀ dim ∈ dims, Normal dim.attrs) :
    ∃ iv, InDims dims iv := by
  induction dims with
  | nil => exact ⟨[], .nil⟩
  | cons dim inner ih =>
      obtain ⟨iv, inside⟩ := ih fun d member => normal d (List.mem_cons_of_mem _ member)
      exact ⟨_, .cons (index_head (normal dim (by simp)).legal).2 inside⟩

/-- A division in this dimension. -/
theorem divides_here {s t a b : Stride1} (attrs : dim.attrs = s)
    (inner_normal : ∀ d ∈ inner, Normal d.attrs) (a_normal : Normal a) (b_normal : Normal b)
    (a_same : ∀ i, Indexes a i ↔ Indexes s i ∧ i < t.bound1)
    (b_same : ∀ i, Indexes b i ↔ Indexes s i ∧ t.bound2 ≤ i)
    (apart : ∀ i, Indexes s i → i < t.bound1 ∨ t.bound2 ≤ i) (ordered : t.bound1 < t.bound2) :
    DividesDims (dim :: inner) ({ dim with attrs := a } :: inner)
      ({ dim with attrs := b } :: inner) := by
  have a_all : ∀ d ∈ { dim with attrs := a } :: inner, Normal d.attrs :=
    List.forall_mem_cons.mpr ⟨a_normal, inner_normal⟩
  have b_all : ∀ d ∈ { dim with attrs := b } :: inner, Normal d.attrs :=
    List.forall_mem_cons.mpr ⟨b_normal, inner_normal⟩
  refine ⟨by simp, fun d member => (List.mem_append.mp member).elim (a_all d) (b_all d),
    ⟨dims_some a_all, dims_some b_all⟩, fun iv => ?_, fun iv => ?_⟩
  · rw [in_cons, in_cons]
    rintro ⟨i, rest, rfl, in_a, _⟩ ⟨j, rest', same, in_b, _⟩
    cases same
    have before := ((a_same i).mp in_a).2
    have behind := ((b_same i).mp in_b).2
    omega
  · rw [in_cons, in_cons, in_cons]
    constructor
    · rintro ⟨i, rest, rfl, element, inside⟩
      rw [attrs] at element
      rcases apart i element with before | behind
      · exact .inl ⟨i, rest, rfl, (a_same i).mpr ⟨element, before⟩, inside⟩
      · exact .inr ⟨i, rest, rfl, (b_same i).mpr ⟨element, behind⟩, inside⟩
    · rintro (⟨i, rest, rfl, element, inside⟩ | ⟨i, rest, rfl, element, inside⟩)
      · exact ⟨i, rest, rfl, attrs ▸ ((a_same i).mp element).1, inside⟩
      · exact ⟨i, rest, rfl, attrs ▸ ((b_same i).mp element).1, inside⟩

/-- A division in a later dimension. -/
theorem divides_later {a b : List (Dim Part)} (here : Normal dim.attrs)
    (divides : DividesDims inner a b) : DividesDims (dim :: inner) (dim :: a) (dim :: b) := by
  obtain ⟨ranks, normal, ⟨⟨iv, in_a⟩, iv', in_b⟩, disjoint, union⟩ := divides
  have head := (index_head here.legal).2
  refine ⟨by simp [ranks], ?_, ⟨⟨_, .cons head in_a⟩, _, .cons head in_b⟩, fun iv => ?_,
    fun iv => ?_⟩
  · intro d member
    simp only [List.mem_append, List.mem_cons] at member
    rcases member with (rfl | member) | rfl | member
    · exact here
    · exact normal d (List.mem_append_left _ member)
    · exact here
    · exact normal d (List.mem_append_right _ member)
  · rw [in_cons, in_cons]
    rintro ⟨i, rest, rfl, _, in_a⟩ ⟨j, rest', same, _, in_b⟩
    cases same
    exact disjoint rest in_a in_b
  · rw [in_cons, in_cons, in_cons]
    constructor
    · rintro ⟨i, rest, rfl, element, inside⟩
      rcases (union rest).mp inside with in_a | in_b
      · exact .inl ⟨i, rest, rfl, element, in_a⟩
      · exact .inr ⟨i, rest, rfl, element, in_b⟩
    · rintro (⟨i, rest, rfl, element, inside⟩ | ⟨i, rest, rfl, element, inside⟩)
      · exact ⟨i, rest, rfl, element, (union rest).mpr (.inl inside)⟩
      · exact ⟨i, rest, rfl, element, (union rest).mpr (.inr inside)⟩

/-- The division of the stride that the result tells. -/
def Sound {α : Type} (divides : α → α → α → Prop) (stride1 stride2 : α) : Divided α → Prop
  | .none => True
  | .stride1 a b => divides stride1 a b
  | .stride2 a b => divides stride2 a b

theorem meeting_divide {s t : Stride1} (meeting : Meeting s t) :
    ∃ a b, divide s t = some (a, b) ∧ Normal a ∧ Normal b ∧
      (∀ i, Indexes a i ↔ Indexes s i ∧ i < t.bound1) ∧
      (∀ i, Indexes b i ↔ Indexes s i ∧ t.bound2 ≤ i) := by
  obtain ⟨a, b, a_done, b_done, rest⟩ := meeting_halves meeting
  refine ⟨a, b, ?_, rest⟩
  have whole := meeting_compatible meeting
  rw [Compatible] at whole
  simp only [cut] at b_done
  simp [divide, whole, a_done, b_done]

/-- Induction over the dimensions: those before the division are the same in all copies. -/
theorem dims_divided [DecidableEq Part] (dims1 dims2 : List (Dim Part)) (ranks : dims1.length = dims2.length)
    (normal1 : ∀ dim ∈ dims1, Normal dim.attrs) (normal2 : ∀ dim ∈ dims2, Normal dim.attrs) :
    ∃ result, testAndDivideDims dims1 dims2 = some result ∧
      Sound DividesDims dims1 dims2 result := by
  induction dims1 generalizing dims2 with
  | nil => exact ⟨.none, rfl, trivial⟩
  | cons dim1 inner1 ih =>
      cases dims2 with
      | nil => simp at ranks
      | cons dim2 inner2 =>
          have here1 := normal1 dim1 (by simp)
          have here2 := normal2 dim2 (by simp)
          have later1 : ∀ dim ∈ inner1, Normal dim.attrs :=
            fun dim member => normal1 dim (List.mem_cons_of_mem _ member)
          have later2 : ∀ dim ∈ inner2, Normal dim.attrs :=
            fun dim member => normal2 dim (List.mem_cons_of_mem _ member)
          obtain ⟨rear1, rear1_found, last1⟩ := index_rear here1.legal
          obtain ⟨rear2, rear2_found, last2⟩ := index_rear here2.legal
          simp only [testAndDivideDims, (index_head here1.legal).1, (index_head here2.legal).1,
            rear1_found, rear2_found, Option.bind_eq_bind, Option.bind_some]
          split
          · rename_i tests
            obtain ⟨met1, met2, _, whole1, whole2⟩ := tests
            split
            · rename_i empty
              have meeting : Meeting dim1.attrs dim2.attrs :=
                ⟨here1.legal, here2.legal, ⟨_, last2, by omega⟩, ⟨_, last1, by omega⟩, whole1,
                  by omega⟩
              have other := meeting_other meeting
              have grid := here2.legal.grid
              have some := here2.legal.some
              obtain ⟨a, b, done, a_normal, b_normal, a_same, b_same⟩ := meeting_divide meeting
              rw [if_pos (by omega), done]
              exact ⟨_, rfl, divides_here rfl later1 a_normal b_normal a_same b_same
                (fun _ => meeting_divides meeting) (by omega)⟩
            · split
              · rename_i empty
                have meeting : Meeting dim2.attrs dim1.attrs := by
                  refine ⟨here2.legal, here1.legal, ⟨_, last1, by omega⟩, ⟨_, last2, by omega⟩,
                    ?_, ?_⟩
                  · rw [Compatible, Int.max_comm]
                    exact whole2
                  · rw [Int.max_comm, Int.min_comm]
                    omega
                have grid := here1.legal.grid
                have some := here1.legal.some
                obtain ⟨a, b, done, a_normal, b_normal, a_same, b_same⟩ := meeting_divide meeting
                rw [done, normalize_normal here1]
                exact ⟨_, rfl, divides_here rfl later2 a_normal b_normal a_same b_same
                  (fun _ => meeting_divides meeting) (by omega)⟩
              · obtain ⟨result, done, sound⟩ := ih inner2 (by simpa using ranks) later1 later2
                refine ⟨Divided.within dim1 dim2 result, by rw [done]; rfl, ?_⟩
                cases result with
                | none => trivial
                | stride1 a b => exact divides_later here1 sound
                | stride2 a b => exact divides_later here2 sound
          · exact ⟨.none, rfl, trivial⟩

end Division

end Sac2c.StrideDivision
