import Sac2c.StrideDivision
import Mathlib.Data.List.Forall2

/-!
IntersectStrideWithOutline, IsSubsetStride and the first step of
EleminateDuplicatesAndAdjustBounds, all of wltransform/wltransform.c. Strides that are
derived from one part by intersections are subsets of each other exactly if their outlines
are. IsSubsetStride starts anew in each dimension, so that only the last one counts.
-/

namespace Sac2c.SubsetStrides

open RunSets StrideNormalisation StrideDivision

section Model

variable {Part Code : Type} [DecidableEq Part]

/-- The loop of IntersectStrideWithOutline. It is none if an assertion fails, and otherwise
the two intersections, or none of them if they are empty. -/
def intersectDims : List (Dim Part) → List (Dim Part) →
    Option (Option (List (Dim Part) × List (Dim Part)))
  | [], _ => some (some ([], []))
  | _ :: _, [] => none
  | dim1 :: inner1, dim2 :: inner2 => do
      let s := dim1.attrs
      let t := dim2.attrs
      let head1 ← indexHeadStride s
      let rear1 ← indexRearStride s
      let head2 ← indexHeadStride t
      let rear2 ← indexRearStride t
      let iBound1 := max s.bound1 t.bound1
      let iBound2 := min s.bound2 t.bound2
      let iOffset1 := Cubes.gridOffset iBound1 s.bound1 s.step s.gridB2
      let iOffset2 := Cubes.gridOffset iBound1 t.bound1 t.step t.gridB2
      if head1 < rear2 ∧ head2 < rear1 ∧ dim1.part ≠ dim2.part ∧
          iOffset1 ≤ s.gridB1 ∧ iOffset2 ≤ t.gridB1 then
        if iBound1 + s.gridB1 - iOffset1 ≥ iBound2 ∨ iBound1 + t.gridB1 - iOffset2 ≥ iBound2 then
          none
        else do
          let a ← normalizeStride1
            { s with
              bound1 := iBound1, bound2 := iBound2
              gridB1 := s.gridB1 - iOffset1, gridB2 := s.gridB2 - iOffset1 }
          let b ← normalizeStride1
            { t with
              bound1 := iBound1, bound2 := iBound2
              gridB1 := t.gridB1 - iOffset2, gridB2 := t.gridB2 - iOffset2 }
          let later ← intersectDims inner1 inner2
          some (later.map fun (as, bs) =>
            ({ dim1 with attrs := a } :: as, { dim2 with attrs := b } :: bs))
      else some none

/-- The loop of IsSubsetStride, with the value of res before the dimension. -/
def isSubsetDims : List (Dim Part) → List (Dim Part) → Int → Option Int
  | [], _, res => some res
  | _ :: _, [], _ => none
  | dim1 :: inner1, dim2 :: inner2, _ =>
      let s := dim1.attrs
      let t := dim2.attrs
      if t.bound1 ≥ s.bound1 ∧ t.bound2 ≤ s.bound2 then
        isSubsetDims inner1 inner2 (if t.bound1 > s.bound1 ∨ t.bound2 < s.bound2 then 1 else -1)
      else if s.bound1 ≥ t.bound1 ∧ s.bound2 ≤ t.bound2 then
        isSubsetDims inner1 inner2 (if s.bound1 > t.bound1 ∨ s.bound2 < t.bound2 then 2 else -1)
      else some 0

/-- WLSTRIDE_PART of the first dimension. -/
def partOf (stride : WlStride Part Code) : Option Part := stride.dims.head?.map Dim.part

/-- IsSubsetStride. -/
def isSubsetStride (stride1 stride2 : WlStride Part Code) : Option Int := do
  let res ←
    if partOf stride1 = partOf stride2 then isSubsetDims stride1.dims stride2.dims 0 else some 0
  some (if res = -1 then 1 else res)

/-- The first step of EleminateDuplicatesAndAdjustBounds, with stride1, the strides that it was
compared with and those from stride2 on. The result is the chain from stride1 on, and each
removed stride with the one it was removed for. -/
def removeRedundant (stride1 : WlStride Part Code) (passed : List (WlStride Part Code)) :
    List (WlStride Part Code) →
      Option (List (WlStride Part Code) × List (WlStride Part Code × WlStride Part Code))
  | [] =>
      match passed with
      | [] => some ([stride1], [])
      | next :: later => do
          let (chain, removed) ← removeRedundant next [] later
          some (stride1 :: chain, removed)
  | stride2 :: rest => do
      let res ← isSubsetStride stride1 stride2
      if res = 1 then
        -- stride1 is removed, and the next stride takes its place
        match passed with
        | [] => do
            let (chain, removed) ← removeRedundant stride2 [] rest
            some (chain, (stride1, stride2) :: removed)
        | next :: later => do
            let (chain, removed) ← removeRedundant next [] (later ++ stride2 :: rest)
            some (chain, (stride1, stride2) :: removed)
      else if res = 2 then do
        let (chain, removed) ← removeRedundant stride1 passed rest
        some (chain, (stride2, stride1) :: removed)
      else if res = 0 then removeRedundant stride1 (passed ++ [stride2]) rest
      else none
termination_by rest => (passed.length + rest.length, rest.length)
decreasing_by
  all_goals
    simp_all
    omega

/-- The whole chain. -/
def eliminateDuplicates : List (WlStride Part Code) →
    Option (List (WlStride Part Code) × List (WlStride Part Code × WlStride Part Code))
  | [] => some ([], [])
  | stride1 :: rest => removeRedundant stride1 [] rest

end Model

section Pieces

/-- A normalised stride that has elements of the whole stride only, and if it has gaps, then
the runs of the whole stride. -/
structure Piece (whole s : Stride1) : Prop where
  normal : Normal s
  inside : ∀ i, Indexes s i → Indexes whole i
  pattern : s.step = 1 ∨ s.step = whole.step ∧ s.gridB2 - s.gridB1 = whole.gridB2 - whole.gridB1 ∧
    (s.bound1 + s.gridB1) % s.step = (whole.bound1 + whole.gridB1) % s.step

variable {whole s t : Stride1}

theorem piece_self (normal : Normal s) : Piece s s :=
  ⟨normal, fun _ element => element, .inr ⟨rfl, rfl, rfl⟩⟩

/-- A stride with step 1 is an interval. -/
theorem indexes_dense (legal : Legal s) (dense : s.step = 1) (i : Int) :
    Indexes s i ↔ s.bound1 ≤ i ∧ i < s.bound2 := by
  obtain ⟨_, _, grid, wide, fits⟩ := legal
  simp only [Indexes, dense, Int.emod_one]
  omega

/-- The places of a run whose first element is a multiple of the step away. -/
theorem emod_shifted {i a b p : Int} (same : a % p = b % p) : (i - a) % p = (i - b) % p := by
  rw [Int.sub_emod, same, ← Int.sub_emod]

/-- A piece is all of the whole stride within its outline. -/
theorem piece_outline (piece : Piece whole s) (whole_legal : Legal whole) {i : Int}
    (element : Indexes whole i) (lower : s.bound1 ≤ i) (upper : i < s.bound2) : Indexes s i := by
  have legal := piece.normal.legal
  rcases piece.pattern with dense | ⟨step, width, phase⟩
  · exact (indexes_dense legal dense i).mpr ⟨lower, upper⟩
  · have place := ((indexes_iff whole_legal i).mp element).2.2
    simp only [runs] at place
    rw [← step, emod_shifted phase.symm, ← width] at place
    rw [indexes_iff legal]
    obtain ⟨_, _, grid, wide, fits⟩ := legal
    refine ⟨?_, upper, place⟩
    by_contra before
    simp only [runs] at before
    have gap : (i - (s.bound1 + s.gridB1)) % s.step = i - (s.bound1 + s.gridB1) + s.step := by
      rw [← Int.add_emod_right]
      exact Int.emod_eq_of_lt (by omega) (by omega)
    omega

/-- There is a place between two runs. -/
theorem piece_gap (piece : Piece whole s) (whole_legal : Legal whole) (gaps : s.step ≠ 1) :
    ¬ Indexes whole (s.bound1 + s.gridB1 + (s.gridB2 - s.gridB1)) ∧
      s.bound1 + s.gridB1 + s.step < s.bound2 ∧ s.gridB2 - s.gridB1 < s.step := by
  obtain ⟨step, width, phase⟩ := piece.pattern.resolve_left gaps
  have wide := piece.normal.legal.wide
  have shape : s.gridB2 - s.gridB1 < s.step ∧ s.bound1 + s.gridB1 + s.step < s.bound2 := by
    rcases piece.normal.reduced.shape with ⟨_, dense, _⟩ | ⟨_, gap, more⟩
    · exact absurd dense gaps
    · exact ⟨gap, more⟩
  refine ⟨fun element => ?_, shape.2, shape.1⟩
  have place := ((indexes_iff whole_legal _).mp element).2.2
  simp only [runs] at place
  have behind : s.bound1 + s.gridB1 + (s.gridB2 - s.gridB1) - (s.bound1 + s.gridB1) =
      s.gridB2 - s.gridB1 := by omega
  rw [← step, emod_shifted phase.symm, behind, Int.emod_eq_of_lt (by omega) shape.1] at place
  omega

/-- Of two pieces with gaps the one with fewer elements has the smaller outline. -/
theorem piece_bounds (piece : Piece whole s) (piece' : Piece whole t) (whole_legal : Legal whole)
    (subset : ∀ i, Indexes t i → Indexes s i) : s.bound1 ≤ t.bound1 ∧ t.bound2 ≤ s.bound2 := by
  have legal := piece.normal.legal
  have legal' := piece'.normal.legal
  have first := subset _ (index_head legal').2
  by_cases dense : t.step = 1
  · -- the bounds themselves are the first and the last place
    have elements := indexes_dense legal' dense
    have some := legal'.some
    have grid := legal'.grid
    have lower := subset t.bound1 ((elements _).mpr ⟨Int.le_refl _, by omega⟩)
    have upper := subset (t.bound2 - 1) ((elements _).mpr ⟨by omega, by omega⟩)
    have := lower.1
    have := upper.2.1
    omega
  · obtain ⟨step', width', phase'⟩ := piece'.pattern.resolve_left dense
    obtain ⟨gap, more, narrow⟩ := piece_gap piece' whole_legal dense
    have wide' := legal'.wide
    have second := subset _ ((indexes_iff legal' _).mpr
      (has_second (runs_proper legal') (by simpa [runs] using more)))
    simp only [runs] at second
    have gaps : s.step ≠ 1 := by
      intro interval
      have elements := indexes_dense legal interval
      have left := (elements _).mp first
      have right := (elements _).mp second
      exact gap (piece.inside _ ((elements _).mpr ⟨by omega, by omega⟩))
    obtain ⟨step, width, phase⟩ := piece.pattern.resolve_left gaps
    have firsts := ((indexes_iff legal _).mp first).1
    simp only [runs] at firsts
    have least := piece.normal.least
    have least' := piece'.normal.least
    refine ⟨by omega, ?_⟩
    by_contra later
    have ends := piece.normal.reduced.ends
    simp only [runs] at ends
    have same_step : s.step = t.step := step.trans step'.symm
    have upper := second.2.1
    have element : Indexes t s.bound2 := by
      rw [indexes_iff legal']
      refine ⟨by simp only [runs]; omega, by simp only [runs]; omega, ?_⟩
      simp only [runs]
      rw [emod_shifted (phase'.trans (same_step ▸ phase.symm)), ← same_step]
      omega
    have := (subset _ element).2.1
    omega

theorem piece_subset_iff (piece : Piece whole s) (piece' : Piece whole t)
    (whole_legal : Legal whole) :
    (∀ i, Indexes t i → Indexes s i) ↔ s.bound1 ≤ t.bound1 ∧ t.bound2 ≤ s.bound2 := by
  constructor
  · exact piece_bounds piece piece' whole_legal
  · rintro ⟨lower, upper⟩ i element
    have := element.1
    have := element.2.1
    exact piece_outline piece whole_legal (piece'.inside i element) (by omega) (by omega)

/-- The grid of a cut has the same places. -/
theorem offset_phase {x : Int} (forward : s.bound1 ≤ x) :
    (x + (s.gridB1 - Cubes.gridOffset x s.bound1 s.step s.gridB2)) % s.step =
      (s.bound1 + s.gridB1) % s.step := by
  have division := Int.emod_add_mul_ediv (x - s.bound1) s.step
  rw [Cubes.grid_offset_eq s.gridB2 forward]
  split
  · have moved : x + (s.gridB1 - ((x - s.bound1) % s.step - s.step)) =
        s.bound1 + s.gridB1 + s.step * ((x - s.bound1) / s.step + 1) := by
      rw [Int.mul_add]
      omega
    rw [moved, Int.add_mul_emod_self_left]
  · have moved : x + (s.gridB1 - (x - s.bound1) % s.step) =
        s.bound1 + s.gridB1 + s.step * ((x - s.bound1) / s.step) := by omega
    rw [moved, Int.add_mul_emod_self_left]

/-- An intersection with an outline, normalised, is a piece again. -/
theorem piece_cut {x y : Int} {a : Stride1} (piece : Piece whole s) (forward : s.bound1 ≤ x)
    (compatible : Compatible s x) (inside : y ≤ s.bound2)
    (more : x + (s.gridB1 - Cubes.gridOffset x s.bound1 s.step s.gridB2) < y)
    (done : normalizeStride1 (cut s x y) = some a) : Piece whole a := by
  have legal := piece.normal.legal
  have cut_is_legal := cut_legal legal forward compatible more
  obtain ⟨t, found, normal, same⟩ := normalize_spec cut_is_legal
  cases found.symm.trans done
  refine ⟨normal, fun i element => ?_, ?_⟩
  · have both := (cut_indexes legal forward compatible inside i).mp ((same i).mp element)
    exact piece.inside i both.1
  · rcases normalize_pattern cut_is_legal done with dense | ⟨step, width, first⟩
    · exact .inl dense
    · simp only [cut] at step width first
      rcases piece.pattern with dense | ⟨step', width', phase⟩
      · exact .inl (step.trans dense)
      · refine .inr ⟨step.trans step', by omega, ?_⟩
        rw [first, step, ← phase, ← offset_phase forward]

end Pieces

section Derivations

variable {Part : Type}

/-- In each dimension there is a piece of the whole stride. -/
def PieceDims (whole dims : List (Dim Part)) : Prop :=
  List.Forall₂ (fun w dim => dim.part = w.part ∧ Piece w.attrs dim.attrs) whole dims

theorem piece_dims_self {dims : List (Dim Part)} (normal : ∀ dim ∈ dims, Normal dim.attrs) :
    PieceDims dims dims := by
  induction dims with
  | nil => exact .nil
  | cons dim inner ih =>
      exact .cons ⟨rfl, piece_self (normal dim (by simp))⟩
        (ih fun d member => normal d (List.mem_cons_of_mem _ member))

theorem piece_dims_normal {whole dims : List (Dim Part)} (pieces : PieceDims whole dims) :
    ∀ dim ∈ dims, Normal dim.attrs := by
  induction pieces with
  | nil => simp
  | cons here _ ih => exact List.forall_mem_cons.mpr ⟨here.2.normal, ih⟩

theorem piece_dims_part {part : Part} {whole dims : List (Dim Part)}
    (own : ∀ dim ∈ whole, dim.part = part) (pieces : PieceDims whole dims) :
    ∀ dim ∈ dims, dim.part = part := by
  induction pieces with
  | nil => simp
  | cons here _ ih =>
      rw [List.forall_mem_cons] at own ⊢
      exact ⟨here.1.trans own.1, ih own.2⟩

/-- Induction over the dimensions of both strides. -/
theorem intersect_pieces [DecidableEq Part] {whole1 dims1 whole2 dims2 a b : List (Dim Part)}
    (pieces1 : PieceDims whole1 dims1) (pieces2 : PieceDims whole2 dims2)
    (ranks : dims1.length = dims2.length) (done : intersectDims dims1 dims2 = some (some (a, b))) :
    PieceDims whole1 a ∧ PieceDims whole2 b := by
  induction pieces1 generalizing whole2 dims2 a b with
  | nil =>
      cases pieces2 with
      | nil =>
          cases done
          exact ⟨.nil, .nil⟩
      | cons _ _ => simp at ranks
  | @cons w1 dim1 whole1 inner1 here1 later1 ih =>
      cases pieces2 with
      | nil => simp at ranks
      | @cons w2 dim2 whole2 inner2 here2 later2 =>
          obtain ⟨part1, piece1⟩ := here1
          obtain ⟨part2, piece2⟩ := here2
          obtain ⟨rear1, rear1_found, _⟩ := index_rear piece1.normal.legal
          obtain ⟨rear2, rear2_found, _⟩ := index_rear piece2.normal.legal
          simp only [intersectDims, (index_head piece1.normal.legal).1,
            (index_head piece2.normal.legal).1, rear1_found, rear2_found, Option.bind_eq_bind,
            Option.bind_some] at done
          split at done
          · rename_i tests
            split at done
            · cases done
            · rename_i filled
              obtain ⟨a1, a1_done, done⟩ := Option.bind_eq_some_iff.mp done
              obtain ⟨b1, b1_done, done⟩ := Option.bind_eq_some_iff.mp done
              obtain ⟨later, later_done, done⟩ := Option.bind_eq_some_iff.mp done
              simp only [Option.some.injEq, Option.map_eq_some_iff] at done
              obtain ⟨⟨as, bs⟩, rfl, same⟩ := done
              cases same
              obtain ⟨as_pieces, bs_pieces⟩ := ih later2 (by simpa using ranks) later_done
              refine ⟨.cons ⟨part1, piece_cut piece1 ?_ tests.2.2.2.1 ?_ ?_ a1_done⟩ as_pieces,
                .cons ⟨part2, piece_cut piece2 ?_ tests.2.2.2.2 ?_ ?_ b1_done⟩ bs_pieces⟩
              all_goals omega
          · cases done

/-- What comes of the stride of a part by intersections with the outlines of normalised
strides. -/
inductive Derived [DecidableEq Part] (whole : List (Dim Part)) : List (Dim Part) → Prop
  | whole : Derived whole whole
  | first {dims other a b : List (Dim Part)} (derived : Derived whole dims)
      (normal : ∀ dim ∈ other, Normal dim.attrs) (ranks : dims.length = other.length)
      (done : intersectDims dims other = some (some (a, b))) : Derived whole a
  | second {dims other a b : List (Dim Part)} (derived : Derived whole dims)
      (normal : ∀ dim ∈ other, Normal dim.attrs) (ranks : other.length = dims.length)
      (done : intersectDims other dims = some (some (a, b))) : Derived whole b

theorem derived_pieces [DecidableEq Part] {whole dims : List (Dim Part)}
    (normal : ∀ dim ∈ whole, Normal dim.attrs) (derived : Derived whole dims) :
    PieceDims whole dims := by
  induction derived with
  | whole => exact piece_dims_self normal
  | first _ other_normal ranks done ih =>
      exact (intersect_pieces ih (piece_dims_self other_normal) ranks done).1
  | second _ other_normal ranks done ih =>
      exact (intersect_pieces (piece_dims_self other_normal) ih ranks done).2

end Derivations

section Verdicts

variable {Part : Type}

/-- The outline of the second stride lies within that of the first one. -/
def Inner (dim1 dim2 : Dim Part) : Prop :=
  dim1.attrs.bound1 ≤ dim2.attrs.bound1 ∧ dim2.attrs.bound2 ≤ dim1.attrs.bound2

instance (dim1 dim2 : Dim Part) : Decidable (Inner dim1 dim2) :=
  inferInstanceAs (Decidable (_ ∧ _))

/-- In each dimension the outline of the second stride lies within that of the first one. -/
def Nested (dims1 dims2 : List (Dim Part)) : Prop := List.Forall₂ Inner dims1 dims2

theorem in_dims_subset {whole dims1 dims2 : List (Dim Part)}
    (legal : ∀ dim ∈ whole, Legal dim.attrs) (pieces1 : PieceDims whole dims1)
    (pieces2 : PieceDims whole dims2) :
    (∀ iv, InDims dims2 iv → InDims dims1 iv) ↔ Nested dims1 dims2 := by
  induction pieces1 generalizing dims2 with
  | nil =>
      cases pieces2
      exact ⟨fun _ => .nil, fun _ _ inside => inside⟩
  | @cons w dim1 whole inner1 here1 later1 ih =>
      cases pieces2 with
      | @cons _ dim2 _ inner2 here2 later2 =>
          have tail := ih (fun d member => legal d (List.mem_cons_of_mem _ member)) later2
          have head := piece_subset_iff here1.2 here2.2 (legal w (by simp))
          rw [Nested, List.forall₂_cons, ← Nested, ← tail]
          constructor
          · intro subset
            have first := (index_head here2.2.normal.legal).2
            obtain ⟨iv, inside⟩ := dims_some (piece_dims_normal later2)
            refine ⟨head.mp fun i element => ?_, fun rest inside' => ?_⟩
            · have both := subset (i :: iv) (.cons element inside)
              cases both with
              | cons here _ => exact here
            · have both := subset (_ :: rest) (.cons first inside')
              cases both with
              | cons _ later => exact later
          · rintro ⟨here, later⟩ iv inside
            cases inside with
            | cons element rest => exact .cons (head.mpr here _ element) (later _ rest)

/-- In the last dimension the outline of the second stride lies within that of the first. -/
def LastInner (dims1 dims2 : List (Dim Part)) : Prop :=
  ∀ dim1 ∈ dims1.getLast?, ∀ dim2 ∈ dims2.getLast?, Inner dim1 dim2

/-- In each dimension one of the outlines lies within the other one. -/
def Comparable (dims1 dims2 : List (Dim Part)) : Prop :=
  List.Forall₂ (fun dim1 dim2 => Inner dim1 dim2 ∨ Inner dim2 dim1) dims1 dims2

/-- The value of res that is returned. -/
def returned (res : Int) : Int := if res = -1 then 1 else res

/-- One dimension of the loop. -/
theorem is_subset_step (dim1 dim2 : Dim Part) (inner1 inner2 : List (Dim Part)) (res : Int) :
    isSubsetDims (dim1 :: inner1) (dim2 :: inner2) res =
      if Inner dim1 dim2 then
        isSubsetDims inner1 inner2 (if dim2.attrs.bound1 > dim1.attrs.bound1 ∨
          dim2.attrs.bound2 < dim1.attrs.bound2 then 1 else -1)
      else if Inner dim2 dim1 then
        isSubsetDims inner1 inner2 (if dim1.attrs.bound1 > dim2.attrs.bound1 ∨
          dim1.attrs.bound2 < dim2.attrs.bound2 then 2 else -1)
      else some 0 := rfl

theorem is_subset_cons (dim1 dim2 : Dim Part) (inner1 inner2 : List (Dim Part)) (res : Int) :
    ∃ next, isSubsetDims (dim1 :: inner1) (dim2 :: inner2) res =
        (if Inner dim1 dim2 ∨ Inner dim2 dim1 then isSubsetDims inner1 inner2 next else some 0) ∧
      returned next = if Inner dim1 dim2 then 1 else 2 := by
  rw [is_subset_step]
  by_cases inner : Inner dim1 dim2
  · simp only [inner, true_or, if_true]
    refine ⟨_, rfl, ?_⟩
    split <;> rfl
  · by_cases outer : Inner dim2 dim1
    · have strict : dim1.attrs.bound1 > dim2.attrs.bound1 ∨
          dim1.attrs.bound2 < dim2.attrs.bound2 := by
        simp only [Inner] at inner outer
        omega
      simp only [inner, outer, false_or, if_false, if_true]
      refine ⟨_, rfl, ?_⟩
      rw [if_pos strict]
      rfl
    · simp only [inner, outer, false_or, if_false]
      exact ⟨2, trivial, rfl⟩

theorem is_subset_apart {dims1 dims2 : List (Dim Part)} (ranks : dims1.length = dims2.length)
    (apart : ¬ Comparable dims1 dims2) (res : Int) : isSubsetDims dims1 dims2 res = some 0 := by
  induction dims1 generalizing dims2 res with
  | nil =>
      cases List.length_eq_zero_iff.mp ranks.symm
      exact absurd .nil apart
  | cons dim1 inner1 ih =>
      cases dims2 with
      | nil => simp at ranks
      | cons dim2 inner2 =>
          obtain ⟨next, step, _⟩ := is_subset_cons dim1 dim2 inner1 inner2 res
          rw [step]
          split
          · rename_i here
            exact ih (by simpa using ranks) (fun later => apart (.cons here later)) next
          · rfl

/-- Only the last dimension counts. -/
theorem is_subset_comparable {dims1 dims2 : List (Dim Part)} (comparable : Comparable dims1 dims2)
    (res : Int) : ∃ last, isSubsetDims dims1 dims2 res = some last ∧
      (dims1 = [] ∧ last = res ∨ dims1 ≠ [] ∧
        (LastInner dims1 dims2 ∧ returned last = 1 ∨
          ¬ LastInner dims1 dims2 ∧ returned last = 2)) := by
  induction comparable generalizing res with
  | nil => exact ⟨res, rfl, .inl ⟨rfl, rfl⟩⟩
  | @cons dim1 dim2 inner1 inner2 here later ih =>
      obtain ⟨next, step, value⟩ := is_subset_cons dim1 dim2 inner1 inner2 res
      obtain ⟨last, done, which⟩ := ih next
      refine ⟨last, by rw [step, if_pos here, done], .inr ⟨by simp, ?_⟩⟩
      cases later with
      | nil =>
          obtain ⟨_, rfl⟩ := which.resolve_right fun both => both.1 rfl
          have alone : LastInner [dim1] [dim2] ↔ Inner dim1 dim2 := by simp [LastInner]
          rw [alone, value]
          split <;> simp_all
      | cons _ _ =>
          have rest := which.resolve_left fun both => by simp at both
          simpa [LastInner, List.getLast?_cons_cons] using rest.2

/-- The verdicts of the dimensions do not contradict the one of the last dimension. -/
def Consistent (dims1 dims2 : List (Dim Part)) : Prop :=
  ¬ Comparable dims1 dims2 ∨ Nested dims1 dims2 ∨
    Nested dims2 dims1 ∧ ¬ LastInner dims1 dims2

/-- Soundness of the verdict, in both directions. -/
theorem comparable_sound_iff {dims1 dims2 : List (Dim Part)}
    (comparable : Comparable dims1 dims2) :
    (LastInner dims1 dims2 → Nested dims1 dims2) ∧ (¬ LastInner dims1 dims2 → Nested dims2 dims1) ↔
      Consistent dims1 dims2 := by
  have last_inner : ∀ {d1 d2 : List (Dim Part)}, Nested d1 d2 → LastInner d1 d2 := by
    intro d1 d2 nested
    induction nested with
    | nil => simp [LastInner]
    | cons here later ih =>
        cases later with
        | nil => simpa [LastInner] using here
        | cons _ _ => simpa [LastInner, List.getLast?_cons_cons] using ih
  unfold Consistent
  constructor
  · rintro ⟨first, second⟩
    by_cases last : LastInner dims1 dims2
    · exact .inr (.inl (first last))
    · exact .inr (.inr ⟨second last, last⟩)
  · rintro (apart | nested | ⟨nested, last⟩)
    · exact absurd comparable apart
    · exact ⟨fun _ => nested, fun last => absurd (last_inner nested) last⟩
    · exact ⟨fun inner => absurd inner last, fun _ => nested⟩

end Verdicts

section Chains

variable {Part Code : Type} [DecidableEq Part]

/-- All index vectors of the first stride are ones of the second. -/
def Within (stride1 stride2 : WlStride Part Code) : Prop :=
  ∀ iv, InDims stride1.dims iv → InDims stride2.dims iv

/-- IsSubsetStride is 1 only if the second stride is a subset of the first one, and 2 only if
the first one is a subset of the second. -/
def Sound (stride1 stride2 : WlStride Part Code) : Prop :=
  ∃ res, isSubsetStride stride1 stride2 = some res ∧
    (res = 1 → Within stride2 stride1) ∧ (res = 2 → Within stride1 stride2)

/-- Only strides that contain another one of the chain are removed. -/
def RemovesSupersets (chain : List (WlStride Part Code)) : Prop :=
  ∃ kept removed, eliminateDuplicates chain = some (kept, removed) ∧
    (kept ++ removed.map Prod.fst).Perm chain ∧
    ∀ pair ∈ removed, pair.2 ∈ chain ∧ Within pair.2 pair.1

omit [DecidableEq Part] in
theorem is_subset_range {dims1 dims2 : List (Dim Part)} {res last : Int}
    (range : res = -1 ∨ res = 0 ∨ res = 1 ∨ res = 2)
    (done : isSubsetDims dims1 dims2 res = some last) :
    last = -1 ∨ last = 0 ∨ last = 1 ∨ last = 2 := by
  induction dims1 generalizing dims2 res with
  | nil =>
      cases done
      exact range
  | cons dim1 inner1 ih =>
      cases dims2 with
      | nil => cases done
      | cons dim2 inner2 =>
          rw [is_subset_step] at done
          split at done
          · refine ih ?_ done
            split <;> simp
          · split at done
            · refine ih ?_ done
              split <;> simp
            · cases done
              simp

theorem subset_stride_eq {stride1 stride2 : WlStride Part Code}
    (part : partOf stride1 = partOf stride2) :
    isSubsetStride stride1 stride2 = (isSubsetDims stride1.dims stride2.dims 0).map returned := by
  rw [isSubsetStride, if_pos part]
  cases isSubsetDims stride1.dims stride2.dims 0 <;> rfl

theorem subset_stride_other {stride1 stride2 : WlStride Part Code}
    (part : partOf stride1 ≠ partOf stride2) : isSubsetStride stride1 stride2 = some 0 := by
  rw [isSubsetStride, if_neg part]
  rfl

theorem subset_stride_range {stride1 stride2 : WlStride Part Code} {res : Int}
    (done : isSubsetStride stride1 stride2 = some res) : res = 0 ∨ res = 1 ∨ res = 2 := by
  by_cases part : partOf stride1 = partOf stride2
  · rw [subset_stride_eq part, Option.map_eq_some_iff] at done
    obtain ⟨last, found, rfl⟩ := done
    rcases is_subset_range (.inr (.inl rfl)) found with rfl | rfl | rfl | rfl <;> simp [returned]
  · rw [subset_stride_other part] at done
    cases done
    exact .inl rfl

omit [DecidableEq Part] in
/-- One more stride is removed, in favour of one of the chain. -/
theorem remove_more {chain fewer kept : List (WlStride Part Code)}
    {removed : List (WlStride Part Code × WlStride Part Code)} {gone cause : WlStride Part Code}
    (back : (gone :: fewer).Perm chain) (inside : cause ∈ chain ∧ Within cause gone)
    (perm : (kept ++ removed.map Prod.fst).Perm fewer)
    (supersets : ∀ pair ∈ removed, pair.2 ∈ fewer ∧ Within pair.2 pair.1) :
    (kept ++ ((gone, cause) :: removed).map Prod.fst).Perm chain ∧
      ∀ pair ∈ (gone, cause) :: removed, pair.2 ∈ chain ∧ Within pair.2 pair.1 := by
  constructor
  · exact List.perm_middle.trans ((perm.cons gone).trans back)
  · intro pair member
    rcases List.mem_cons.mp member with rfl | member
    · exact inside
    · obtain ⟨found, nested⟩ := supersets pair member
      exact ⟨back.subset (List.mem_cons_of_mem gone found), nested⟩

/-- Induction along the two loops. The pairs that are still compared stood in this order in the
chain, as removing strides keeps the others in their order. -/
theorem remove_redundant_sound {stride1 : WlStride Part Code}
    {passed rest : List (WlStride Part Code)}
    (sound : (stride1 :: (passed ++ rest)).Pairwise Sound) :
    ∃ kept removed, removeRedundant stride1 passed rest = some (kept, removed) ∧
      (kept ++ removed.map Prod.fst).Perm (stride1 :: (passed ++ rest)) ∧
      ∀ pair ∈ removed, pair.2 ∈ stride1 :: (passed ++ rest) ∧ Within pair.2 pair.1 := by
  induction stride1, passed, rest using removeRedundant.induct with
  | case1 stride1 => exact ⟨[stride1], [], by simp [removeRedundant], by simp, by simp⟩
  | case2 stride1 next later ih =>
      obtain ⟨kept, removed, done, perm, supersets⟩ := ih (by simpa using sound.of_cons)
      refine ⟨stride1 :: kept, removed, by simp [removeRedundant, done], by simpa using perm, ?_⟩
      intro pair member
      have := supersets pair member
      simp_all
  | case3 stride1 passed stride2 rest replaced shorter longer =>
      obtain ⟨res, verdict, first, second⟩ :=
        (List.pairwise_cons.mp sound).1 stride2 (by simp)
      rcases subset_stride_range verdict with rfl | rfl | rfl
      · have same : passed ++ [stride2] ++ rest = passed ++ stride2 :: rest := by simp
        rw [same] at longer
        obtain ⟨kept, removed, done, rest_of⟩ := longer sound
        exact ⟨kept, removed, by rw [removeRedundant.eq_def]; simp [verdict, done], rest_of⟩
      · have tail := sound.of_cons
        have smaller : stride2 ∈ stride1 :: (passed ++ stride2 :: rest) ∧
            Within stride2 stride1 := ⟨by simp, first rfl⟩
        cases passed with
        | nil =>
            obtain ⟨kept, removed, done, perm, supersets⟩ := replaced (by simpa using tail)
            exact ⟨kept, (stride1, stride2) :: removed,
              by simp [removeRedundant, verdict, done],
              remove_more (List.Perm.refl _) smaller perm supersets⟩
        | cons next later =>
            obtain ⟨kept, removed, done, perm, supersets⟩ := replaced (by simpa using tail)
            exact ⟨kept, (stride1, stride2) :: removed,
              by simp [removeRedundant, verdict, done],
              remove_more (List.Perm.refl _) smaller perm supersets⟩
      · have fewer :
            (stride1 :: (passed ++ rest)).Sublist (stride1 :: (passed ++ stride2 :: rest)) :=
          ((List.sublist_cons_self stride2 rest).append_left passed).cons_cons stride1
        obtain ⟨kept, removed, done, perm, supersets⟩ := shorter (sound.sublist fewer)
        have put_back : (stride2 :: stride1 :: (passed ++ rest)).Perm
            (stride1 :: (passed ++ stride2 :: rest)) :=
          (List.Perm.swap stride1 stride2 _).trans (List.perm_middle.symm.cons stride1)
        exact ⟨kept, (stride2, stride1) :: removed,
          by rw [removeRedundant.eq_def]; simp [verdict, done],
          remove_more put_back ⟨by simp, second rfl⟩ perm supersets⟩

theorem eliminate_duplicates_sound {chain : List (WlStride Part Code)}
    (sound : chain.Pairwise Sound) : RemovesSupersets chain := by
  cases chain with
  | nil => exact ⟨[], [], rfl, by simp, by simp⟩
  | cons stride1 rest => exact remove_redundant_sound (by simpa using sound)

/-- A chain of two strides. -/
theorem removes_pair_iff {stride1 stride2 : WlStride Part Code} {res : Int}
    (verdict : isSubsetStride stride1 stride2 = some res) :
    RemovesSupersets [stride1, stride2] ↔ Sound stride1 stride2 := by
  constructor
  · rintro ⟨kept, removed, done, _, supersets⟩
    refine ⟨res, verdict, ?_, ?_⟩
    · rintro rfl
      simp only [eliminateDuplicates, removeRedundant, verdict, Option.bind_eq_bind,
        Option.bind_some, if_true, Option.some.injEq, Prod.mk.injEq] at done
      exact (supersets (stride1, stride2) (by simp [← done.2])).2
    · rintro rfl
      simp only [eliminateDuplicates, removeRedundant, verdict, Option.bind_eq_bind,
        Option.bind_some, if_true, if_neg (show (2 : Int) ≠ 1 by decide), Option.some.injEq,
        Prod.mk.injEq] at done
      exact (supersets (stride2, stride1) (by simp [← done.2])).2
  · intro sound
    exact eliminate_duplicates_sound (by simpa using sound)

/-- The dimensions of the stride of a part. -/
structure Source (part : Part) where
  whole : List (Dim Part)
  own : ∀ dim ∈ whole, dim.part = part
  normal : ∀ dim ∈ whole, Normal dim.attrs

/-- A stride that is derived from a part. -/
structure DerivedStride (Code : Type) {part : Part} (source : Source part) where
  stride : WlStride Part Code
  derived : Derived source.whole stride.dims

theorem derived_part {part : Part} {source : Source part} (a : DerivedStride Code source) :
    a.stride.dims = [] ∨ partOf a.stride = some part := by
  have own := piece_dims_part source.own (derived_pieces source.normal a.derived)
  unfold partOf
  cases dims : a.stride.dims with
  | nil => exact .inl rfl
  | cons dim inner =>
      rw [dims] at own
      exact .inr (congrArg some (own dim (by simp)))

/-- The two verdicts are about the last dimension, the two inclusions about all of them. -/
theorem derived_sound_iff {part : Part} {source : Source part} (a b : DerivedStride Code source) :
    (∃ res, isSubsetStride a.stride b.stride = some res) ∧
      (Sound a.stride b.stride ↔ Consistent a.stride.dims b.stride.dims) := by
  have pieces1 := derived_pieces source.normal a.derived
  have pieces2 := derived_pieces source.normal b.derived
  have legal : ∀ dim ∈ source.whole, Legal dim.attrs := fun dim member =>
    (source.normal dim member).legal
  have ranks : a.stride.dims.length = b.stride.dims.length :=
    pieces1.length_eq.symm.trans pieces2.length_eq
  have part : partOf a.stride = partOf b.stride := by
    rcases derived_part a with none1 | part1
    · have none2 := List.length_eq_zero_iff.mp (ranks.symm.trans (by simp [none1]))
      simp [partOf, none1, none2]
    · rcases derived_part b with none2 | part2
      · have none1 := List.length_eq_zero_iff.mp (ranks.trans (by simp [none2]))
        simp [partOf, none1, none2]
      · rw [part1, part2]
  have first : Within b.stride a.stride ↔ Nested a.stride.dims b.stride.dims :=
    in_dims_subset legal pieces1 pieces2
  have second : Within a.stride b.stride ↔ Nested b.stride.dims a.stride.dims :=
    in_dims_subset legal pieces2 pieces1
  unfold Sound
  rw [subset_stride_eq part, first, second]
  by_cases comparable : Comparable a.stride.dims b.stride.dims
  · rw [← comparable_sound_iff comparable]
    obtain ⟨last, done, ⟨none1, rfl⟩ | ⟨_, which⟩⟩ := is_subset_comparable comparable 0
    · have none2 := List.length_eq_zero_iff.mp (ranks.symm.trans (by simp [none1]))
      have nested : Nested ([] : List (Dim Part)) [] := .nil
      simp [none1, none2, isSubsetDims, returned, nested]
    · rw [done]
      rcases which with ⟨inner, value⟩ | ⟨outer, value⟩
      · simp [value, inner]
      · simp [value, outer]
  · rw [is_subset_apart ranks comparable]
    simp [returned, Consistent, comparable]

/-- Strides of two parts are not found redundant. -/
theorem parts_sound {part1 part2 : Part} (different : part1 ≠ part2) {source1 : Source part1}
    {source2 : Source part2} (a : DerivedStride Code source1) (b : DerivedStride Code source2) :
    Sound a.stride b.stride := by
  refine ⟨0, ?_, by simp, by simp⟩
  by_cases part : partOf a.stride = partOf b.stride
  · -- that happens for strides with no dimensions only
    have none1 : a.stride.dims = [] := by
      refine (derived_part a).resolve_right fun own1 => ?_
      rw [own1] at part
      rcases derived_part b with none2 | own2
      · simp [partOf, none2] at part
      · exact different (Option.some.inj (part.trans own2))
    simp [subset_stride_eq part, none1, isSubsetDims, returned]
  · exact subset_stride_other part

/-- The verdict is right exactly if the verdicts of the dimensions are consistent, and chains
whose strides are consistent in pairs only lose strides that contain others. -/
theorem is_subset_stride (sources : ∀ part : Part, Source part) {part : Part}
    (a b : DerivedStride Code (sources part))
    (chain : List ((part : Part) × DerivedStride Code (sources part))) :
    (Sound a.stride b.stride ↔ Consistent a.stride.dims b.stride.dims) ∧
      (RemovesSupersets [a.stride, b.stride] ↔ Consistent a.stride.dims b.stride.dims) ∧
      (chain.Pairwise (fun x y => x.1 = y.1 → Consistent x.2.stride.dims y.2.stride.dims) →
        RemovesSupersets (chain.map fun x => x.2.stride)) := by
  obtain ⟨⟨res, verdict⟩, exact_when⟩ := derived_sound_iff a b
  refine ⟨exact_when, (removes_pair_iff verdict).trans exact_when, fun consistent => ?_⟩
  refine eliminate_duplicates_sound (List.pairwise_map.mpr (consistent.imp ?_))
  rintro ⟨part1, x⟩ ⟨part2, y⟩ consistent
  by_cases same : part1 = part2
  · subst same
    exact (derived_sound_iff x y).2.mpr (consistent rfl)
  · exact parts_sound same x y

theorem interval_normal {b : Int} (some : 0 < b) : Normal ⟨0, b, 1, 0, 1⟩ where
  legal := by constructor <;> simp [some]
  reduced := ⟨.inl (by simp [runs, some]), by simp [runs]⟩
  least := by simp

/-- Every fourth column of eight rows. -/
def columns : Source 0 where
  whole := [⟨0, ⟨0, 8, 1, 0, 1⟩⟩, ⟨0, ⟨0, 8, 4, 0, 1⟩⟩]
  own := by decide
  normal := by
    simp only [List.forall_mem_cons]
    exact ⟨interval_normal (by decide),
      ⟨by constructor <;> decide, ⟨.inr (by decide), by decide⟩, by decide⟩, by simp⟩

/-- The columns next to them, in the first four rows. -/
def neighbours : List (Dim Nat) := [⟨1, ⟨0, 4, 1, 0, 1⟩⟩, ⟨1, ⟨0, 9, 4, 1, 2⟩⟩]

/-- What lies in the first four rows. -/
def upperColumns : DerivedStride Unit columns where
  stride := ⟨[⟨0, ⟨0, 4, 1, 0, 1⟩⟩, ⟨0, ⟨0, 8, 4, 0, 1⟩⟩], ()⟩
  derived := by
    have normal : ∀ dim ∈ neighbours, Normal dim.attrs := by
      simp only [neighbours, List.forall_mem_cons]
      exact ⟨interval_normal (by decide),
        ⟨by constructor <;> decide, ⟨.inr (by decide), by decide⟩, by decide⟩, by simp⟩
    have done : intersectDims columns.whole neighbours =
        some (some ([⟨0, ⟨0, 4, 1, 0, 1⟩⟩, ⟨0, ⟨0, 8, 4, 0, 1⟩⟩], neighbours)) := by decide
    exact .first .whole normal rfl done

def allColumns : DerivedStride Unit columns := ⟨⟨columns.whole, ()⟩, .whole⟩

/-- The second dimension is the same, and so the smaller stride is removed. -/
theorem smaller_removed : ¬ Sound upperColumns.stride allColumns.stride ∧
    ¬ RemovesSupersets [upperColumns.stride, allColumns.stride] := by
  have apart : ¬ Within allColumns.stride upperColumns.stride := by
    intro within
    have last : InDims allColumns.stride.dims [7, 0] :=
      .cons (by simp [Indexes]) (.cons (by simp [Indexes]) .nil)
    cases within _ last with
    | cons row _ => exact absurd row.2.1 (by decide)
  have verdict : isSubsetStride upperColumns.stride allColumns.stride = some 1 := by decide
  have unsound : ¬ Sound upperColumns.stride allColumns.stride := by
    rintro ⟨res, found, first, _⟩
    exact apart (first (Option.some.inj (found.symm.trans verdict)))
  exact ⟨unsound, fun removes => unsound ((removes_pair_iff verdict).mp removes)⟩

end Chains

end Sac2c.SubsetStrides
