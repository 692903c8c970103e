import Mathlib.Data.Finset.Image
import Mathlib.Data.Finset.Range
import Mathlib.Order.Lattice
import Sac2c.BoxSplitting
import Sac2c.Cubes

/-!
Step 5 of the with-loop transformation (wltransform/wltransform.c): the cubes are
split pairwise, in the first dimension in which their bounds differ, until no split
is left. Split cubes are dropped, so that a round keeps intersections only. Cubes
that tile a box lose nothing by this.
-/

namespace Sac2c.CubeSplitting

open Cubes BoxSplitting

variable {Code : Type} {n : Nat}

section Model

/-- The first dimension in which the bounds are not equal, with the bounds of the
intersection. -/
def splitDim : (n : Nat) → Cube Code n → Cube Code n → Option (Fin n × Int × Int)
  | 0, _, _ => none
  | n + 1, (stride1 : Stride (Cube Code n)), (stride2 : Stride (Cube Code n)) =>
      if stride1.bound1 = stride2.bound1 ∧ stride1.bound2 = stride2.bound2 then
        (splitDim n stride1.first.inner stride2.first.inner).map fun (dim, bounds) =>
          (dim.succ, bounds)
      else some (0, max stride1.bound1 stride2.bound1, min stride1.bound2 stride2.bound2)

def splitStride (stride1 stride2 : Cube Code n) : Option (Cube Code n × Cube Code n) :=
  match splitDim n stride1 stride2 with
  | some (dim, bound1, bound2) =>
      if bound1 < bound2 then
        some (newBoundsStride n dim bound1 bound2 stride1,
          newBoundsStride n dim bound1 bound2 stride2)
      else none
  | none => none

/-- The variables of a round; WLSTRIDE_ISMODIFIED by the position of the stride. -/
structure Round (Code : Type) (n : Nat) where
  newStrides : List (Cube Code n)
  fixpoint : Bool
  isModified : Nat → Bool

def Round.insert (state : Round Code n) (stride : Cube Code n) : Round Code n :=
  { state with
    newStrides := insertWlNodes (compareStrides false n) state.newStrides [stride] }

def splitPair (i j : Nat) (stride1 stride2 : Cube Code n) (state : Round Code n) :
    Round Code n :=
  match splitStride stride1 stride2 with
  | some (splitStride1, splitStride2) =>
      let modified : Round Code n :=
        { state with
          fixpoint := false
          isModified := Function.update (Function.update state.isModified i true) j true }
      (modified.insert splitStride1).insert splitStride2
  | none => state

/-- The loop over `stride2`, at the positions from `j` on. -/
def splitWith (i : Nat) (stride1 : Cube Code n) :
    Nat → List (Cube Code n) → Round Code n → Round Code n
  | _, [], state => state
  | j, stride2 :: rest, state =>
      splitWith i stride1 (j + 1) rest (splitPair i j stride1 stride2 state)

/-- The loop over `stride1`. Strides that were modified are freed. -/
def splitPairwise : Nat → List (Cube Code n) → Round Code n → Round Code n
  | _, [], state => state
  | i, stride1 :: rest, state =>
      let state := splitWith i stride1 (i + 1) rest state
      splitPairwise (i + 1) rest (if state.isModified i then state else state.insert stride1)

def splitRound (strides : List (Cube Code n)) : Round Code n :=
  splitPairwise 0 strides { newStrides := [], fixpoint := true, isModified := fun _ => false }

/-- The result if `rounds` rounds are enough. -/
def splitWl : Nat → List (Cube Code n) → Option (List (Cube Code n))
  | _, [] => some []
  | 0, _ :: _ => none
  | rounds + 1, first :: rest =>
      let state := splitRound (first :: rest)
      if state.fixpoint then some state.newStrides else splitWl rounds state.newStrides

end Model

section Splits

/-- The indices between two bounds. -/
def indices (bound1 bound2 : Int) : Finset Int :=
  (Finset.range (bound2 - bound1).toNat).image fun k : Nat => bound1 + k

theorem mem_indices (bound1 bound2 x : Int) :
    x ∈ indices bound1 bound2 ↔ bound1 ≤ x ∧ x < bound2 := by
  rw [indices, Finset.mem_image]
  constructor
  · rintro ⟨k, inRange, rfl⟩
    have := Finset.mem_range.mp inRange
    omega
  · rintro ⟨lower, upper⟩
    exact ⟨(x - bound1).toNat, Finset.mem_range.mpr (by omega), by omega⟩

theorem indices_inter (bound1 bound2 bound1' bound2' : Int) :
    indices bound1 bound2 ∩ indices bound1' bound2' =
      indices (max bound1 bound1') (min bound2 bound2') := by
  ext x
  rw [Finset.mem_inter, mem_indices, mem_indices, mem_indices]
  omega

theorem indices_nonempty (bound1 bound2 : Int) :
    (indices bound1 bound2).Nonempty ↔ bound1 < bound2 := by
  constructor
  · rintro ⟨x, member⟩
    have := (mem_indices bound1 bound2 x).mp member
    omega
  · exact fun some => ⟨bound1, (mem_indices bound1 bound2 bound1).mpr ⟨le_rfl, some⟩⟩

theorem indices_eq_iff (bound1 bound2 bound1' bound2' : Int) (nonempty : bound1 < bound2) :
    indices bound1 bound2 = indices bound1' bound2' ↔ bound1 = bound1' ∧ bound2 = bound2' := by
  constructor
  · intro same
    have both (x : Int) : bound1 ≤ x ∧ x < bound2 ↔ bound1' ≤ x ∧ x < bound2' := by
      rw [← mem_indices, ← mem_indices, same]
    have := both bound1
    have := both (bound2 - 1)
    have := both bound1'
    have := both (bound2' - 1)
    omega
  · rintro ⟨rfl, rfl⟩
    rfl

/-- The outline as a box. -/
def box (cube : Cube Code n) (dim : Fin n) : Finset Int :=
  indices (outline n cube dim).1 (outline n cube dim).2

theorem inside_box_iff (cube : Cube Code n) (iv : Fin n → Int) :
    Inside iv (box cube) ↔ InOutline cube iv :=
  forall_congr' fun _ => mem_indices _ _ _

theorem outline_lt (cube : Cube Code n) (regular : Regular n cube) (dim : Fin n) :
    (outline n cube dim).1 < (outline n cube dim).2 := by
  induction n with
  | zero => exact dim.elim0
  | succ n ih =>
      obtain ⟨nonempty, _, grids⟩ := regular
      cases dim using Fin.cases with
      | zero => exact nonempty
      | succ dim => exact ih cube.first.inner (grids cube.first cube.first_mem).2.1 dim

theorem box_eq_iff (cube cube' : Cube Code n) (regular : Regular n cube) (dim : Fin n) :
    box cube dim = box cube' dim ↔ outline n cube dim = outline n cube' dim := by
  rw [box, box, indices_eq_iff _ _ _ _ (outline_lt cube regular dim)]
  exact Prod.ext_iff.symm

theorem split_dim_succ (n : Nat) (stride1 stride2 : Stride (Cube Code n)) :
    splitDim (n + 1) stride1 stride2 =
      if stride1.bound1 = stride2.bound1 ∧ stride1.bound2 = stride2.bound2 then
        (splitDim n stride1.first.inner stride2.first.inner).map fun (dim, bounds) =>
          (dim.succ, bounds)
      else some (0, max stride1.bound1 stride2.bound1, min stride1.bound2 stride2.bound2) := rfl

theorem split_dim_comm (stride1 stride2 : Cube Code n) :
    splitDim n stride2 stride1 = splitDim n stride1 stride2 := by
  induction n with
  | zero => rfl
  | succ n ih =>
      rw [split_dim_succ n stride2 stride1, split_dim_succ n stride1 stride2, ih]
      simp only [max_comm stride2.bound1, min_comm stride2.bound2,
        eq_comm (a := stride2.bound1), eq_comm (a := stride2.bound2)]

theorem split_dim_cases (stride1 stride2 : Cube Code n) :
    (outline n stride1 = outline n stride2 ∧ splitDim n stride1 stride2 = none) ∨
    ∃ dim, (∀ before < dim, outline n stride1 before = outline n stride2 before) ∧
      outline n stride1 dim ≠ outline n stride2 dim ∧
      splitDim n stride1 stride2 = some (dim,
        max (outline n stride1 dim).1 (outline n stride2 dim).1,
        min (outline n stride1 dim).2 (outline n stride2 dim).2) := by
  induction n with
  | zero => exact Or.inl ⟨funext fun dim => dim.elim0, rfl⟩
  | succ n ih =>
      by_cases same : stride1.bound1 = stride2.bound1 ∧ stride1.bound2 = stride2.bound2
      · have deeper : splitDim (n + 1) stride1 stride2 =
            (splitDim n stride1.first.inner stride2.first.inner).map fun (dim, bounds) =>
              (dim.succ, bounds) := if_pos same
        rcases ih stride1.first.inner stride2.first.inner with ⟨inner, none⟩ |
          ⟨dim, before, differ, found⟩
        · left
          rw [deeper, none, outline_succ n stride1, outline_succ n stride2, inner, same.1, same.2]
          exact ⟨rfl, rfl⟩
        · refine Or.inr ⟨dim.succ, fun earlier below => ?_, differ, ?_⟩
          · cases earlier using Fin.cases with
            | zero => exact Prod.ext same.1 same.2
            | succ earlier => exact before earlier (Fin.succ_lt_succ_iff.mp below)
          · rw [deeper, found]
            rfl
      · have differ : outline (n + 1) stride1 0 ≠ outline (n + 1) stride2 0 := fun equal =>
          same (Prod.ext_iff.mp equal)
        exact Or.inr ⟨0, fun earlier below => absurd below (Fin.not_lt_zero earlier), differ,
          if_neg same⟩

/-- `new` is one of the results of splitting `stride`, against `other`. -/
def Fragment (stride other new : Cube Code n) : Prop :=
  ∃ new', splitStride stride other = some (new, new')

theorem split_stride_found {stride1 stride2 : Cube Code n} {dim : Fin n} {bound1 bound2 : Int}
    (found : splitDim n stride1 stride2 = some (dim, bound1, bound2)) :
    splitStride stride1 stride2 = if bound1 < bound2 then
      some (newBoundsStride n dim bound1 bound2 stride1,
        newBoundsStride n dim bound1 bound2 stride2)
    else none := by
  rw [splitStride, found]

theorem split_stride_swap {stride1 stride2 new1 new2 : Cube Code n}
    (split : splitStride stride1 stride2 = some (new1, new2)) :
    splitStride stride2 stride1 = some (new2, new1) := by
  unfold splitStride at split ⊢
  rw [split_dim_comm]
  cases found : splitDim n stride1 stride2 with
  | none => rw [found] at split; cases split
  | some bounds =>
      obtain ⟨dim, bound1, bound2⟩ := bounds
      rw [found] at split
      dsimp only at split ⊢
      split_ifs at split ⊢ with some
      cases split
      rfl

theorem split_stride_self (stride : Cube Code n) : splitStride stride stride = none := by
  rcases split_dim_cases stride stride with ⟨_, none⟩ | ⟨dim, _, differ, _⟩
  · rw [splitStride, none]
  · exact absurd rfl differ

/-- Strides are split exactly if their boxes are, and each of them becomes what the split
leaves of its box. -/
theorem split_stride_cases (stride1 stride2 : Cube Code n) (regular : Regular n stride1) :
    ((∀ dim, ¬ Splits (box stride1) (box stride2) dim) ∧ splitStride stride1 stride2 = none) ∨
    ∃ dim, Splits (box stride1) (box stride2) dim ∧ ∃ bound1 bound2 new1 new2,
      splitStride stride1 stride2 = some (new1, new2) ∧
      indices bound1 bound2 = box stride1 dim ∩ box stride2 dim ∧
      Restricts stride1 new1 dim bound1 bound2 := by
  rcases split_dim_cases stride1 stride2 with ⟨same, none⟩ | ⟨dim, before, differ, found⟩
  · refine Or.inl ⟨fun dim splits => splits.2.1 ?_, by rw [splitStride, none]⟩
    exact (box_eq_iff stride1 stride2 regular dim).mpr (congrFun same dim)
  · have common : indices (max (outline n stride1 dim).1 (outline n stride2 dim).1)
        (min (outline n stride1 dim).2 (outline n stride2 dim).2) =
        box stride1 dim ∩ box stride2 dim := (indices_inter _ _ _ _).symm
    have earlier (other : Fin n) (below : other < dim) : box stride1 other = box stride2 other :=
      (box_eq_iff stride1 stride2 regular other).mpr (before other below)
    have here : box stride1 dim ≠ box stride2 dim := fun same =>
      differ ((box_eq_iff stride1 stride2 regular dim).mp same)
    -- an empty intersection means no split here, and later dimensions are not looked at
    by_cases some : max (outline n stride1 dim).1 (outline n stride2 dim).1 <
        min (outline n stride1 dim).2 (outline n stride2 dim).2
    · have overlap : (box stride1 dim ∩ box stride2 dim).Nonempty := by
        rw [← common]
        exact (indices_nonempty _ _).mpr some
      exact Or.inr ⟨dim, ⟨earlier, here, overlap⟩, _, _, _, _,
        (split_stride_found found).trans (if_pos some), common,
        new_bounds_restricts n dim _ _ stride1 regular (le_max_left _ _) some (min_le_left _ _)⟩
    · left
      constructor
      · rintro dim' ⟨before', differ', overlap⟩
        have first : dim' = dim := first_difference_unique before' differ' earlier here
        subst first
        rw [← common] at overlap
        exact some ((indices_nonempty _ _).mp overlap)
      · exact (split_stride_found found).trans (if_neg some)

theorem restricts_box {cube new : Cube Code n} {dim : Fin n} {bound1 bound2 : Int}
    (restricts : Restricts cube new dim bound1 bound2) :
    box new = Function.update (box cube) dim (indices bound1 bound2) := by
  funext other
  rw [box, restricts.outline_eq]
  by_cases same : other = dim
  · subst same
    rw [Function.update_self, Function.update_self]
  · rw [Function.update_of_ne same, Function.update_of_ne same]
    rfl

theorem fragment_cut {stride other new : Cube Code n} (regular : Regular n stride)
    (fragment : Fragment stride other new) :
    ∃ dim, Splits (box stride) (box other) dim ∧ box new = cut (box stride) (box other) dim ∧
      ∃ bound1 bound2, Restricts stride new dim bound1 bound2 := by
  obtain ⟨new', split⟩ := fragment
  rcases split_stride_cases stride other regular with ⟨_, none⟩ |
    ⟨dim, splits, bound1, bound2, new1, new2, found, common, restricts⟩
  · rw [none] at split
    cases split
  · rw [found] at split
    cases split
    exact ⟨dim, splits, by rw [restricts_box restricts, common, cut], bound1, bound2, restricts⟩

theorem fragment_of_splits {stride other : Cube Code n} (regular : Regular n stride) {dim : Fin n}
    (splits : Splits (box stride) (box other) dim) :
    ∃ new, Fragment stride other new ∧ box new = cut (box stride) (box other) dim := by
  rcases split_stride_cases stride other regular with ⟨unsplit, _⟩ |
    ⟨dim', splits', bound1, bound2, new1, new2, found, common, restricts⟩
  · exact absurd splits (unsplit dim)
  · have same : dim' = dim :=
      first_difference_unique splits'.1 splits'.2.1 splits.1 splits.2.1
    subst same
    exact ⟨new1, ⟨new2, found⟩, by rw [restricts_box restricts, common, cut]⟩

theorem unsplit_iff {stride other : Cube Code n} (regular : Regular n stride) :
    splitStride stride other = none ↔ ∀ dim, ¬ Splits (box stride) (box other) dim := by
  rcases split_stride_cases stride other regular with ⟨unsplit, none⟩ |
    ⟨dim, splits, bound1, bound2, new1, new2, found, _⟩
  · exact iff_of_true none unsplit
  · rw [found]
    exact iff_of_false (Option.some_ne_none _) fun unsplit => unsplit dim splits

end Splits

section Rounds

/-- The chain has nothing but these strides, and one with the outline of each of them. -/
def Collects (chain : List (Cube Code n)) (sources : Cube Code n → Prop) : Prop :=
  (∀ stride ∈ chain, sources stride) ∧
    ∀ stride, sources stride → ∃ other ∈ chain, outline n other = outline n stride

theorem Collects.congr {chain : List (Cube Code n)} {sources sources' : Cube Code n → Prop}
    (collects : Collects chain sources) (same : ∀ stride, sources stride ↔ sources' stride) :
    Collects chain sources' :=
  ⟨fun stride member => (same stride).mp (collects.1 stride member),
    fun stride source => collects.2 stride ((same stride).mpr source)⟩

theorem Collects.insert {state : Round Code n} {sources : Cube Code n → Prop}
    (collects : Collects state.newStrides sources) (stride : Cube Code n) :
    Collects (state.insert stride).newStrides fun other => sources other ∨ other = stride := by
  have inserted : (state.insert stride).newStrides =
      insertWlNode (compareStrides false n) stride state.newStrides := rfl
  rw [inserted]
  constructor
  · intro other member
    rcases mem_of_mem_insert _ stride _ other member with same | old
    · exact Or.inr same
    · exact Or.inl (collects.1 other old)
  · rintro other (source | rfl)
    · obtain ⟨found, member, same⟩ := collects.2 other source
      exact ⟨found, mem_insert _ stride _ found member, same⟩
    · rcases insert_found (compareStrides false n) other state.newStrides with member |
        ⟨found, member, equal⟩
      · exact ⟨other, member, rfl⟩
      · -- the stride has been freed in favour of one with the same bounds
        refine ⟨found, member, (outline_of_compare false n other found ?_).symm⟩
        rw [equal]
        decide

theorem split_none_comm (stride1 stride2 : Cube Code n) :
    splitStride stride1 stride2 = none ↔ splitStride stride2 stride1 = none := by
  have transfer (a b : Cube Code n) (unsplit : splitStride a b = none) :
      splitStride b a = none := by
    cases split : splitStride b a with
    | none => rfl
    | some new =>
        rw [split_stride_swap split] at unsplit
        cases unsplit
  exact ⟨transfer _ _, transfer _ _⟩

theorem fragments_of_some {stride1 stride2 new1 new2 : Cube Code n}
    (split : splitStride stride1 stride2 = some (new1, new2)) (stride : Cube Code n) :
    Fragment stride1 stride2 stride ∨ Fragment stride2 stride1 stride ↔
      stride = new1 ∨ stride = new2 := by
  have swapped := split_stride_swap split
  constructor
  · rintro (⟨_, found⟩ | ⟨_, found⟩)
    · rw [split] at found
      cases found
      exact Or.inl rfl
    · rw [swapped] at found
      cases found
      exact Or.inr rfl
  · rintro (rfl | rfl)
    · exact Or.inl ⟨_, split⟩
    · exact Or.inr ⟨_, swapped⟩

theorem no_fragment {stride1 stride2 : Cube Code n}
    (unsplit : splitStride stride1 stride2 = none) (stride : Cube Code n) :
    ¬ (Fragment stride1 stride2 stride ∨ Fragment stride2 stride1 stride) := by
  rintro (⟨_, found⟩ | ⟨_, found⟩)
  · rw [unsplit] at found
    cases found
  · rw [(split_none_comm _ _).mp unsplit] at found
    cases found

/-- One step of the inner loop. -/
theorem split_pair_spec (i j : Nat) (stride1 stride2 : Cube Code n) (state : Round Code n)
    (sources : Cube Code n → Prop) (collects : Collects state.newStrides sources) :
    Collects (splitPair i j stride1 stride2 state).newStrides (fun stride => sources stride ∨
        Fragment stride1 stride2 stride ∨ Fragment stride2 stride1 stride) ∧
      ((splitPair i j stride1 stride2 state).fixpoint = true ↔
        state.fixpoint = true ∧ splitStride stride1 stride2 = none) ∧
      ∀ k, (splitPair i j stride1 stride2 state).isModified k = true ↔
        state.isModified k = true ∨ (k = i ∨ k = j) ∧ splitStride stride1 stride2 ≠ none := by
  unfold splitPair
  cases split : splitStride stride1 stride2 with
  | none =>
      refine ⟨collects.congr fun stride => ?_, by simp, by simp⟩
      exact ⟨Or.inl, fun source => source.resolve_right (no_fragment split stride)⟩
  | some new =>
      obtain ⟨new1, new2⟩ := new
      refine ⟨?_, by simp [Round.insert], fun k => ?_⟩
      · apply ((Collects.insert (Collects.insert collects new1) new2)).congr
        intro stride
        rw [fragments_of_some split stride, or_assoc]
      · by_cases atJ : k = j
        · subst atJ
          simp [Round.insert]
        · by_cases atI : k = i
          · subst atI
            simp [Round.insert, atJ]
          · simp [Round.insert, atI, atJ]

/-- The inner loop. -/
theorem split_with_spec (i : Nat) (stride1 : Cube Code n) (j : Nat) (rest : List (Cube Code n))
    (state : Round Code n) (sources : Cube Code n → Prop)
    (collects : Collects state.newStrides sources) :
    Collects (splitWith i stride1 j rest state).newStrides (fun stride => sources stride ∨
        ∃ other ∈ rest, Fragment stride1 other stride ∨ Fragment other stride1 stride) ∧
      ((splitWith i stride1 j rest state).fixpoint = true ↔
        state.fixpoint = true ∧ ∀ other ∈ rest, splitStride stride1 other = none) ∧
      ∀ k, (splitWith i stride1 j rest state).isModified k = true ↔
        state.isModified k = true ∨ (k = i ∧ ∃ other ∈ rest, splitStride stride1 other ≠ none) ∨
          ∃ m other, rest[m]? = some other ∧ k = j + m ∧ splitStride stride1 other ≠ none := by
  induction rest generalizing j state sources with
  | nil => exact ⟨collects.congr fun stride => by simp, by simp [splitWith], by simp [splitWith]⟩
  | cons stride2 rest ih =>
      obtain ⟨collectsPair, fixPair, marksPair⟩ :=
        split_pair_spec i j stride1 stride2 state sources collects
      obtain ⟨collectsRest, fixRest, marksRest⟩ := ih (j + 1) _ _ collectsPair
      refine ⟨collectsRest.congr fun stride => ?_, ?_, fun k => ?_⟩
      · simp only [List.mem_cons, exists_eq_or_imp, or_assoc]
      · rw [splitWith, fixRest, fixPair, List.forall_mem_cons, and_assoc]
      · have shifted : (∃ m other, (stride2 :: rest)[m]? = some other ∧ k = j + m ∧
            splitStride stride1 other ≠ none) ↔ (k = j ∧ splitStride stride1 stride2 ≠ none) ∨
              ∃ m other, rest[m]? = some other ∧ k = j + 1 + m ∧
                splitStride stride1 other ≠ none := by
          constructor
          · rintro ⟨m, other, found, place, split⟩
            cases m with
            | zero =>
                cases found
                exact Or.inl ⟨place, split⟩
            | succ m => exact Or.inr ⟨m, other, found, by omega, split⟩
          · rintro (⟨place, split⟩ | ⟨m, other, found, place, split⟩)
            · exact ⟨0, stride2, rfl, place, split⟩
            · exact ⟨m + 1, other, found, by omega, split⟩
        rw [splitWith, marksRest, marksPair, shifted]
        simp only [List.mem_cons, exists_eq_or_imp]
        grind

/-- What a round with these strides inserts for the first of them. -/
def Sources (done strides : List (Cube Code n)) (stride : Cube Code n) : Prop :=
  (∃ first ∈ done, ∃ other ∈ strides, Fragment first other stride ∨ Fragment other first stride) ∨
    (stride ∈ done ∧ ∀ other ∈ strides, splitStride stride other = none)

theorem sources_step (done rest : List (Cube Code n)) (stride1 stride : Cube Code n) :
    Sources (done ++ [stride1]) (done ++ stride1 :: rest) stride ↔
      (Sources done (done ++ stride1 :: rest) stride ∨
        ∃ other ∈ rest, Fragment stride1 other stride ∨ Fragment other stride1 stride) ∨
      (stride = stride1 ∧ ∀ other ∈ done ++ stride1 :: rest, splitStride stride1 other = none) := by
  have here : stride1 ∈ done ++ stride1 :: rest := by simp
  constructor
  · rintro (⟨first, inFirst, other, inOther, fragment⟩ | ⟨member, unsplit⟩)
    · rcases List.mem_append.mp inFirst with old | new
      · exact Or.inl (Or.inl (Or.inl ⟨first, old, other, inOther, fragment⟩))
      · obtain rfl := List.mem_singleton.mp new
        rcases List.mem_append.mp inOther with old | inRest
        · exact Or.inl (Or.inl (Or.inl ⟨other, old, first, here, fragment.symm⟩))
        · rcases List.mem_cons.mp inRest with rfl | later
          · -- no stride is split against itself
            exact absurd fragment (no_fragment (split_stride_self other) stride)
          · exact Or.inl (Or.inr ⟨other, later, fragment⟩)
    · rcases List.mem_append.mp member with old | new
      · exact Or.inl (Or.inl (Or.inr ⟨old, unsplit⟩))
      · obtain rfl := List.mem_singleton.mp new
        exact Or.inr ⟨rfl, unsplit⟩
  · rintro (((⟨first, inFirst, pair⟩ | ⟨member, unsplit⟩) | ⟨other, inRest, fragment⟩) |
      ⟨rfl, unsplit⟩)
    · exact Or.inl ⟨first, List.mem_append_left _ inFirst, pair⟩
    · exact Or.inr ⟨List.mem_append_left _ member, unsplit⟩
    · exact Or.inl ⟨stride1, by simp, other,
        List.mem_append_right _ (List.mem_cons_of_mem _ inRest), fragment⟩
    · exact Or.inr ⟨by simp, unsplit⟩

/-- A stride is modified by one before it or by one behind it. -/
theorem split_some_iff (done rest : List (Cube Code n)) (stride1 : Cube Code n) :
    (∃ other ∈ done ++ stride1 :: rest, splitStride stride1 other ≠ none) ↔
      (∃ first ∈ done, splitStride first stride1 ≠ none) ∨
        ∃ other ∈ rest, splitStride stride1 other ≠ none := by
  constructor
  · rintro ⟨other, member, split⟩
    rcases List.mem_append.mp member with old | inRest
    · exact Or.inl ⟨other, old, fun unsplit => split ((split_none_comm _ _).mp unsplit)⟩
    · rcases List.mem_cons.mp inRest with rfl | later
      · exact absurd (split_stride_self other) split
      · exact Or.inr ⟨other, later, split⟩
  · rintro (⟨first, member, split⟩ | ⟨other, member, split⟩)
    · exact ⟨first, List.mem_append_left _ member,
        fun unsplit => split ((split_none_comm _ _).mp unsplit)⟩
    · exact ⟨other, List.mem_append_right _ (List.mem_cons_of_mem _ member), split⟩

theorem unsplit_step (done rest : List (Cube Code n)) (stride1 : Cube Code n) :
    (∀ first ∈ done ++ [stride1], ∀ other ∈ done ++ stride1 :: rest,
        splitStride first other = none) ↔
      (∀ first ∈ done, ∀ other ∈ done ++ stride1 :: rest, splitStride first other = none) ∧
        ∀ other ∈ rest, splitStride stride1 other = none := by
  constructor
  · intro whole
    exact ⟨fun first inDone => whole first (List.mem_append_left _ inDone),
      fun other inRest => whole stride1 (by simp) other
        (List.mem_append_right _ (List.mem_cons_of_mem _ inRest))⟩
  · rintro ⟨old, new⟩ first inFirst other inOther
    rcases List.mem_append.mp inFirst with inDone | inNew
    · exact old first inDone other inOther
    · obtain rfl := List.mem_singleton.mp inNew
      rcases List.mem_append.mp inOther with inDone | inRest
      · exact (split_none_comm _ _).mp (old other inDone first (by simp))
      · rcases List.mem_cons.mp inRest with rfl | later
        · exact split_stride_self other
        · exact new other later

/-- The marks the inner loop has left when it is through with `stride1`. -/
theorem marks_step {done rest : List (Cube Code n)} {stride1 stride : Cube Code n} {k : Nat}
    (found : rest[k]? = some stride) :
    ((∃ first ∈ done, splitStride first stride ≠ none) ∨
        (done.length + 1 + k = done.length ∧ ∃ other ∈ rest, splitStride stride1 other ≠ none) ∨
        ∃ m other, rest[m]? = some other ∧ done.length + 1 + k = done.length + 1 + m ∧
          splitStride stride1 other ≠ none) ↔
      ∃ first ∈ done ++ [stride1], splitStride first stride ≠ none := by
  constructor
  · rintro (⟨first, member, split⟩ | ⟨place, _⟩ | ⟨m, other, foundM, place, split⟩)
    · exact ⟨first, List.mem_append_left _ member, split⟩
    · omega
    · obtain rfl : k = m := by omega
      obtain rfl : stride = other := Option.some.inj (found.symm.trans foundM)
      exact ⟨stride1, by simp, split⟩
  · rintro ⟨first, member, split⟩
    rcases List.mem_append.mp member with inDone | inNew
    · exact Or.inl ⟨first, inDone, split⟩
    · obtain rfl := List.mem_singleton.mp inNew
      exact Or.inr (Or.inr ⟨k, stride, found, rfl, split⟩)

/-- The outer loop, after it has been through the strides of `done`. -/
theorem split_pairwise_spec (done strides : List (Cube Code n)) (state : Round Code n)
    (collects : Collects state.newStrides (Sources done (done ++ strides)))
    (fixpoint : state.fixpoint = true ↔
      ∀ first ∈ done, ∀ other ∈ done ++ strides, splitStride first other = none)
    (marks : ∀ k stride, strides[k]? = some stride →
      (state.isModified (done.length + k) = true ↔
        ∃ first ∈ done, splitStride first stride ≠ none)) :
    Collects (splitPairwise done.length strides state).newStrides
        (Sources (done ++ strides) (done ++ strides)) ∧
      ((splitPairwise done.length strides state).fixpoint = true ↔
        ∀ first ∈ done ++ strides, ∀ other ∈ done ++ strides, splitStride first other = none) := by
  induction strides generalizing done state with
  | nil =>
      rw [List.append_nil] at *
      exact ⟨collects, fixpoint⟩
  | cons stride1 rest ih =>
      obtain ⟨collectsWith, fixWith, marksWith⟩ :=
        split_with_spec done.length stride1 (done.length + 1) rest state _ collects
      let inner := splitWith done.length stride1 (done.length + 1) rest state
      let next := if inner.isModified done.length then inner else inner.insert stride1
      have append : done ++ stride1 :: rest = (done ++ [stride1]) ++ rest := by simp
      have mark : inner.isModified done.length = true ↔
          ∃ other ∈ done ++ stride1 :: rest, splitStride stride1 other ≠ none := by
        have before := marks 0 stride1 rfl
        rw [Nat.add_zero] at before
        rw [marksWith, before, split_some_iff]
        refine or_congr_right ⟨?_, fun later => Or.inl ⟨rfl, later⟩⟩
        rintro (⟨_, later⟩ | ⟨m, _, _, place, _⟩)
        · exact later
        · omega
      have collectsNext : Collects next.newStrides
          (Sources (done ++ [stride1]) (done ++ stride1 :: rest)) := by
        by_cases modified : inner.isModified done.length = true
        · -- the stride is freed: it is no source any more
          rw [show next = inner from if_pos modified]
          refine collectsWith.congr fun stride => ?_
          obtain ⟨other, member, split⟩ := mark.mp modified
          rw [sources_step]
          exact ⟨Or.inl, fun source => source.resolve_right fun whole =>
            split (whole.2 other member)⟩
        · -- the stride is kept, and so far no other one has split it
          rw [show next = inner.insert stride1 from if_neg modified]
          refine (Collects.insert collectsWith stride1).congr fun stride => ?_
          have whole : ∀ other ∈ done ++ stride1 :: rest, splitStride stride1 other = none :=
            fun other member => not_not.mp fun split => modified (mark.mpr ⟨other, member, split⟩)
          rw [sources_step]
          exact or_congr_right ⟨fun same => ⟨same, whole⟩, fun same => same.1⟩
      have same (k : Nat) : next.isModified k = inner.isModified k := by
        show (if _ then _ else _ : Round Code n).isModified k = _
        split_ifs <;> rfl
      have sameFix : next.fixpoint = inner.fixpoint := by
        show (if _ then _ else _ : Round Code n).fixpoint = _
        split_ifs <;> rfl
      have length : (done ++ [stride1]).length = done.length + 1 := by simp
      have run := ih (done ++ [stride1]) next (append ▸ collectsNext) ?_ ?_
      · rw [length, ← append] at run
        exact run
      · rw [sameFix, fixWith, fixpoint, ← append]
        exact (unsplit_step done rest stride1).symm
      · intro k stride found
        have before := marks (k + 1) stride found
        rw [← Nat.add_assoc, Nat.add_right_comm] at before
        rw [length, same, marksWith, before]
        exact marks_step found

/-- A round replaces the strides that can be split by their fragments, and finds out whether
there are any. -/
theorem split_round_spec (strides : List (Cube Code n)) :
    Collects (splitRound strides).newStrides (fun stride => ∃ first ∈ strides,
        (∃ other ∈ strides, Fragment first other stride) ∨
          (stride = first ∧ ∀ other ∈ strides, splitStride first other = none)) ∧
      ((splitRound strides).fixpoint = true ↔
        ∀ first ∈ strides, ∀ other ∈ strides, splitStride first other = none) := by
  have run := split_pairwise_spec [] strides
    { newStrides := [], fixpoint := true, isModified := fun _ => false : Round Code n }
    ⟨by simp, by simp [Sources]⟩ (by simp) (by simp)
  refine ⟨run.1.congr fun stride => ?_, run.2⟩
  constructor
  · rintro (⟨first, inFirst, other, inOther, fragment | fragment⟩ | ⟨member, whole⟩)
    · exact ⟨first, inFirst, Or.inl ⟨other, inOther, fragment⟩⟩
    · exact ⟨other, inOther, Or.inl ⟨first, inFirst, fragment⟩⟩
    · exact ⟨stride, member, Or.inr ⟨rfl, whole⟩⟩
  · rintro ⟨first, inFirst, ⟨other, inOther, fragment⟩ | ⟨rfl, whole⟩⟩
    · exact Or.inl ⟨first, inFirst, other, inOther, Or.inl fragment⟩
    · exact Or.inr ⟨inFirst, whole⟩

end Rounds

section Runs

def boxes (strides : List (Cube Code n)) : Set (Fin n → Finset Int) :=
  {v | ∃ stride ∈ strides, box stride = v}

/-- The rounds of SplitWl are rounds of box splitting. -/
theorem boxes_next {strides : List (Cube Code n)}
    (regular : ∀ stride ∈ strides, Regular n stride) :
    boxes (splitRound strides).newStrides = nextBoxes (boxes strides) := by
  obtain ⟨only, all⟩ := (split_round_spec strides).1
  ext v
  constructor
  · rintro ⟨stride, member, rfl⟩
    obtain ⟨first, inFirst, ⟨other, inOther, fragment⟩ | ⟨rfl, whole⟩⟩ := only stride member
    · obtain ⟨dim, splits, part, _⟩ := fragment_cut (regular first inFirst) fragment
      exact ⟨box first, ⟨first, inFirst, rfl⟩,
        Or.inl ⟨box other, ⟨other, inOther, rfl⟩, dim, splits, part⟩⟩
    · refine ⟨box stride, ⟨stride, inFirst, rfl⟩, Or.inr ⟨rfl, ?_⟩⟩
      rintro _ ⟨other, inOther, rfl⟩
      exact (unsplit_iff (regular stride inFirst)).mp (whole other inOther)
  · have found (stride : Cube Code n) (source : ∃ first ∈ strides,
        (∃ other ∈ strides, Fragment first other stride) ∨
          (stride = first ∧ ∀ other ∈ strides, splitStride first other = none)) :
        box stride ∈ boxes (splitRound strides).newStrides := by
      obtain ⟨other, member, same⟩ := all stride source
      exact ⟨other, member, funext fun dim => by rw [box, box, same]⟩
    rintro ⟨_, ⟨first, inFirst, rfl⟩, ⟨_, ⟨other, inOther, rfl⟩, dim, splits, rfl⟩ | ⟨rfl, whole⟩⟩
    · obtain ⟨new, fragment, part⟩ := fragment_of_splits (regular first inFirst) splits
      rw [← part]
      exact found new ⟨first, inFirst, Or.inl ⟨other, inOther, fragment⟩⟩
    · exact found first ⟨first, inFirst, Or.inr ⟨rfl, fun other inOther =>
        (unsplit_iff (regular first inFirst)).mpr (whole (box other) ⟨other, inOther, rfl⟩)⟩⟩

/-- What the rounds keep of the cubes they begin with. -/
structure Invariant (cubes strides : List (Cube Code n)) : Prop where
  regular : ∀ stride ∈ strides, Regular n stride
  agrees : ∀ stride ∈ strides, ∀ iv, InOutline stride iv → ∀ code,
    Assigns n stride iv code ↔ ∃ cube ∈ cubes, Assigns n cube iv code
  covered : ∀ iv, (∃ stride ∈ strides, InOutline stride iv) ↔ ∃ cube ∈ cubes, InOutline cube iv
  balanced : Balanced (boxes strides)

theorem covered_iff (strides : List (Cube Code n)) (iv : Fin n → Int) :
    (∃ v ∈ boxes strides, Inside iv v) ↔ ∃ stride ∈ strides, InOutline stride iv := by
  constructor
  · rintro ⟨_, ⟨stride, member, rfl⟩, inside⟩
    exact ⟨stride, member, (inside_box_iff stride iv).mp inside⟩
  · rintro ⟨stride, member, inside⟩
    exact ⟨box stride, ⟨stride, member, rfl⟩, (inside_box_iff stride iv).mpr inside⟩

theorem boxes_inhabited {strides : List (Cube Code n)}
    (regular : ∀ stride ∈ strides, Regular n stride) : ∀ v ∈ boxes strides, ∃ iv, Inside iv v := by
  rintro _ ⟨stride, member, rfl⟩
  exact ⟨fun dim => (outline n stride dim).1, fun dim =>
    (mem_indices _ _ _).mpr ⟨le_rfl, outline_lt stride (regular stride member) dim⟩⟩

/-- A fragment executes what its stride does. -/
theorem fragment_agrees {stride other new : Cube Code n} (regular : Regular n stride)
    (fragment : Fragment stride other new) {iv : Fin n → Int} (inside : InOutline new iv) :
    InOutline stride iv ∧ ∀ code, Assigns n new iv code ↔ Assigns n stride iv code := by
  obtain ⟨dim, _, part, bound1, bound2, restricts⟩ := fragment_cut regular fragment
  have range := inside dim
  rw [restricts.outline_eq, Function.update_self] at range
  refine ⟨(inside_box_iff stride iv).mp fun d => ?_, fun code => ?_⟩
  · exact cut_subset _ _ dim d (part ▸ (inside_box_iff new iv).mpr inside d)
  · rw [restricts.assigns_iff]
    exact and_iff_left range

theorem Invariant.next {cubes strides : List (Cube Code n)} (invariant : Invariant cubes strides) :
    Invariant cubes (splitRound strides).newStrides := by
  obtain ⟨only, _⟩ := (split_round_spec strides).1
  have same := boxes_next invariant.regular
  constructor
  · intro stride member
    obtain ⟨first, inFirst, ⟨other, _, fragment⟩ | ⟨rfl, _⟩⟩ := only stride member
    · obtain ⟨_, _, _, _, _, restricts⟩ := fragment_cut (invariant.regular first inFirst) fragment
      exact restricts.regular
    · exact invariant.regular stride inFirst
  · intro stride member iv inside code
    obtain ⟨first, inFirst, ⟨other, _, fragment⟩ | ⟨rfl, _⟩⟩ := only stride member
    · obtain ⟨insideFirst, agree⟩ :=
        fragment_agrees (invariant.regular first inFirst) fragment inside
      rw [agree]
      exact invariant.agrees first inFirst iv insideFirst code
    · exact invariant.agrees stride inFirst iv inside code
  · intro iv
    rw [← covered_iff, same, next_inside_iff invariant.balanced, covered_iff]
    exact invariant.covered iv
  · rw [same]
    exact balanced_next invariant.balanced (boxes_inhabited invariant.regular)

theorem Invariant.assigns_iff {cubes strides : List (Cube Code n)}
    (invariant : Invariant cubes strides) (regular : ∀ cube ∈ cubes, Regular n cube)
    (iv : Fin n → Int) (code : Code) : (∃ stride ∈ strides, Assigns n stride iv code) ↔
      ∃ cube ∈ cubes, Assigns n cube iv code := by
  constructor
  · rintro ⟨stride, member, executes⟩
    have inside := assigns_inside n stride (invariant.regular stride member) iv code executes
    exact (invariant.agrees stride member iv inside code).mp executes
  · rintro ⟨cube, member, executes⟩
    have inside := assigns_inside n cube (regular cube member) iv code executes
    obtain ⟨stride, inStrides, insideStride⟩ := (invariant.covered iv).mpr ⟨cube, member, inside⟩
    exact ⟨stride, inStrides,
      (invariant.agrees stride inStrides iv insideStride code).mpr ⟨cube, member, executes⟩⟩

/-- The rounds come to an end, and at the end nothing is left to split. -/
theorem split_wl_run (cubes strides : List (Cube Code n)) (invariant : Invariant cubes strides) :
    ∃ rounds result, splitWl rounds strides = some result ∧ Invariant cubes result ∧
      ∀ first ∈ result, ∀ other ∈ result, splitStride first other = none := by
  have weighted (strides : List (Cube Code n)) :
      (((strides.map box).toFinset : Finset (Fin n → Finset Int)) : Set _) = boxes strides := by
    ext v
    simp [boxes]
  have order : WellFounded (Multiset.IsDershowitzMannaLT (α := Lex (Fin n → ℕ))) :=
    Multiset.wellFounded_isDershowitzMannaLT
  generalize measure : weight (strides.map box).toFinset = bound
  induction bound using order.induction generalizing strides with
  | _ bound ih =>
    -- by induction on the weight of the boxes, which every round with a split makes smaller
    cases strides with
    | nil => exact ⟨0, [], rfl, invariant, by simp⟩
    | cons stride rest =>
        obtain ⟨⟨only, _⟩, fixpoint⟩ := split_round_spec (stride :: rest)
        by_cases last : (splitRound (stride :: rest)).fixpoint = true
        · refine ⟨1, _, if_pos last, invariant.next, fun first inFirst other inOther => ?_⟩
          have unsplit := fixpoint.mp last
          have old (new : Cube Code n)
              (member : new ∈ (splitRound (stride :: rest)).newStrides) : new ∈ stride :: rest := by
            obtain ⟨first, inFirst, ⟨other, inOther, new', split⟩ | ⟨rfl, _⟩⟩ := only new member
            · rw [unsplit first inFirst other inOther] at split
              cases split
            · exact inFirst
          exact unsplit first (old first inFirst) other (old other inOther)
        · have splits : ∃ first ∈ stride :: rest, ∃ other ∈ stride :: rest,
              splitStride first other ≠ none := by
            by_contra none
            push Not at none
            exact last (fixpoint.mpr none)
          obtain ⟨first, inFirst, other, inOther, split⟩ := splits
          have splitsBox : ∃ dim, Splits (box first) (box other) dim := by
            by_contra none
            push Not at none
            exact split ((unsplit_iff (invariant.regular first inFirst)).mpr none)
          have smaller := weight_next ((stride :: rest).map box).toFinset
            ((splitRound (stride :: rest)).newStrides.map box).toFinset
            (by rw [weighted, weighted, boxes_next invariant.regular])
            ⟨box first, List.mem_toFinset.mpr (List.mem_map_of_mem inFirst),
              box other, List.mem_toFinset.mpr (List.mem_map_of_mem inOther), splitsBox⟩
          rw [measure] at smaller
          obtain ⟨rounds, result, done, final⟩ := ih _ smaller _ invariant.next rfl
          exact ⟨rounds + 1, result, (if_neg last).trans done, final⟩

end Runs

section Tilings

/-- Cubes that have no index vector in common and that are a box together. -/
structure TileBox (cubes : List (Cube Code n)) (whole : Fin n → Int × Int) : Prop where
  regular : ∀ cube ∈ cubes, Regular n cube
  apart : cubes.Pairwise fun cube cube' => ∀ iv, InOutline cube iv → ¬ InOutline cube' iv
  covers : ∀ iv, (∃ cube ∈ cubes, InOutline cube iv) ↔
    ∀ dim, (whole dim).1 ≤ iv dim ∧ iv dim < (whole dim).2

theorem TileBox.same {cubes : List (Cube Code n)} {whole : Fin n → Int × Int}
    (tiles : TileBox cubes whole) {cube cube' : Cube Code n} (member : cube ∈ cubes)
    (member' : cube' ∈ cubes) {iv : Fin n → Int} (inside : InOutline cube iv)
    (inside' : InOutline cube' iv) : cube = cube' := by
  have symm : Std.Symm fun cube cube' : Cube Code n =>
      ∀ iv, InOutline cube iv → ¬ InOutline cube' iv :=
    ⟨fun _ _ apart iv inside inside' => apart iv inside' inside⟩
  by_contra other
  exact tiles.apart.forall member member' other iv inside inside'

theorem TileBox.tiling {cubes : List (Cube Code n)} {whole : Fin n → Int × Int}
    (tiles : TileBox cubes whole) :
    Tiling (boxes cubes) fun dim => indices (whole dim).1 (whole dim).2 := by
  constructor
  · exact boxes_inhabited tiles.regular
  · rintro _ ⟨cube, member, rfl⟩ _ ⟨cube', member', rfl⟩ iv inside inside'
    exact congrArg box (tiles.same member member' ((inside_box_iff cube iv).mp inside)
      ((inside_box_iff cube' iv).mp inside'))
  · intro iv
    rw [covered_iff, tiles.covers]
    exact forall_congr' fun dim => mem_indices _ _ _

theorem TileBox.invariant {cubes : List (Cube Code n)} {whole : Fin n → Int × Int}
    (tiles : TileBox cubes whole) : Invariant cubes cubes := by
  refine ⟨tiles.regular, fun cube member iv inside code => ?_, fun iv => Iff.rfl,
    balanced_of_tiling tiles.tiling⟩
  constructor
  · exact fun executes => ⟨cube, member, executes⟩
  · rintro ⟨cube', member', executes⟩
    have inside' := assigns_inside n cube' (tiles.regular cube' member') iv code executes
    rw [tiles.same member member' inside inside']
    exact executes

theorem unsplit_bounds {stride other : Cube Code n} (regular : Regular n stride)
    (regular' : Regular n other) (unsplit : splitStride stride other = none) (dim : Fin n)
    (before : ∀ d < dim, outline n stride d = outline n other d)
    (differ : outline n stride dim ≠ outline n other dim) :
    (outline n stride dim).2 ≤ (outline n other dim).1 ∨
      (outline n other dim).2 ≤ (outline n stride dim).1 := by
  have nonempty := outline_lt stride regular dim
  have nonempty' := outline_lt other regular' dim
  by_contra overlap
  refine (unsplit_iff regular).mp unsplit dim ⟨fun d below => ?_, fun same => differ ?_, ?_⟩
  · exact (box_eq_iff stride other regular d).mpr (before d below)
  · exact (box_eq_iff stride other regular dim).mp same
  · rw [box, box, indices_inter, indices_nonempty]
    omega

/-- Cube splitting ends. No index vector is lost, every stride has the code of the cubes at
all of its index vectors, and in the first dimension in which two strides differ they do not
overlap. -/
theorem split_wl_preserves (cubes : List (Cube Code n)) (whole : Fin n → Int × Int)
    (tiles : TileBox cubes whole) :
    ∃ rounds strides, splitWl rounds cubes = some strides ∧
      (∀ iv code, (∃ stride ∈ strides, Assigns n stride iv code) ↔
        ∃ cube ∈ cubes, Assigns n cube iv code) ∧
      (∀ iv, (∃ stride ∈ strides, InOutline stride iv) ↔ ∃ cube ∈ cubes, InOutline cube iv) ∧
      (∀ stride ∈ strides, ∀ iv, InOutline stride iv → ∀ code,
        Assigns n stride iv code ↔ ∃ cube ∈ cubes, Assigns n cube iv code) ∧
      ∀ stride ∈ strides, ∀ other ∈ strides, ∀ dim,
        (∀ before < dim, outline n stride before = outline n other before) →
        outline n stride dim ≠ outline n other dim →
        (outline n stride dim).2 ≤ (outline n other dim).1 ∨
          (outline n other dim).2 ≤ (outline n stride dim).1 := by
  obtain ⟨rounds, strides, done, invariant, unsplit⟩ := split_wl_run cubes cubes tiles.invariant
  refine ⟨rounds, strides, done, invariant.assigns_iff tiles.regular, invariant.covered,
    invariant.agrees, ?_⟩
  intro stride member other member' dim before differ
  exact unsplit_bounds (invariant.regular stride member) (invariant.regular other member')
    (unsplit stride member other member') dim before differ

/-- A grid of rows with all columns from `bound1` to `bound2`. -/
def rowGrid (bound1 bound2 : Int) (grid : Grid Nat) : Grid (Cube Nat 1) :=
  ⟨grid.bound1, grid.bound2,
    (⟨bound1, bound2, 1, [⟨0, 1, some grid.inner⟩], List.cons_ne_nil _ _⟩ : Stride (Cube Nat 0))⟩

def rows (bound1 bound2 step from1 to2 : Int) (first : Grid Nat) (rest : List (Grid Nat)) :
    Cube Nat 2 :=
  (⟨bound1, bound2, step, (first :: rest).map (rowGrid from1 to2), List.cons_ne_nil _ _⟩ :
    Stride (Cube Nat 1))

/-- The first column alternates between two codes, and the other two are cut in halves. -/
def quarters : List (Cube Nat 2) :=
  [rows 0 4 3 0 1 ⟨0, 2, 1⟩ [⟨2, 3, 2⟩], rows 0 2 1 1 3 ⟨0, 1, 3⟩ [], rows 2 4 1 1 3 ⟨0, 1, 4⟩ []]

example : (splitWl 2 quarters).map (List.map fun stride => outline 2 stride 0) =
    some [(0, 2), (0, 2), (2, 4), (2, 4)] := by
  decide

theorem in_rows_iff (bound1 bound2 step from1 to2 : Int) (first : Grid Nat)
    (rest : List (Grid Nat)) (iv : Fin 2 → Int) :
    InOutline (rows bound1 bound2 step from1 to2 first rest) iv ↔
      (bound1 ≤ iv 0 ∧ iv 0 < bound2) ∧ from1 ≤ iv 1 ∧ iv 1 < to2 :=
  Fin.forall_fin_two

theorem rows_regular (bound1 bound2 step from1 to2 : Int) (first : Grid Nat)
    (rest : List (Grid Nat)) (nonempty : bound1 < bound2) (columns : from1 < to2)
    (apart : (first :: rest).Pairwise Grid.Apart)
    (within : ∀ grid ∈ first :: rest, grid.Within step) :
    Regular 2 (rows bound1 bound2 step from1 to2 first rest) := by
  refine ⟨nonempty, (List.pairwise_map (f := rowGrid from1 to2)).mpr apart, fun grid member => ?_⟩
  obtain ⟨source, inSource, rfl⟩ := (List.mem_map (f := rowGrid from1 to2)).mp member
  refine ⟨within source inSource, ⟨columns, List.pairwise_singleton _ _, fun inner here => ?_⟩, rfl⟩
  obtain rfl := List.mem_singleton.mp here
  exact ⟨⟨le_rfl, Int.one_pos, le_rfl⟩, trivial, rfl⟩

theorem quarters_tile : TileBox quarters fun dim => if dim = 0 then (0, 4) else (0, 3) := by
  constructor
  · simp only [quarters, List.forall_mem_cons]
    refine ⟨rows_regular _ _ _ _ _ _ _ (by decide) (by decide) ?_ ?_,
      rows_regular _ _ _ _ _ _ _ (by decide) (by decide) ?_ ?_,
      rows_regular _ _ _ _ _ _ _ (by decide) (by decide) ?_ ?_, by simp⟩
    all_goals simp [Grid.Apart, Grid.Covers, Grid.Within]
    omega
  · simp only [quarters, List.pairwise_cons, List.forall_mem_cons, in_rows_iff, List.not_mem_nil,
      false_implies, implies_true, List.Pairwise.nil, and_true]
    refine ⟨⟨fun iv => ?_, fun iv => ?_⟩, fun iv => ?_⟩ <;> omega
  · intro iv
    simp only [quarters, List.exists_mem_cons_iff, in_rows_iff, Fin.forall_fin_two]
    simp
    omega

theorem quarters_split : ∃ rounds strides, splitWl rounds quarters = some strides ∧
    (∀ iv code, (∃ stride ∈ strides, Assigns 2 stride iv code) ↔
      ∃ cube ∈ quarters, Assigns 2 cube iv code) := by
  obtain ⟨rounds, strides, done, same, _⟩ := split_wl_preserves quarters _ quarters_tile
  exact ⟨rounds, strides, done, same⟩

end Tilings

end Sac2c.CubeSplitting
