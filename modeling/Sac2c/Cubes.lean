import Mathlib.Data.Fin.Tuple.Basic
import Mathlib.Data.List.Basic
import Mathlib.Data.List.Pairwise
import Mathlib.Tactic.Common

/-!
Cubes of wltransform/wltransform.c: constant strides in every dimension, with grids
that lead to the next dimension or to code. Their sort order, the insertion into
sorted chains that frees what is there already, and new bounds for a dimension.
-/

namespace Sac2c.Cubes

variable {Code : Type}

/-- N_wlgrid. -/
structure Grid (Inner : Type) where
  bound1 : Int
  bound2 : Int
  /-- WLGRID_NEXTDIM, in the last dimension WLGRID_CODE -/
  inner : Inner

/-- N_wlstride with constant bounds. -/
structure Stride (Inner : Type) where
  bound1 : Int
  bound2 : Int
  step : Int
  contents : List (Grid Inner)
  nonempty : contents ≠ []

def Stride.first {Inner : Type} (stride : Stride Inner) : Grid Inner :=
  stride.contents.head stride.nonempty

theorem Stride.first_mem {Inner : Type} (stride : Stride Inner) :
    stride.first ∈ stride.contents :=
  List.head_mem stride.nonempty

/-- The stride in `n` dimensions that a chain of cubes consists of. Beyond the last dimension
there is the code of a grid, if it has one. -/
def Cube (Code : Type) : Nat → Type
  | 0 => Option Code
  | n + 1 => Stride (Cube Code n)

section Meaning

def Grid.Covers {Inner : Type} (grid : Grid Inner) (offset : Int) : Prop :=
  grid.bound1 ≤ offset ∧ offset < grid.bound2

/-- What the cube executes at an index vector. -/
def Assigns : (n : Nat) → Cube Code n → (Fin n → Int) → Code → Prop
  | 0, code, _, executed => code = some executed
  | n + 1, (stride : Stride (Cube Code n)), iv, executed =>
      stride.bound1 ≤ iv 0 ∧ iv 0 < stride.bound2 ∧ ∃ grid ∈ stride.contents,
        grid.Covers ((iv 0 - stride.bound1) % stride.step) ∧
          Assigns n grid.inner (Fin.tail iv) executed

/-- The bounds in all dimensions. They are read off the first grids. -/
def outline : (n : Nat) → Cube Code n → Fin n → Int × Int
  | 0, _ => fun dim => dim.elim0
  | n + 1, (stride : Stride (Cube Code n)) =>
      Fin.cons (stride.bound1, stride.bound2) (outline n stride.first.inner)

theorem outline_succ (n : Nat) (stride : Stride (Cube Code n)) : outline (n + 1) stride =
    Fin.cons (stride.bound1, stride.bound2) (outline n stride.first.inner) :=
  rfl

def InOutline {n : Nat} (cube : Cube Code n) (iv : Fin n → Int) : Prop :=
  ∀ dim, (outline n cube dim).1 ≤ iv dim ∧ iv dim < (outline n cube dim).2

/-- A grid that is not empty and that ends within the step. -/
def Grid.Within {Inner : Type} (step : Int) (grid : Grid Inner) : Prop :=
  0 ≤ grid.bound1 ∧ grid.bound1 < grid.bound2 ∧ grid.bound2 ≤ step

def Grid.Apart {Inner : Type} (grid grid' : Grid Inner) : Prop :=
  ∀ offset, grid.Covers offset → ¬ grid'.Covers offset

theorem Grid.Apart.symm {Inner : Type} {grid grid' : Grid Inner} (apart : grid.Apart grid') :
    grid'.Apart grid :=
  fun offset covered other => apart offset other covered

instance {Inner : Type} : Std.Symm (@Grid.Apart Inner) := ⟨fun _ _ => Grid.Apart.symm⟩

/-- No stride and no grid is empty, the grids of a stride do not overlap, and the bounds of
the strides of a dimension are the same in all grids. -/
def Regular : (n : Nat) → Cube Code n → Prop
  | 0, _ => True
  | n + 1, (stride : Stride (Cube Code n)) =>
      stride.bound1 < stride.bound2 ∧ stride.contents.Pairwise Grid.Apart ∧
        ∀ grid ∈ stride.contents, grid.Within stride.step ∧ Regular n grid.inner ∧
          outline n grid.inner = outline n stride.first.inner

theorem assigns_inside (n : Nat) (cube : Cube Code n) (regular : Regular n cube)
    (iv : Fin n → Int) (code : Code) (executes : Assigns n cube iv code) : InOutline cube iv := by
  induction n with
  | zero => exact fun dim => dim.elim0
  | succ n ih =>
      obtain ⟨lower, upper, grid, member, _, executes⟩ := executes
      obtain ⟨_, inner, same⟩ := regular.2.2 grid member
      have deeper := ih grid.inner inner (Fin.tail iv) executes
      intro dim
      cases dim using Fin.cases with
      | zero => exact ⟨lower, upper⟩
      | succ dim =>
          have inside := deeper dim
          rw [same] at inside
          exact inside

end Meaning

section SortOrder

/-- COMP_BEGIN and COMP_END. -/
def comp (a b inc result : Int) : Int :=
  if a > b then inc else if a < b then -inc else result

/-- CompareWlNode for strides. -/
def compareStrides (isOutline : Bool) : (n : Nat) → Cube Code n → Cube Code n → Int
  | 0, _, _ => 0
  | n + 1, (stride1 : Stride (Cube Code n)), (stride2 : Stride (Cube Code n)) =>
      comp stride1.bound1 stride2.bound1 2 <| comp stride1.bound2 stride2.bound2 2 <|
        let grid1 := stride1.first
        let grid2 := stride2.first
        let result := compareStrides isOutline n grid1.inner grid2.inner
        -- the grids count only if the outlines of the later dimensions are equal
        if !isOutline && result.natAbs ≠ 2 then
          comp grid1.bound1 grid2.bound1 1 <| comp grid1.bound2 grid2.bound2 1 0
        else result

/-- CompareWlNode for grids. -/
def compareGrids (isOutline : Bool) (n : Nat) (grid1 grid2 : Grid (Cube Code n)) : Int :=
  comp grid1.bound1 grid2.bound1 2 <| comp grid1.bound2 grid2.bound2 2 <|
    compareStrides isOutline n grid1.inner grid2.inner

variable {Node : Type}

def insertWlNode (compare : Node → Node → Int) (node : Node) : List Node → List Node
  | [] => [node]
  | first :: rest =>
      if compare node first < 0 then node :: first :: rest
      -- the node exists already and is freed
      else if compare node first = 0 then first :: rest
      else first :: insertWlNode compare node rest

def insertWlNodes (compare : Node → Node → Int) (nodes insertNodes : List Node) : List Node :=
  insertNodes.foldl (fun nodes node => insertWlNode compare node nodes) nodes

theorem insert_ne_nil (compare : Node → Node → Int) (node : Node) (nodes : List Node) :
    insertWlNode compare node nodes ≠ [] := by
  cases nodes with
  | nil => exact List.cons_ne_nil _ _
  | cons first rest =>
      rw [insertWlNode]
      split_ifs <;> exact List.cons_ne_nil _ _

theorem mem_of_mem_insert (compare : Node → Node → Int) (node : Node) (nodes : List Node)
    (other : Node) (member : other ∈ insertWlNode compare node nodes) :
    other = node ∨ other ∈ nodes := by
  induction nodes with
  | nil => exact Or.inl (List.mem_singleton.mp member)
  | cons first rest ih =>
      rw [insertWlNode] at member
      split_ifs at member
      · exact List.mem_cons.mp member
      · exact Or.inr member
      · rcases List.mem_cons.mp member with rfl | later
        · exact Or.inr List.mem_cons_self
        · exact (ih later).imp_right (List.mem_cons_of_mem _)

theorem mem_insert (compare : Node → Node → Int) (node : Node) (nodes : List Node) (other : Node)
    (member : other ∈ nodes) : other ∈ insertWlNode compare node nodes := by
  induction nodes with
  | nil => cases member
  | cons first rest ih =>
      rw [insertWlNode]
      split_ifs
      · exact List.mem_cons_of_mem _ member
      · exact member
      · rcases List.mem_cons.mp member with rfl | later
        · exact List.mem_cons_self
        · exact List.mem_cons_of_mem _ (ih later)

/-- The node or one that it does not differ from. -/
theorem insert_found (compare : Node → Node → Int) (node : Node) (nodes : List Node) :
    node ∈ insertWlNode compare node nodes ∨
      ∃ other ∈ insertWlNode compare node nodes, compare node other = 0 := by
  induction nodes with
  | nil => exact Or.inl (List.mem_singleton.mpr rfl)
  | cons first rest ih =>
      rw [insertWlNode]
      split_ifs with before same
      · exact Or.inl List.mem_cons_self
      · exact Or.inr ⟨first, List.mem_cons_self, same⟩
      · exact ih.imp (List.mem_cons_of_mem _) fun ⟨other, member, equal⟩ =>
          ⟨other, List.mem_cons_of_mem _ member, equal⟩

theorem inserts_ne_nil (compare : Node → Node → Int) (nodes insertNodes : List Node)
    (some : nodes ≠ [] ∨ insertNodes ≠ []) : insertWlNodes compare nodes insertNodes ≠ [] := by
  induction insertNodes generalizing nodes with
  | nil => exact some.resolve_right fun other => other rfl
  | cons node rest ih => exact ih _ (Or.inl (insert_ne_nil compare node nodes))

/-- What is inserted is not found if it compares unequal to everything there. -/
theorem insert_perm (compare : Node → Node → Int) (node : Node) (nodes : List Node)
    (fresh : ∀ other ∈ nodes, compare node other ≠ 0) :
    (insertWlNode compare node nodes).Perm (node :: nodes) := by
  induction nodes with
  | nil => exact List.Perm.refl _
  | cons first rest ih =>
      rw [insertWlNode]
      split_ifs with before same
      · exact List.Perm.refl _
      · exact absurd same (fresh first List.mem_cons_self)
      · have later := ih fun other member => fresh other (List.mem_cons_of_mem _ member)
        exact (later.cons first).trans (List.Perm.swap node first rest)

theorem inserts_perm (compare : Node → Node → Int) (Apart : Node → Node → Prop)
    (symm : ∀ {node other}, Apart node other → Apart other node)
    (differ : ∀ node other, Apart node other → compare node other ≠ 0)
    (nodes insertNodes : List Node) (apart : (nodes ++ insertNodes).Pairwise Apart) :
    (insertWlNodes compare nodes insertNodes).Perm (nodes ++ insertNodes) := by
  induction insertNodes generalizing nodes with
  | nil => rw [List.append_nil]; rfl
  | cons node rest ih =>
      have across := (List.pairwise_append.mp apart).2.2
      have inserted := insert_perm compare node nodes fun other member =>
        differ node other (symm (across other member node List.mem_cons_self))
      have moved : (insertWlNode compare node nodes ++ rest).Perm (nodes ++ node :: rest) :=
        (inserted.append_right rest).trans List.perm_middle.symm
      exact (ih _ ((moved.pairwise_iff symm).mpr apart)).trans moved

theorem comp_two {a b result : Int} (near : (comp a b 2 result).natAbs ≠ 2) :
    a = b ∧ result.natAbs ≠ 2 := by
  unfold comp at near
  split_ifs at near with above below
  · exact absurd rfl near
  · exact absurd rfl near
  · exact ⟨by omega, near⟩

/-- The outlines are equal unless one of them is before the other. -/
theorem outline_of_compare (isOutline : Bool) (n : Nat) (cube1 cube2 : Cube Code n)
    (near : (compareStrides isOutline n cube1 cube2).natAbs ≠ 2) :
    outline n cube1 = outline n cube2 := by
  induction n with
  | zero => exact funext fun dim => dim.elim0
  | succ n ih =>
      obtain ⟨same1, near⟩ := comp_two near
      obtain ⟨same2, near⟩ := comp_two near
      have later : (compareStrides isOutline n cube1.first.inner
          cube2.first.inner).natAbs ≠ 2 := by
        intro apart
        simp [apart] at near
      rw [outline_succ n cube1, outline_succ n cube2, ih _ _ later, same1, same2]

theorem bounds_of_compare (isOutline : Bool) (n : Nat) (grid1 grid2 : Grid (Cube Code n))
    (same : compareGrids isOutline n grid1 grid2 = 0) :
    grid1.bound1 = grid2.bound1 ∧ grid1.bound2 = grid2.bound2 := by
  have near : (compareGrids isOutline n grid1 grid2).natAbs ≠ 2 := by
    rw [same]
    decide
  obtain ⟨same1, near⟩ := comp_two near
  exact ⟨same1, (comp_two near).1⟩

end SortOrder

section NewBounds
variable {Inner : Type}

/-- WLTRAgridOffset. -/
def gridOffset (newBound1 bound1 step gridB2 : Int) : Int :=
  let offset := (newBound1 - bound1).tmod step
  if offset ≥ gridB2 then offset - step else offset

/-- The grid after its stride has got another lower bound: still in one piece, or in two. -/
def correctGrid (newBound1 bound1 step : Int) (grid : Grid Inner) : List (Grid Inner) :=
  let offset := gridOffset newBound1 bound1 step grid.bound2
  if offset ≤ grid.bound1 then
    [{ grid with bound1 := grid.bound1 - offset, bound2 := grid.bound2 - offset }]
  else
    [{ grid with bound1 := 0, bound2 := grid.bound2 - offset },
      { grid with bound1 := grid.bound1 - offset + step, bound2 := step }]

def correctGrids (n : Nat) (newBound1 bound1 step : Int) (grids : List (Grid (Cube Code n))) :
    List (Grid (Cube Code n)) :=
  grids.foldl (fun newGrids grid =>
    insertWlNodes (compareGrids false n) newGrids (correctGrid newBound1 bound1 step grid)) []

theorem correct_grid_ne_nil (newBound1 bound1 step : Int) (grid : Grid Inner) :
    correctGrid newBound1 bound1 step grid ≠ [] := by
  unfold correctGrid
  dsimp only
  split_ifs <;> exact List.cons_ne_nil _ _

theorem correct_grids_eq (n : Nat) (newBound1 bound1 step : Int)
    (grids : List (Grid (Cube Code n))) : correctGrids n newBound1 bound1 step grids =
      insertWlNodes (compareGrids false n) []
        (grids.flatMap (correctGrid newBound1 bound1 step)) := by
  rw [insertWlNodes, List.foldl_flatMap]
  rfl

theorem correct_grids_ne_nil (n : Nat) (newBound1 bound1 step : Int)
    (grids : List (Grid (Cube Code n))) (nonempty : grids ≠ []) :
    correctGrids n newBound1 bound1 step grids ≠ [] := by
  rw [correct_grids_eq]
  apply inserts_ne_nil
  right
  obtain ⟨grid, rest, rfl⟩ := List.exists_cons_of_ne_nil nonempty
  rw [List.flatMap_cons]
  exact List.append_ne_nil_of_left_ne_nil (correct_grid_ne_nil _ _ _ grid) _

/-- NewBoundsStride: the new bounds are set in all strides of dimension `dim`. -/
def newBoundsStride : (n : Nat) → Fin n → Int → Int → Cube Code n → Cube Code n
  | n + 1, ⟨0, _⟩, newBound1, newBound2, (stride : Stride (Cube Code n)) =>
      if stride.bound1 ≠ newBound1 then
        { bound1 := newBound1
          bound2 := newBound2
          step := stride.step
          contents := correctGrids n newBound1 stride.bound1 stride.step stride.contents
          nonempty := correct_grids_ne_nil _ _ _ _ _ stride.nonempty : Stride (Cube Code n) }
      else { stride with bound2 := newBound2 }
  | n + 1, ⟨dim + 1, inside⟩, newBound1, newBound2, (stride : Stride (Cube Code n)) =>
      { stride with
        contents := stride.contents.map fun grid =>
          { grid with
            inner := newBoundsStride n ⟨dim, Nat.lt_of_succ_lt_succ inside⟩ newBound1 newBound2
              grid.inner }
        nonempty := fun none => stride.nonempty (List.map_eq_nil_iff.mp none) }

/-- Offsets from the new lower bound against offsets from the old one. -/
theorem offset_moved (step bound1 newBound1 x : Int) (positive : 0 < step) :
    (x - newBound1) % step = (x - bound1) % step - (newBound1 - bound1) % step ∨
      (x - newBound1) % step = (x - bound1) % step - (newBound1 - bound1) % step + step := by
  have old := Int.emod_nonneg (x - bound1) positive.ne'
  have oldLt := Int.emod_lt_of_pos (x - bound1) positive
  have move := Int.emod_nonneg (newBound1 - bound1) positive.ne'
  have moveLt := Int.emod_lt_of_pos (newBound1 - bound1) positive
  have split : x - newBound1 = x - bound1 - (newBound1 - bound1) := by omega
  rw [split, Int.sub_emod]
  generalize (x - bound1) % step = offset at old oldLt ⊢
  generalize (newBound1 - bound1) % step = shift at move moveLt ⊢
  by_cases after : shift ≤ offset
  · left
    exact Int.emod_eq_of_lt (by omega) (by omega)
  · right
    rw [← Int.add_emod_right]
    exact Int.emod_eq_of_lt (by omega) (by omega)

variable {step bound1 newBound1 : Int} {grid : Grid Inner}

theorem Grid.Within.positive (within : grid.Within step) : 0 < step := by
  obtain ⟨lower, wide, upper⟩ := within
  omega

theorem grid_offset_eq (gridB2 : Int) (forward : bound1 ≤ newBound1) :
    gridOffset newBound1 bound1 step gridB2 =
      if (newBound1 - bound1) % step ≥ gridB2 then (newBound1 - bound1) % step - step
      else (newBound1 - bound1) % step := by
  rw [gridOffset, Int.tmod_eq_emod_of_nonneg (by omega)]

theorem correct_grid_inner (piece : Grid Inner)
    (member : piece ∈ correctGrid newBound1 bound1 step grid) : piece.inner = grid.inner := by
  unfold correctGrid at member
  dsimp only at member
  split_ifs at member
  · rw [List.mem_singleton.mp member]
  · rcases List.mem_pair.mp member with rfl | rfl <;> rfl

theorem correct_grid_within (within : grid.Within step) (forward : bound1 ≤ newBound1) :
    ∀ piece ∈ correctGrid newBound1 bound1 step grid, piece.Within step := by
  have shift := Int.emod_nonneg (newBound1 - bound1) within.positive.ne'
  have shiftLt := Int.emod_lt_of_pos (newBound1 - bound1) within.positive
  obtain ⟨lower, wide, upper⟩ := within
  intro piece member
  unfold correctGrid at member
  rw [grid_offset_eq grid.bound2 forward] at member
  dsimp only at member
  split_ifs at member with late one one
  · obtain rfl := List.mem_singleton.mp member
    exact ⟨by dsimp only; omega, by dsimp only; omega, by dsimp only; omega⟩
  · omega
  · obtain rfl := List.mem_singleton.mp member
    exact ⟨by dsimp only; omega, by dsimp only; omega, by dsimp only; omega⟩
  · rcases List.mem_pair.mp member with rfl | rfl
    · exact ⟨by dsimp only; omega, by dsimp only; omega, by dsimp only; omega⟩
    · exact ⟨by dsimp only; omega, by dsimp only; omega, by dsimp only; omega⟩

/-- The pieces cover the same indices as the grid did. -/
theorem correct_grid_covers (within : grid.Within step) (forward : bound1 ≤ newBound1) (x : Int) :
    (∃ piece ∈ correctGrid newBound1 bound1 step grid, piece.Covers ((x - newBound1) % step)) ↔
      grid.Covers ((x - bound1) % step) := by
  have old := Int.emod_nonneg (x - bound1) within.positive.ne'
  have oldLt := Int.emod_lt_of_pos (x - bound1) within.positive
  have new := Int.emod_nonneg (x - newBound1) within.positive.ne'
  have newLt := Int.emod_lt_of_pos (x - newBound1) within.positive
  have shift := Int.emod_nonneg (newBound1 - bound1) within.positive.ne'
  have shiftLt := Int.emod_lt_of_pos (newBound1 - bound1) within.positive
  have moved := offset_moved step bound1 newBound1 x within.positive
  unfold correctGrid
  rw [grid_offset_eq grid.bound2 forward]
  obtain ⟨lower, wide, upper⟩ := within
  dsimp only
  split_ifs with late one one
  · simp only [List.mem_singleton, exists_eq_left, Grid.Covers]
    omega
  · omega
  · simp only [List.mem_singleton, exists_eq_left, Grid.Covers]
    omega
  · simp only [List.mem_cons, List.not_mem_nil, or_false, exists_eq_or_imp, exists_eq_left,
      Grid.Covers]
    omega

theorem correct_grids_apart {grids : List (Grid Inner)} (apart : grids.Pairwise Grid.Apart)
    (within : ∀ grid ∈ grids, grid.Within step) (forward : bound1 ≤ newBound1) :
    (grids.flatMap (correctGrid newBound1 bound1 step)).Pairwise Grid.Apart := by
  apply List.pairwise_flatMap.mpr
  constructor
  · intro grid member
    obtain ⟨lower, wide, upper⟩ := within grid member
    unfold correctGrid
    dsimp only
    split_ifs
    · exact List.pairwise_singleton _ _
    · apply List.pairwise_pair.mpr
      rintro offset ⟨_, below⟩ ⟨above, _⟩
      dsimp only at below above
      omega
  · apply List.Pairwise.imp_of_mem _ apart
    intro grid grid' member member' apart piece memberP piece' memberP' offset covered covered'
    have withinG := within grid member
    have range := correct_grid_within withinG forward piece memberP
    have here : (newBound1 + offset - newBound1) % step = offset := by
      rw [show newBound1 + offset - newBound1 = offset by omega]
      exact Int.emod_eq_of_lt (range.1.trans covered.1) (covered.2.trans_le range.2.2)
    have old := (correct_grid_covers withinG forward (newBound1 + offset)).mp
      ⟨piece, memberP, here.symm ▸ covered⟩
    have old' := (correct_grid_covers (within grid' member') forward (newBound1 + offset)).mp
      ⟨piece', memberP', here.symm ▸ covered'⟩
    exact apart _ old old'

/-- No piece is freed if the pieces do not overlap and only equal bounds compare equal. -/
theorem inserts_apart_perm (compare : Grid Inner → Grid Inner → Int)
    (bounds : ∀ grid1 grid2, compare grid1 grid2 = 0 →
      grid1.bound1 = grid2.bound1 ∧ grid1.bound2 = grid2.bound2) {pieces : List (Grid Inner)}
    (wide : ∀ piece ∈ pieces, piece.bound1 < piece.bound2) (apart : pieces.Pairwise Grid.Apart) :
    (insertWlNodes compare [] pieces).Perm pieces := by
  apply inserts_perm compare fun piece other =>
    piece.Apart other ∧ piece.bound1 < piece.bound2 ∧ other.bound1 < other.bound2
  · rintro piece other ⟨noOverlap, here, there⟩
    exact ⟨noOverlap.symm, there, here⟩
  · rintro piece other ⟨noOverlap, here, _⟩ same
    obtain ⟨same1, same2⟩ := bounds piece other same
    exact noOverlap piece.bound1 ⟨le_rfl, here⟩ ⟨same1.ge, same2 ▸ here⟩
  · exact List.Pairwise.imp_of_mem (fun member member' noOverlap =>
      ⟨noOverlap, wide _ member, wide _ member'⟩) apart

theorem correct_grids_perm (n : Nat) {grids : List (Grid (Cube Code n))}
    (apart : grids.Pairwise Grid.Apart) (within : ∀ grid ∈ grids, grid.Within step)
    (forward : bound1 ≤ newBound1) : (correctGrids n newBound1 bound1 step grids).Perm
      (grids.flatMap (correctGrid newBound1 bound1 step)) := by
  rw [correct_grids_eq]
  apply inserts_apart_perm _ (bounds_of_compare false n)
  · intro piece member
    obtain ⟨grid, inGrids, inPieces⟩ := List.mem_flatMap.mp member
    exact (correct_grid_within (within grid inGrids) forward piece inPieces).2.1
  · exact correct_grids_apart apart within forward

theorem mem_correct_grids (n : Nat) {grids : List (Grid (Cube Code n))}
    (apart : grids.Pairwise Grid.Apart) (within : ∀ grid ∈ grids, grid.Within step)
    (forward : bound1 ≤ newBound1) (piece : Grid (Cube Code n)) :
    piece ∈ correctGrids n newBound1 bound1 step grids ↔
      ∃ grid ∈ grids, piece ∈ correctGrid newBound1 bound1 step grid := by
  rw [(correct_grids_perm n apart within forward).mem_iff, List.mem_flatMap]

/-- `new` is what the cube is between the bounds in dimension `dim`. -/
structure Restricts {n : Nat} (cube new : Cube Code n) (dim : Fin n) (bound1 bound2 : Int) :
    Prop where
  regular : Regular n new
  outline_eq : outline n new = Function.update (outline n cube) dim (bound1, bound2)
  assigns_iff : ∀ iv code, Assigns n new iv code ↔
    Assigns n cube iv code ∧ bound1 ≤ iv dim ∧ iv dim < bound2

theorem new_bounds_zero (n : Nat) (newBound1 newBound2 : Int) (stride : Cube Code (n + 1))
    (regular : Regular (n + 1) stride) (lower : stride.bound1 ≤ newBound1)
    (wide : newBound1 < newBound2) (upper : newBound2 ≤ stride.bound2) :
    Restricts stride (newBoundsStride (n + 1) 0 newBound1 newBound2 stride) 0 newBound1
      newBound2 := by
  obtain ⟨_, apart, grids⟩ := regular
  have within (grid : Grid (Cube Code n)) (member : grid ∈ stride.contents) :=
    (grids grid member).1
  by_cases moved : stride.bound1 ≠ newBound1
  · let new : Stride (Cube Code n) := ⟨newBound1, newBound2, stride.step,
      correctGrids n newBound1 stride.bound1 stride.step stride.contents,
      correct_grids_ne_nil _ _ _ _ _ stride.nonempty⟩
    have result : newBoundsStride (n + 1) 0 newBound1 newBound2 stride = new := if_pos moved
    have mem := mem_correct_grids n apart within lower
    have deeper (piece : Grid (Cube Code n)) (member : piece ∈ new.contents) :
        piece.Within stride.step ∧ Regular n piece.inner ∧
          outline n piece.inner = outline n stride.first.inner := by
      obtain ⟨grid, inGrids, inPieces⟩ := (mem piece).mp member
      have range := correct_grid_within (within grid inGrids) lower piece inPieces
      rw [correct_grid_inner piece inPieces]
      exact ⟨range, (grids grid inGrids).2⟩
    have apartNew : new.contents.Pairwise Grid.Apart :=
      ((correct_grids_perm n apart within lower).pairwise_iff Grid.Apart.symm).mpr
        (correct_grids_apart apart within lower)
    have first := (deeper new.first new.first_mem).2.2
    rw [result]
    constructor
    · refine ⟨wide, apartNew, fun piece member => ?_⟩
      obtain ⟨range, inner, same⟩ := deeper piece member
      exact ⟨range, inner, same.trans first.symm⟩
    · rw [outline_succ n new, outline_succ n stride, first, Fin.update_cons_zero]
    · intro iv code
      have covers (grid : Grid (Cube Code n)) (member : grid ∈ stride.contents) :=
        correct_grid_covers (within grid member) lower (iv 0)
      constructor
      · rintro ⟨from1, to2, piece, member, covered, executes⟩
        obtain ⟨grid, inGrids, inPieces⟩ := (mem piece).mp member
        rw [correct_grid_inner piece inPieces] at executes
        have old := (covers grid inGrids).mp ⟨piece, inPieces, covered⟩
        exact ⟨⟨lower.trans from1, to2.trans_le upper, grid, inGrids, old, executes⟩, from1, to2⟩
      · rintro ⟨⟨_, _, grid, inGrids, covered, executes⟩, from1, to2⟩
        obtain ⟨piece, inPieces, found⟩ := (covers grid inGrids).mpr covered
        rw [← correct_grid_inner piece inPieces] at executes
        exact ⟨from1, to2, piece, (mem piece).mpr ⟨grid, inGrids, inPieces⟩, found, executes⟩
  · have same : stride.bound1 = newBound1 := not_not.mp moved
    have result : newBoundsStride (n + 1) 0 newBound1 newBound2 stride =
        ({ stride with bound2 := newBound2 } : Stride (Cube Code n)) := if_neg moved
    rw [result]
    constructor
    · exact ⟨same.trans_lt wide, apart, grids⟩
    · rw [outline_succ n stride, Fin.update_cons_zero, ← same]
      rfl
    · intro iv code
      constructor
      · rintro ⟨from1, to2, inside⟩
        exact ⟨⟨from1, to2.trans_le upper, inside⟩, same ▸ from1, to2⟩
      · rintro ⟨⟨from1, _, inside⟩, _, to2⟩
        exact ⟨from1, to2, inside⟩

theorem new_bounds_restricts (n : Nat) (dim : Fin n) (newBound1 newBound2 : Int)
    (cube : Cube Code n) (regular : Regular n cube) (lower : (outline n cube dim).1 ≤ newBound1)
    (wide : newBound1 < newBound2) (upper : newBound2 ≤ (outline n cube dim).2) :
    Restricts cube (newBoundsStride n dim newBound1 newBound2 cube) dim newBound1 newBound2 := by
  induction n with
  | zero => exact dim.elim0
  | succ n ih =>
      cases dim using Fin.cases with
      | zero => exact new_bounds_zero n newBound1 newBound2 cube regular lower wide upper
      | succ dim =>
          obtain ⟨nonempty, apart, grids⟩ := regular
          let deepen (grid : Grid (Cube Code n)) : Grid (Cube Code n) :=
            { grid with inner := newBoundsStride n dim newBound1 newBound2 grid.inner }
          let new : Stride (Cube Code n) := ⟨cube.bound1, cube.bound2, cube.step,
            cube.contents.map deepen, fun none => cube.nonempty (List.map_eq_nil_iff.mp none)⟩
          have result : newBoundsStride (n + 1) dim.succ newBound1 newBound2 cube = new := rfl
          have inner (grid : Grid (Cube Code n)) (member : grid ∈ cube.contents) :
              Restricts grid.inner (deepen grid).inner dim newBound1 newBound2 := by
            have same := (grids grid member).2.2
            exact ih dim grid.inner (grids grid member).2.1 (same ▸ lower) (same ▸ upper)
          have first : new.first = deepen cube.first := List.head_map _
          have outlines (grid : Grid (Cube Code n)) (member : grid ∈ cube.contents) :
              outline n (deepen grid).inner =
                Function.update (outline n cube.first.inner) dim (newBound1, newBound2) := by
            rw [(inner grid member).outline_eq, (grids grid member).2.2]
          rw [result]
          constructor
          · refine ⟨nonempty, List.pairwise_map.mpr apart, fun piece member => ?_⟩
            obtain ⟨grid, inGrids, rfl⟩ := List.mem_map.mp member
            rw [outlines grid inGrids, first, outlines cube.first cube.first_mem]
            exact ⟨(grids grid inGrids).1, (inner grid inGrids).regular, rfl⟩
          · rw [outline_succ n new, outline_succ n cube, first, outlines cube.first cube.first_mem,
              Fin.cons_update]
          · intro iv code
            constructor
            · rintro ⟨from1, to2, piece, member, covered, executes⟩
              obtain ⟨grid, inGrids, rfl⟩ := List.mem_map.mp member
              obtain ⟨old, range⟩ := ((inner grid inGrids).assigns_iff _ code).mp executes
              exact ⟨⟨from1, to2, grid, inGrids, covered, old⟩, range⟩
            · rintro ⟨⟨from1, to2, grid, inGrids, covered, executes⟩, range⟩
              exact ⟨from1, to2, deepen grid, List.mem_map_of_mem inGrids, covered,
                ((inner grid inGrids).assigns_iff _ code).mpr ⟨executes, range⟩⟩

end NewBounds

end Sac2c.Cubes
