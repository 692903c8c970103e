import Mathlib.Order.MinMax
import Sac2c.Cubes

/-!
IntersectStridesArray of wltransform/wlpragma_funs.c: the part of the cubes that lies in the
box of a constant segment, after the gaps between the grids have been filled with noop grids.
The counter of the code is increased for each new grid, also where WLGRID_CODE is NULL.
-/

namespace Sac2c.SegmentBoxes

open Cubes

section Model

/-- WLGRID_ISNOOP, and WLGRID_NEXTDIM or in the last dimension WLGRID_CODE, which is none in a
noop grid. -/
structure Content (Inner : Type) where
  isNoop : Bool
  son : Option Inner
  deriving DecidableEq

structure Stride (Inner : Type) where
  bound1 : Int
  bound2 : Int
  step : Int
  contents : List (Grid (Content Inner))

/-- A chain of strides in `n` dimensions, and beyond the last dimension the code of a grid. -/
def Chain (Code : Type) : Nat → Type
  | 0 => Code
  | n + 1 => List (Stride (Chain Code n))

variable {Inner Code : Type}

/-- CompareWlNode for the next dimensions of two grids, of which the first nodes count. -/
def compareNext : (n : Nat) → Option (Chain Code n) → Option (Chain Code n) → Int
  | 0, _, _ => 0
  | n + 1, (chain1 : Option (List (Stride (Chain Code n)))), chain2 =>
      match chain1.getD [], (chain2 : Option (List (Stride (Chain Code n)))).getD [] with
      | [], [] => 0
      | [], _ :: _ => -2
      | _ :: _, [] => 2
      | stride1 :: _, stride2 :: _ =>
          comp stride1.bound1 stride2.bound1 2 <| comp stride1.bound2 stride2.bound2 2 <|
            match stride1.contents, stride2.contents with
            | grid1 :: _, grid2 :: _ =>
                let result := compareNext n grid1.inner.son grid2.inner.son
                if result.natAbs ≠ 2 then
                  comp grid1.bound1 grid2.bound1 1 <| comp grid1.bound2 grid2.bound2 1 0
                else result
            -- a stride has a grid
            | _, _ => 0

/-- CompareWlNode for grids. -/
def compareGrids (compareNext : Option Inner → Option Inner → Int)
    (grid1 grid2 : Grid (Content Inner)) : Int :=
  comp grid1.bound1 grid2.bound1 2 <| comp grid1.bound2 grid2.bound2 2 <|
    compareNext grid1.inner.son grid2.inner.son

/-- CODE_INC_USED, which reads the node that it is called with. -/
def codeIncUsed : Option Code → Option Unit
  | none => none
  | some _ => some ()

/-- TBmakeWlgrid, with the bounds of a part within the width. The flags are not set. -/
def makeGrid (width bound1 bound2 : Int) (son : Option Inner) : Grid (Content Inner) :=
  ⟨bound1, min bound2 width, ⟨false, son⟩⟩

/-- The next dimension of a new grid; it is `some none` if that is empty. -/
def nextSon (isect : Inner → Option (Option Inner)) : Option Inner → Option (Option (Option Inner))
  | none => some (some none)
  | some inner => (isect inner).map (Option.map some)

/-- The loop over the grids of a stride, with the new grids so far. It is `some none` if the
intersection is empty in the next dimension, and none if an assertion fails or the counter of
no code is increased. `codeOf` is the code of a grid with this son. -/
def intersectGrids (isect : Inner → Option (Option Inner)) (codeOf : Option Inner → Option Code)
    (stride : Stride Inner) (bound1 width : Int) :
    List (Grid (Content Inner)) → List (Grid (Content Inner)) →
      Option (Option (List (Grid (Content Inner))))
  | [], newGrids => some (some newGrids)
  | grid :: grids, newGrids =>
      let offset := gridOffset bound1 stride.bound1 stride.step grid.bound2
      let whole := offset ≤ grid.bound1
      let grid1B1 := if whole then grid.bound1 - offset else 0
      let grid1B2 := grid.bound2 - offset
      let grid2B1 := if whole then width else grid.bound1 - (offset - stride.step)
      let grid2B2 := if whole then width else stride.step
      if grid1B1 < width then
        (nextSon isect grid.inner.son).bind fun
          | none => if newGrids = [] then some none else none
          | some son => do
              codeIncUsed (codeOf son)
              let newGrids := makeGrid width grid1B1 grid1B2 son :: newGrids
              if grid2B1 < width then do
                codeIncUsed (codeOf son)
                intersectGrids isect codeOf stride bound1 width grids
                  (makeGrid width grid2B1 grid2B2 son :: newGrids)
              else intersectGrids isect codeOf stride bound1 width grids newGrids
      else if grid2B1 < width then none
      else intersectGrids isect codeOf stride bound1 width grids newGrids

/-- IntersectStridesArray in one dimension, whose bounds are `lo` and `hi`. -/
def intersectChain (compareNext : Option Inner → Option Inner → Int)
    (isect : Inner → Option (Option Inner)) (codeOf : Option Inner → Option Code) (lo hi : Int) :
    List (Stride Inner) → Option (List (Stride Inner))
  | [] => some []
  | stride :: next => do
      let bound1 := max stride.bound1 lo
      let bound2 := min stride.bound2 hi
      let width := bound2 - bound1
      let step := min stride.step width
      let newGrids ← (if width > 0 then
        intersectGrids isect codeOf stride bound1 width stride.contents [] else some none)
      let next ← intersectChain compareNext isect codeOf lo hi next
      some (match newGrids with
        | none => next
        | some newGrids =>
            ⟨bound1, bound2, step, insertWlNodes (compareGrids compareNext) [] newGrids⟩ :: next)

/-- A chain without nodes is NULL. -/
def nullable {Node : Type} : List Node → Option (List Node)
  | [] => none
  | node :: nodes => some (node :: nodes)

/-- IntersectStridesArray. -/
def intersectStridesArray : (n : Nat) → (lo hi : Fin (n + 1) → Int) → Chain Code (n + 1) →
    Option (Chain Code (n + 1))
  | 0, lo, hi =>
      intersectChain (compareNext 0) (fun code => some (some code)) (fun code : Option Code => code)
        (lo 0) (hi 0)
  | n + 1, lo, hi =>
      intersectChain (compareNext (n + 1))
        (fun nextdim => (intersectStridesArray n (Fin.tail lo) (Fin.tail hi) nextdim).map nullable)
        (fun _ => (none : Option Code)) (lo 0) (hi 0)

end Model

section Meaning
variable {Inner Code : Type}

def Assigns : (n : Nat) → Chain Code n → (Fin n → Int) → Code → Prop
  | 0, (code : Code), _, executed => code = executed
  | n + 1, (chain : List (Stride (Chain Code n))), iv, executed =>
      ∃ stride ∈ chain, stride.bound1 ≤ iv 0 ∧ iv 0 < stride.bound2 ∧
        ∃ grid ∈ stride.contents, grid.Covers ((iv 0 - stride.bound1) % stride.step) ∧
          ∃ inner, grid.inner.son = some inner ∧ Assigns n inner (Fin.tail iv) executed

def InBox {n : Nat} (lo hi iv : Fin n → Int) : Prop :=
  ∀ dim, lo dim ≤ iv dim ∧ iv dim < hi dim

/-- Every stride has grids, and they end within its step. -/
def Legal : (n : Nat) → Chain Code n → Prop
  | 0, _ => True
  | n + 1, (chain : List (Stride (Chain Code n))) => ∀ stride ∈ chain, stride.contents ≠ [] ∧
      ∀ grid ∈ stride.contents, grid.Within stride.step ∧
        ∀ inner, grid.inner.son = some inner → Legal n inner

/-- The grids without code are marked as noop, and no others. -/
def Marked : (n : Nat) → Chain Code n → Prop
  | 0, _ => True
  | n + 1, (chain : List (Stride (Chain Code n))) => ∀ stride ∈ chain,
      ∀ grid ∈ stride.contents, (grid.inner.isNoop = true ↔ grid.inner.son = none) ∧
        ∀ inner, grid.inner.son = some inner → Marked n inner

/-- The grids do not overlap and leave no gaps in the range of the step. -/
def Filled : (n : Nat) → Chain Code n → Prop
  | 0, _ => True
  | n + 1, (chain : List (Stride (Chain Code n))) => ∀ stride ∈ chain,
      stride.contents.Pairwise Grid.Apart ∧
        (∀ offset, 0 ≤ offset → offset < stride.step →
          ∃ grid ∈ stride.contents, grid.Covers offset) ∧
        ∀ grid ∈ stride.contents, ∀ inner, grid.inner.son = some inner → Filled n inner

/-- `result` is what the chain is in the box. -/
structure Intersects {n : Nat} (lo hi : Fin n → Int) (chain result : Chain Code n) : Prop where
  legal : Legal n result
  marked : Marked n result
  assigns_iff : ∀ iv code, Assigns n result iv code ↔ InBox lo hi iv ∧ Assigns n chain iv code

/-- The grid has an index between the bounds of the stride that is in the box. -/
def Meets (lo hi : Int) (stride : Stride Inner) (grid : Grid (Content Inner)) : Prop :=
  ∃ index, (stride.bound1 ≤ index ∧ index < stride.bound2) ∧ (lo ≤ index ∧ index < hi) ∧
    grid.Covers ((index - stride.bound1) % stride.step)

/-- It is the first grid of the stride that meets the box. -/
def FirstMeets (lo hi : Int) (stride : Stride Inner) (grid : Grid (Content Inner)) : Prop :=
  ∃ before after, stride.contents = before ++ grid :: after ∧
    (∀ other ∈ before, ¬ Meets lo hi stride other) ∧ Meets lo hi stride grid

/-- The stride has no index in the box, or the first of its grids that has one leads to such
strides in the next dimension. -/
def Misses : (n : Nat) → (lo hi : Fin (n + 1) → Int) → Chain Code (n + 1) → Prop
  | 0, lo, hi, (chain : List (Stride Code)) =>
      ∀ stride ∈ chain, min stride.bound2 (hi 0) ≤ max stride.bound1 (lo 0)
  | n + 1, lo, hi, (chain : List (Stride (Chain Code (n + 1)))) => ∀ stride ∈ chain,
      min stride.bound2 (hi 0) ≤ max stride.bound1 (lo 0) ∨
        ∃ grid nextdim, FirstMeets (lo 0) (hi 0) stride grid ∧ grid.inner.son = some nextdim ∧
          Misses n (Fin.tail lo) (Fin.tail hi) nextdim

/-- In one dimension no noop grid has an index in the box. In several dimensions the cubes have no
code in the box, and this shows in the bounds of the strides that are visited first. -/
def Spared : (n : Nat) → (lo hi : Fin (n + 1) → Int) → Chain Code (n + 1) → Prop
  | 0, lo, hi, (chain : List (Stride Code)) => ∀ stride ∈ chain, ∀ grid ∈ stride.contents,
      grid.inner.isNoop = true → ¬ Meets (lo 0) (hi 0) stride grid
  | n + 1, lo, hi, chain => Misses (n + 1) lo hi chain ∧
      ∀ iv code, InBox lo hi iv → ¬ Assigns (n + 2) chain iv code

end Meaning

section Window
variable {Inner Code : Type}

/-- The grid has an index in the window. -/
def Reached (stride : Stride Inner) (bound1 width : Int) (grid : Grid (Content Inner)) : Prop :=
  ∃ index, bound1 ≤ index ∧ index - bound1 < width ∧
    grid.Covers ((index - stride.bound1) % stride.step)

theorem meets_iff (lo hi : Int) (stride : Stride Inner) (grid : Grid (Content Inner)) :
    Meets lo hi stride grid ↔ Reached stride (max stride.bound1 lo)
      (min stride.bound2 hi - max stride.bound1 lo) grid := by
  constructor
  · rintro ⟨index, ⟨from1, to1⟩, ⟨from2, to2⟩, covered⟩
    exact ⟨index, max_le from1 from2, Int.sub_lt_sub_right (lt_min to1 to2) _, covered⟩
  · rintro ⟨index, lower, upper, covered⟩
    obtain ⟨from1, from2⟩ := Int.max_le.mp lower
    obtain ⟨to1, to2⟩ := lt_min_iff.mp (Int.lt_of_sub_lt_sub_right upper)
    exact ⟨index, ⟨from1, to1⟩, ⟨from2, to2⟩, covered⟩

/-- The parts of the grid that begin in the window. -/
def parts (stride : Stride Inner) (bound1 width : Int) (grid : Grid (Content Inner))
    (son : Option Inner) : List (Grid (Content Inner)) :=
  ((correctGrid bound1 stride.bound1 stride.step grid).filter (·.bound1 < width)).map fun piece =>
    makeGrid width piece.bound1 piece.bound2 son

variable {stride : Stride Inner} {bound1 width : Int} {grid : Grid (Content Inner)}

theorem offset_le {index step : Int} (lower : bound1 ≤ index) (positive : 0 < step) :
    (index - bound1) % step ≤ index - bound1 := by
  have split := Int.emod_add_mul_ediv (index - bound1) step
  have rounds : 0 ≤ step * ((index - bound1) / step) :=
    Int.mul_nonneg positive.le (Int.ediv_nonneg (Int.sub_nonneg_of_le lower) positive.le)
  omega

/-- The step may shrink to the width of the window. -/
theorem offset_min {index step : Int} (lower : bound1 ≤ index) (upper : index - bound1 < width) :
    (index - bound1) % min step width = (index - bound1) % step := by
  rcases min_cases step width with ⟨same, _⟩ | ⟨same, shrunk⟩
  · rw [same]
  · have nonneg : 0 ≤ index - bound1 := Int.sub_nonneg_of_le lower
    rw [same, Int.emod_eq_of_lt nonneg upper, Int.emod_eq_of_lt nonneg (upper.trans shrunk)]

/-- A grid is reached if its first part begins in the window. -/
theorem reached_iff (within : grid.Within stride.step) (forward : stride.bound1 ≤ bound1)
    (wide : 0 < width) : Reached stride bound1 width grid ↔
      (let offset := gridOffset bound1 stride.bound1 stride.step grid.bound2
       if offset ≤ grid.bound1 then grid.bound1 - offset else 0) < width := by
  have covers := correct_grid_covers within forward
  have range := correct_grid_within within forward
  unfold correctGrid at covers range
  dsimp only at covers range ⊢
  split_ifs at covers range ⊢ with whole
  · simp only [List.mem_singleton, exists_eq_left, forall_eq] at covers range
    constructor
    · rintro ⟨index, lower, upper, covered⟩
      have begins := ((covers index).mpr covered).1
      have offset := offset_le lower within.positive
      exact begins.trans_lt (offset.trans_lt upper)
    · intro begins
      obtain ⟨nonneg, some, ends⟩ := range
      dsimp only at nonneg some ends
      refine ⟨bound1 + (grid.bound1 - gridOffset bound1 stride.bound1 stride.step grid.bound2),
        by omega, by omega, (covers _).mp ?_⟩
      rw [Int.add_comm, Int.add_sub_cancel, Int.emod_eq_of_lt nonneg (some.trans_le ends)]
      exact ⟨le_rfl, some⟩
  · refine iff_of_true ⟨bound1, le_rfl, by omega, (covers bound1).mp ?_⟩ wide
    obtain ⟨_, some, _⟩ := range _ List.mem_cons_self
    refine ⟨_, List.mem_cons_self, ?_⟩
    rw [Int.sub_self, Int.zero_emod]
    exact ⟨le_rfl, some⟩

theorem parts_inner {son : Option Inner} {part : Grid (Content Inner)}
    (member : part ∈ parts stride bound1 width grid son) : part.inner = ⟨false, son⟩ := by
  obtain ⟨piece, _, rfl⟩ := List.mem_map.mp member
  rfl

theorem parts_eq_nil (within : grid.Within stride.step) (forward : stride.bound1 ≤ bound1)
    (wide : 0 < width) (outside : ¬ Reached stride bound1 width grid) (son : Option Inner) :
    parts stride bound1 width grid son = [] := by
  have late := mt (reached_iff within forward wide).mpr outside
  unfold parts correctGrid
  dsimp only at late ⊢
  split_ifs at late ⊢ with whole
  · simpa using late
  · exact absurd wide late

theorem parts_within (within : grid.Within stride.step) (forward : stride.bound1 ≤ bound1)
    (son : Option Inner) :
    ∀ part ∈ parts stride bound1 width grid son, part.Within (min stride.step width) := by
  intro part member
  obtain ⟨piece, inPieces, rfl⟩ := List.mem_map.mp member
  obtain ⟨inPieces, begins⟩ := List.mem_filter.mp inPieces
  obtain ⟨lower, some, upper⟩ := correct_grid_within within forward piece inPieces
  exact ⟨lower, lt_min some (of_decide_eq_true begins), min_le_min_right width upper⟩

theorem part_covers {piece : Grid (Content Inner)} (son : Option Inner) {offset : Int}
    (inside : offset < width) : (makeGrid width piece.bound1 piece.bound2 son).Covers offset ↔
      piece.Covers offset :=
  and_congr_right fun _ => lt_min_iff.trans (and_iff_left inside)

/-- In the window the parts cover what the grid does. -/
theorem parts_cover (within : grid.Within stride.step) (forward : stride.bound1 ≤ bound1)
    (son : Option Inner) {index : Int} (lower : bound1 ≤ index) (upper : index - bound1 < width) :
    (∃ part ∈ parts stride bound1 width grid son,
        part.Covers ((index - bound1) % min stride.step width)) ↔
      grid.Covers ((index - stride.bound1) % stride.step) := by
  have inside := (offset_le lower within.positive).trans_lt upper
  rw [offset_min lower upper, ← correct_grid_covers within forward]
  constructor
  · rintro ⟨part, member, covered⟩
    obtain ⟨piece, inPieces, rfl⟩ := List.mem_map.mp member
    exact ⟨piece, (List.mem_filter.mp inPieces).1, (part_covers son inside).mp covered⟩
  · rintro ⟨piece, inPieces, covered⟩
    have begins := covered.1.trans_lt inside
    exact ⟨_, List.mem_map_of_mem (List.mem_filter.mpr ⟨inPieces, decide_eq_true begins⟩),
      (part_covers son inside).mpr covered⟩

end Window

section Loop
variable {Inner Code : Type} {isect : Inner → Option (Option Inner)}
  {codeOf : Option Inner → Option Code} {stride : Stride Inner} {bound1 width : Int}
  {grid : Grid (Content Inner)}

/-- A grid that is not reached is passed over. -/
theorem intersect_grids_pass (within : grid.Within stride.step) (forward : stride.bound1 ≤ bound1)
    (wide : 0 < width) (outside : ¬ Reached stride bound1 width grid)
    (grids newGrids : List (Grid (Content Inner))) :
    intersectGrids isect codeOf stride bound1 width (grid :: grids) newGrids =
      intersectGrids isect codeOf stride bound1 width grids newGrids := by
  have late := mt (reached_iff within forward wide).mpr outside
  have whole : gridOffset bound1 stride.bound1 stride.step grid.bound2 ≤ grid.bound1 := by
    by_contra split
    exact late (by rwa [if_neg split])
  rw [intersectGrids]
  simp only [whole, if_true, lt_irrefl, if_false] at late ⊢
  rw [if_neg late]

/-- The second part is only reached with the first one. -/
theorem intersect_grids_meet (within : grid.Within stride.step) (forward : stride.bound1 ≤ bound1)
    (wide : 0 < width) (reached : Reached stride bound1 width grid)
    (grids newGrids : List (Grid (Content Inner))) :
    intersectGrids isect codeOf stride bound1 width (grid :: grids) newGrids =
      (nextSon isect grid.inner.son).bind fun
        | none => if newGrids = [] then some none else none
        | some son => (codeIncUsed (codeOf son)).bind fun _ =>
            intersectGrids isect codeOf stride bound1 width grids
              ((parts stride bound1 width grid son).reverse ++ newGrids) := by
  have first := (reached_iff within forward wide).mp reached
  rw [intersectGrids]
  unfold parts correctGrid
  dsimp only at first ⊢
  rw [if_pos first]
  generalize gridOffset bound1 stride.bound1 stride.step grid.bound2 = offset at first ⊢
  congr 1
  funext result
  cases result with
  | none => rfl
  | some son =>
      dsimp only
      generalize codeIncUsed (codeOf son) = counted
      cases counted with
      | none => rfl
      | some _ =>
          by_cases whole : offset ≤ grid.bound1
          · simp only [whole, if_true] at first ⊢
            simp [first]
          · have begins : grid.bound1 - (offset - stride.step) =
                grid.bound1 - offset + stride.step := by
              omega
            rw [begins]
            simp only [whole, if_false] at first ⊢
            by_cases second : grid.bound1 - offset + stride.step < width
            · simp [first, second]
            · simp [first, second]

theorem next_son_code (son : Option Inner) :
    nextSon (fun code => some (some code)) son = some (some son) := by
  cases son with
  | none => rfl
  | some code => rfl

variable {grids : List (Grid (Content Inner))}

theorem intersect_grids_code (within : ∀ grid ∈ grids, grid.Within stride.step)
    (forward : stride.bound1 ≤ bound1) (wide : 0 < width)
    (codes : ∀ grid ∈ grids, Reached stride bound1 width grid → grid.inner.son ≠ none)
    (newGrids : List (Grid (Content Inner))) :
    intersectGrids (fun code => some (some code)) (fun code => code) stride bound1 width grids
        newGrids =
      some (some ((grids.flatMap fun grid =>
        parts stride bound1 width grid grid.inner.son).reverse ++ newGrids)) := by
  induction grids generalizing newGrids with
  | nil => rfl
  | cons grid grids ih =>
      have here := within grid List.mem_cons_self
      have later := ih (fun other member => within other (List.mem_cons_of_mem _ member))
        fun other member => codes other (List.mem_cons_of_mem _ member)
      rw [List.flatMap_cons, List.reverse_append, List.append_assoc]
      by_cases reached : Reached stride bound1 width grid
      · obtain ⟨code, real⟩ := Option.ne_none_iff_exists'.mp (codes grid List.mem_cons_self reached)
        rw [intersect_grids_meet here forward wide reached, next_son_code, Option.bind_some,
          ← later, real]
        rfl
      · rw [intersect_grids_pass here forward wide reached,
          parts_eq_nil here forward wide reached, later]
        rfl

/-- The counter of no code is increased. -/
theorem intersect_grids_noop (within : ∀ grid ∈ grids, grid.Within stride.step)
    (forward : stride.bound1 ≤ bound1) (wide : 0 < width)
    (noop : ∃ grid ∈ grids, Reached stride bound1 width grid ∧ grid.inner.son = none)
    (newGrids : List (Grid (Content Inner))) :
    intersectGrids (fun code => some (some code)) (fun code => code) stride bound1 width grids
      newGrids = none := by
  induction grids generalizing newGrids with
  | nil => simp at noop
  | cons grid grids ih =>
      have here := within grid List.mem_cons_self
      have later (noop : ∃ grid ∈ grids, Reached stride bound1 width grid ∧
          grid.inner.son = none) :=
        ih (fun other member => within other (List.mem_cons_of_mem _ member)) noop
      obtain ⟨other, member, reachedO, none⟩ := noop
      by_cases reached : Reached stride bound1 width grid
      · rw [intersect_grids_meet here forward wide reached, next_son_code, Option.bind_some]
        cases son : grid.inner.son with
        | none => rfl
        | some code =>
            rcases List.mem_cons.mp member with rfl | member
            · rw [son] at none
              cases none
            · exact later ⟨other, member, reachedO, none⟩ _
      · rw [intersect_grids_pass here forward wide reached]
        rcases List.mem_cons.mp member with rfl | member
        · exact absurd reachedO reached
        · exact later ⟨other, member, reachedO, none⟩ _

/-- With a further dimension the first grid that is reached decides. -/
theorem intersect_grids_deep {before after : List (Grid (Content Inner))}
    (within : ∀ other ∈ before ++ grid :: after, other.Within stride.step)
    (forward : stride.bound1 ≤ bound1) (wide : 0 < width)
    (outside : ∀ other ∈ before, ¬ Reached stride bound1 width other)
    (reached : Reached stride bound1 width grid) :
    intersectGrids isect (fun _ => (none : Option Code)) stride bound1 width
        (before ++ grid :: after) [] =
      (nextSon isect grid.inner.son).bind fun
        | none => some none
        | some _ => none := by
  induction before with
  | nil =>
      rw [List.nil_append]
      rw [intersect_grids_meet (within grid List.mem_cons_self) forward wide reached]
      rfl
  | cons other before ih =>
      rw [List.cons_append]
      rw [intersect_grids_pass (within other List.mem_cons_self) forward wide
        (outside other List.mem_cons_self)]
      exact ih (fun grid member => within grid (List.mem_cons_of_mem _ member))
        fun grid member => outside grid (List.mem_cons_of_mem _ member)

end Loop

section Cut
variable {Inner Code : Type} (compareNext : Option Inner → Option Inner → Int) (lo hi : Int)

/-- The stride between the bounds of the box. -/
def cut (stride : Stride Inner) : Stride Inner :=
  let bound1 := max stride.bound1 lo
  let bound2 := min stride.bound2 hi
  ⟨bound1, bound2, min stride.step (bound2 - bound1),
    insertWlNodes (compareGrids compareNext) [] (stride.contents.flatMap fun grid =>
      parts stride bound1 (bound2 - bound1) grid grid.inner.son).reverse⟩

theorem bounds_of_compare (grid1 grid2 : Grid (Content Inner))
    (same : compareGrids compareNext grid1 grid2 = 0) :
    grid1.bound1 = grid2.bound1 ∧ grid1.bound2 = grid2.bound2 := by
  have near : (compareGrids compareNext grid1 grid2).natAbs ≠ 2 := by
    rw [same]
    decide
  obtain ⟨same1, near⟩ := comp_two near
  exact ⟨same1, (comp_two near).1⟩

variable {lo hi} {stride : Stride Inner}
  (within : ∀ grid ∈ stride.contents, grid.Within stride.step)
  (apart : stride.contents.Pairwise Grid.Apart)

include within apart in
theorem parts_apart (bound1 width : Int) (forward : stride.bound1 ≤ bound1) :
    (stride.contents.flatMap fun grid =>
      parts stride bound1 width grid grid.inner.son).Pairwise Grid.Apart := by
  have pieces := correct_grids_apart apart within forward
  have clipped : (stride.contents.flatMap fun grid =>
      parts stride bound1 width grid grid.inner.son) =
      ((stride.contents.flatMap (correctGrid bound1 stride.bound1 stride.step)).filter
        (·.bound1 < width)).map fun piece =>
          makeGrid width piece.bound1 piece.bound2 piece.inner.son := by
    rw [List.filter_flatMap, List.map_flatMap]
    congr 1
    funext grid
    apply List.map_congr_left
    intro piece member
    rw [correct_grid_inner piece (List.mem_filter.mp member).1]
  rw [clipped, List.pairwise_map]
  apply (pieces.filter _).imp
  intro piece other noOverlap offset covered covered'
  exact noOverlap offset ⟨covered.1, (lt_min_iff.mp covered.2).1⟩
    ⟨covered'.1, (lt_min_iff.mp covered'.2).1⟩

include within apart in
theorem mem_cut (part : Grid (Content Inner)) :
    part ∈ (cut compareNext lo hi stride).contents ↔ ∃ grid ∈ stride.contents,
      part ∈ parts stride (max stride.bound1 lo)
        (min stride.bound2 hi - max stride.bound1 lo) grid grid.inner.son := by
  have forward : stride.bound1 ≤ max stride.bound1 lo := le_max_left _ _
  have noOverlap := parts_apart within apart _ (min stride.bound2 hi - max stride.bound1 lo) forward
  have reversed := List.pairwise_reverse.mpr (noOverlap.imp Grid.Apart.symm)
  have perm := fun wide => inserts_apart_perm _ (bounds_of_compare compareNext) wide reversed
  refine (perm ?_).mem_iff.trans (List.mem_reverse.trans List.mem_flatMap)
  intro part member
  obtain ⟨grid, inGrids, inParts⟩ := List.mem_flatMap.mp (List.mem_reverse.mp member)
  exact (parts_within (within grid inGrids) forward _ part inParts).2.1

include within apart in
theorem cut_within : ∀ part ∈ (cut compareNext lo hi stride).contents,
    part.Within (cut compareNext lo hi stride).step := by
  intro part member
  obtain ⟨grid, inGrids, inParts⟩ := (mem_cut compareNext within apart part).mp member
  exact parts_within (within grid inGrids) (le_max_left _ _) _ part inParts

include within apart in
/-- What is executed at an index in the box is what the stride had there. -/
theorem cut_covers {index : Int} (lower : max stride.bound1 lo ≤ index)
    (upper : index < min stride.bound2 hi) (Executes : Option Inner → Prop) :
    (∃ part ∈ (cut compareNext lo hi stride).contents,
        part.Covers ((index - (cut compareNext lo hi stride).bound1) %
          (cut compareNext lo hi stride).step) ∧ Executes part.inner.son) ↔
      ∃ grid ∈ stride.contents, grid.Covers ((index - stride.bound1) % stride.step) ∧
        Executes grid.inner.son := by
  have forward : stride.bound1 ≤ max stride.bound1 lo := le_max_left _ _
  have inside := Int.sub_lt_sub_right upper (max stride.bound1 lo)
  constructor
  · rintro ⟨part, member, covered, executes⟩
    obtain ⟨grid, inGrids, inParts⟩ := (mem_cut compareNext within apart part).mp member
    rw [parts_inner inParts] at executes
    exact ⟨grid, inGrids, (parts_cover (within grid inGrids) forward _ lower inside).mp
      ⟨part, inParts, covered⟩, executes⟩
  · rintro ⟨grid, inGrids, covered, executes⟩
    obtain ⟨part, inParts, covered⟩ :=
      (parts_cover (within grid inGrids) forward grid.inner.son lower inside).mpr covered
    refine ⟨part, (mem_cut compareNext within apart part).mpr ⟨grid, inGrids, inParts⟩, covered, ?_⟩
    rw [parts_inner inParts]
    exact executes

/-- The grid that an index of the box falls into. -/
theorem exists_meets (positive : 0 < stride.step) (filled : ∀ offset, 0 ≤ offset →
      offset < stride.step → ∃ grid ∈ stride.contents, grid.Covers offset)
    (wide : max stride.bound1 lo < min stride.bound2 hi) :
    ∃ grid ∈ stride.contents, Meets lo hi stride grid := by
  obtain ⟨from1, from2⟩ := Int.max_le.mp (le_refl (max stride.bound1 lo))
  obtain ⟨to1, to2⟩ := lt_min_iff.mp wide
  obtain ⟨grid, member, covered⟩ := filled ((max stride.bound1 lo - stride.bound1) % stride.step)
    (Int.emod_nonneg _ positive.ne') (Int.emod_lt_of_pos _ positive)
  exact ⟨grid, member, _, ⟨from1, to1⟩, ⟨from2, to2⟩, covered⟩

theorem exists_first (found : ∃ grid ∈ stride.contents, Meets lo hi stride grid) :
    ∃ grid, FirstMeets lo hi stride grid := by
  suffices first : ∀ grids : List (Grid (Content Inner)),
      (∃ grid ∈ grids, Meets lo hi stride grid) → ∃ grid before after,
        grids = before ++ grid :: after ∧ (∀ other ∈ before, ¬ Meets lo hi stride other) ∧
          Meets lo hi stride grid from first stride.contents found
  intro grids found
  induction grids with
  | nil => simp at found
  | cons grid grids ih =>
      by_cases here : Meets lo hi stride grid
      · exact ⟨grid, [], grids, rfl, List.forall_mem_nil _, here⟩
      · have later : ∃ grid ∈ grids, Meets lo hi stride grid := by
          obtain ⟨other, member, meets⟩ := found
          rcases List.mem_cons.mp member with rfl | member
          · exact absurd meets here
          · exact ⟨other, member, meets⟩
        obtain ⟨other, before, after, rfl, outside, meets⟩ := ih later
        exact ⟨other, grid :: before, after, rfl, List.forall_mem_cons.mpr ⟨here, outside⟩, meets⟩

theorem Meets.wide {grid : Grid (Content Inner)} (meets : Meets lo hi stride grid) :
    max stride.bound1 lo < min stride.bound2 hi := by
  obtain ⟨index, ⟨from1, to1⟩, ⟨from2, to2⟩, _⟩ := meets
  exact (max_le from1 from2).trans_lt (lt_min to1 to2)

end Cut

section Chains
variable {Inner Code : Type} (compareNext : Option Inner → Option Inner → Int) {lo hi : Int}
  {chain : List (Stride Inner)}

theorem intersect_chain_code
    (within : ∀ stride ∈ chain, ∀ grid ∈ stride.contents, grid.Within stride.step)
    (codes : ∀ stride ∈ chain, ∀ grid ∈ stride.contents, Meets lo hi stride grid →
      grid.inner.son ≠ none) :
    intersectChain compareNext (fun code => some (some code)) (fun code => code) lo hi chain =
      some ((chain.filter fun stride => max stride.bound1 lo < min stride.bound2 hi).map
        (cut compareNext lo hi)) := by
  induction chain with
  | nil => rfl
  | cons stride chain ih =>
      have later := ih (fun other member => within other (List.mem_cons_of_mem _ member))
        fun other member => codes other (List.mem_cons_of_mem _ member)
      rw [intersectChain, later]
      by_cases wide : max stride.bound1 lo < min stride.bound2 hi
      · have positive := Int.sub_pos_of_lt wide
        have grids := intersect_grids_code (within stride List.mem_cons_self)
          (le_max_left stride.bound1 lo) positive
          (fun grid member reached => codes stride List.mem_cons_self grid member
            ((meets_iff lo hi stride grid).mpr reached)) []
        rw [if_pos positive, grids, List.append_nil]
        simp only [List.filter_cons, wide, decide_true, if_true]
        rfl
      · have narrow : ¬ min stride.bound2 hi - max stride.bound1 lo > 0 := by omega
        rw [if_neg narrow]
        simp only [List.filter_cons, wide, decide_false]
        rfl

theorem intersect_chain_noop
    (within : ∀ stride ∈ chain, ∀ grid ∈ stride.contents, grid.Within stride.step)
    (noop : ∃ stride ∈ chain, ∃ grid ∈ stride.contents, Meets lo hi stride grid ∧
      grid.inner.son = none) :
    intersectChain compareNext (fun code => some (some code)) (fun code => code) lo hi chain =
      none := by
  induction chain with
  | nil => simp at noop
  | cons stride chain ih =>
      obtain ⟨other, member, grid, inGrids, meets, none⟩ := noop
      rw [intersectChain]
      rcases List.mem_cons.mp member with rfl | member
      · have positive := Int.sub_pos_of_lt meets.wide
        have grids := intersect_grids_noop (within other List.mem_cons_self)
          (le_max_left other.bound1 lo) positive
          ⟨grid, inGrids, (meets_iff lo hi other grid).mp meets, none⟩ []
        rw [if_pos positive, grids]
        rfl
      · rw [ih (fun other member => within other (List.mem_cons_of_mem _ member))
          ⟨other, member, grid, inGrids, meets, none⟩]
        exact Option.bind_fun_none _

/-- The stride is left out, before the counter of its code is increased. -/
def Dropped (isect : Inner → Option (Option Inner)) (lo hi : Int) (stride : Stride Inner) : Prop :=
  min stride.bound2 hi ≤ max stride.bound1 lo ∨
    ∃ grid nextdim, FirstMeets lo hi stride grid ∧ grid.inner.son = some nextdim ∧
      isect nextdim = some none

theorem intersect_stride_first {isect : Inner → Option (Option Inner)} {stride : Stride Inner}
    {grid : Grid (Content Inner)} (within : ∀ grid ∈ stride.contents, grid.Within stride.step)
    (first : FirstMeets lo hi stride grid) :
    (if min stride.bound2 hi - max stride.bound1 lo > 0 then
      intersectGrids isect (fun _ => (none : Option Code)) stride (max stride.bound1 lo)
        (min stride.bound2 hi - max stride.bound1 lo) stride.contents [] else some none) =
      (nextSon isect grid.inner.son).bind fun
        | none => some none
        | some _ => none := by
  obtain ⟨before, after, split, outside, meets⟩ := first
  have positive := Int.sub_pos_of_lt meets.wide
  rw [split] at within
  rw [if_pos positive, split]
  apply intersect_grids_deep within (le_max_left _ _) positive
  · exact fun other member reached =>
      outside other member ((meets_iff lo hi stride other).mpr reached)
  · exact (meets_iff lo hi stride grid).mp meets

theorem intersect_stride_dropped {isect : Inner → Option (Option Inner)} {stride : Stride Inner}
    (within : ∀ grid ∈ stride.contents, grid.Within stride.step)
    (dropped : Dropped isect lo hi stride) :
    (if min stride.bound2 hi - max stride.bound1 lo > 0 then
      intersectGrids isect (fun _ => (none : Option Code)) stride (max stride.bound1 lo)
        (min stride.bound2 hi - max stride.bound1 lo) stride.contents [] else some none) =
      some none := by
  rcases dropped with narrow | ⟨grid, nextdim, first, son, empty⟩
  · exact if_neg (by omega)
  · rw [intersect_stride_first within first, son, nextSon, empty]
    rfl

theorem intersect_stride_kept {isect : Inner → Option (Option Inner)} {stride : Stride Inner}
    (nonempty : stride.contents ≠ [])
    (within : ∀ grid ∈ stride.contents, grid.Within stride.step)
    (filled : ∀ offset, 0 ≤ offset → offset < stride.step →
      ∃ grid ∈ stride.contents, grid.Covers offset)
    (kept : ¬ Dropped isect lo hi stride) :
    (if min stride.bound2 hi - max stride.bound1 lo > 0 then
      intersectGrids isect (fun _ => (none : Option Code)) stride (max stride.bound1 lo)
        (min stride.bound2 hi - max stride.bound1 lo) stride.contents [] else some none) =
      none := by
  have wide : max stride.bound1 lo < min stride.bound2 hi := by
    by_contra narrow
    exact kept (Or.inl (Int.not_lt.mp narrow))
  have step := (within _ (List.head_mem nonempty)).positive
  obtain ⟨grid, first⟩ := exists_first (exists_meets step filled wide)
  rw [intersect_stride_first within first]
  cases son : grid.inner.son with
  | none => rfl
  | some nextdim =>
      rw [nextSon]
      cases result : isect nextdim with
      | none => rfl
      | some inner =>
          cases inner with
          | none => exact absurd (Or.inr ⟨grid, nextdim, first, son, result⟩) kept
          | some inner => rfl

/-- With a further dimension nothing but the empty chain is returned. -/
theorem intersect_chain_deep {isect : Inner → Option (Option Inner)}
    (nonempty : ∀ stride ∈ chain, stride.contents ≠ [])
    (within : ∀ stride ∈ chain, ∀ grid ∈ stride.contents, grid.Within stride.step)
    (filled : ∀ stride ∈ chain, ∀ offset, 0 ≤ offset → offset < stride.step →
      ∃ grid ∈ stride.contents, grid.Covers offset) (result : List (Stride Inner)) :
    intersectChain compareNext isect (fun _ => (none : Option Code)) lo hi chain = some result ↔
      result = [] ∧ ∀ stride ∈ chain, Dropped isect lo hi stride := by
  induction chain generalizing result with
  | nil => simp [intersectChain, eq_comm]
  | cons stride chain ih =>
      have later := ih (fun other member => nonempty other (List.mem_cons_of_mem _ member))
        (fun other member => within other (List.mem_cons_of_mem _ member))
        fun other member => filled other (List.mem_cons_of_mem _ member)
      rw [intersectChain, List.forall_mem_cons]
      by_cases dropped : Dropped isect lo hi stride
      · rw [intersect_stride_dropped (within stride List.mem_cons_self) dropped,
          and_iff_right dropped, ← later]
        simp
      · rw [intersect_stride_kept (nonempty stride List.mem_cons_self)
          (within stride List.mem_cons_self) (filled stride List.mem_cons_self) dropped]
        simp [dropped]

end Chains

section Boxes
variable {Code : Type}

/-- The strides with an index in the box, between its bounds. -/
def cutChain (lo hi : Int) (chain : List (Stride (Chain Code 0))) : List (Stride (Chain Code 0)) :=
  (chain.filter fun stride => max stride.bound1 lo < min stride.bound2 hi).map
    (cut (compareNext 0) lo hi)

theorem Legal.within {n : Nat} {chain : List (Stride (Chain Code n))}
    (legal : Legal (n + 1) (chain : Chain Code (n + 1))) {stride : Stride (Chain Code n)}
    (member : stride ∈ chain) : ∀ grid ∈ stride.contents, grid.Within stride.step :=
  fun grid inGrids => ((legal stride member).2 grid inGrids).1

section LastDimension
variable {lo hi : Fin 1 → Int} {chain : List (Stride (Chain Code 0))}

theorem last_dimension (legal : Legal 1 (chain : Chain Code 1))
    (spared : ∀ stride ∈ chain, ∀ grid ∈ stride.contents,
      Meets (lo 0) (hi 0) stride grid → grid.inner.son ≠ none) :
    intersectStridesArray 0 lo hi (chain : Chain Code 1) =
      some (cutChain (lo 0) (hi 0) chain : Chain Code 1) :=
  intersect_chain_code (compareNext 0) (fun _ => legal.within) spared

theorem last_dimension_noop (legal : Legal 1 (chain : Chain Code 1))
    (noop : ∃ stride ∈ chain, ∃ grid ∈ stride.contents,
      Meets (lo 0) (hi 0) stride grid ∧ grid.inner.son = none) :
    intersectStridesArray 0 lo hi (chain : Chain Code 1) = none :=
  intersect_chain_noop (compareNext 0) (fun _ => legal.within) noop

theorem mem_cut_chain (lo hi : Int) (stride : Stride (Chain Code 0)) :
    stride ∈ cutChain lo hi chain ↔ ∃ old ∈ chain, max old.bound1 lo < min old.bound2 hi ∧
      cut (compareNext 0) lo hi old = stride := by
  constructor
  · intro member
    obtain ⟨old, inOld, same⟩ := List.mem_map.mp member
    obtain ⟨inOld, wide⟩ := List.mem_filter.mp inOld
    exact ⟨old, inOld, of_decide_eq_true wide, same⟩
  · rintro ⟨old, inOld, wide, rfl⟩
    exact List.mem_map_of_mem (List.mem_filter.mpr ⟨inOld, decide_eq_true wide⟩)

theorem cut_chain_legal (legal : Legal 1 (chain : Chain Code 1))
    (filled : Filled 1 (chain : Chain Code 1)) :
    Legal 1 (cutChain (lo 0) (hi 0) chain : Chain Code 1) := by
  intro stride member
  obtain ⟨old, inOld, wide, rfl⟩ := (mem_cut_chain _ _ stride).mp member
  have within := legal.within inOld
  obtain ⟨apart, gapless, _⟩ := filled old inOld
  constructor
  · have step := (within _ (List.head_mem (legal old inOld).1)).positive
    obtain ⟨grid, inGrids, index, ⟨from1, to1⟩, ⟨from2, to2⟩, covered⟩ :=
      exists_meets step gapless wide
    have covers := cut_covers (compareNext 0) within apart (Int.max_le.mpr ⟨from1, from2⟩)
      (lt_min to1 to2) fun _ => True
    obtain ⟨part, inParts, _⟩ := covers.mpr ⟨grid, inGrids, covered, trivial⟩
    exact List.ne_nil_of_mem inParts
  · intro part inParts
    exact ⟨cut_within (compareNext 0) within apart part inParts, fun _ _ => trivial⟩

/-- Every part has code, and none is marked. -/
theorem cut_chain_marked (legal : Legal 1 (chain : Chain Code 1))
    (filled : Filled 1 (chain : Chain Code 1))
    (spared : ∀ stride ∈ chain, ∀ grid ∈ stride.contents,
      Meets (lo 0) (hi 0) stride grid → grid.inner.son ≠ none) :
    Marked 1 (cutChain (lo 0) (hi 0) chain : Chain Code 1) := by
  intro stride member part inParts
  refine ⟨?_, fun _ _ => trivial⟩
  obtain ⟨old, inOld, wide, rfl⟩ := (mem_cut_chain _ _ stride).mp member
  have within := legal.within inOld
  obtain ⟨grid, inGrids, inParts⟩ :=
    (mem_cut (compareNext 0) within (filled old inOld).1 part).mp inParts
  have reached : Reached old (max old.bound1 (lo 0))
      (min old.bound2 (hi 0) - max old.bound1 (lo 0)) grid := by
    by_contra outside
    rw [parts_eq_nil (within grid inGrids) (le_max_left _ _) (Int.sub_pos_of_lt wide)
      outside] at inParts
    cases inParts
  have code := spared old inOld grid inGrids ((meets_iff _ _ old grid).mpr reached)
  rw [parts_inner inParts]
  exact iff_of_false Bool.false_ne_true code

theorem cut_chain_assigns (legal : Legal 1 (chain : Chain Code 1))
    (filled : Filled 1 (chain : Chain Code 1)) (iv : Fin 1 → Int) (code : Code) :
    Assigns 1 (cutChain (lo 0) (hi 0) chain : Chain Code 1) iv code ↔
      InBox lo hi iv ∧ Assigns 1 (chain : Chain Code 1) iv code := by
  have covers (old : Stride (Chain Code 0)) (inOld : old ∈ chain)
      (lower : max old.bound1 (lo 0) ≤ iv 0) (upper : iv 0 < min old.bound2 (hi 0)) :=
    cut_covers (compareNext 0) (legal.within inOld) (filled old inOld).1 lower upper
      fun son => ∃ inner, son = some inner ∧ Assigns 0 inner (Fin.tail iv) code
  constructor
  · rintro ⟨stride, member, lower, upper, executes⟩
    obtain ⟨old, inOld, _, rfl⟩ := (mem_cut_chain _ _ stride).mp member
    obtain ⟨from1, from2⟩ := Int.max_le.mp lower
    obtain ⟨to1, to2⟩ := lt_min_iff.mp upper
    exact ⟨Fin.forall_fin_one.mpr ⟨from2, to2⟩, old, inOld, from1, to1,
      (covers old inOld lower upper).mp executes⟩
  · rintro ⟨inside, old, inOld, from1, to1, executes⟩
    have lower := max_le from1 (inside 0).1
    have upper := lt_min to1 (inside 0).2
    exact ⟨_, (mem_cut_chain _ _ _).mpr ⟨old, inOld, lower.trans_lt upper, rfl⟩, lower, upper,
      (covers old inOld lower upper).mpr executes⟩

/-- In one dimension. -/
theorem last_dimension_iff (legal : Legal 1 (chain : Chain Code 1))
    (marked : Marked 1 (chain : Chain Code 1)) (filled : Filled 1 (chain : Chain Code 1)) :
    (∃ result, intersectStridesArray 0 lo hi (chain : Chain Code 1) = some result ∧
      Intersects lo hi (chain : Chain Code 1) result) ↔ Spared 0 lo hi (chain : Chain Code 1) := by
  constructor
  · rintro ⟨result, runs, _⟩ stride member grid inGrids noop meets
    have none := ((marked stride member grid inGrids).1).mp noop
    rw [last_dimension_noop legal ⟨stride, member, grid, inGrids, meets, none⟩] at runs
    cases runs
  · intro spared
    have codes (stride) (member : stride ∈ chain) (grid) (inGrids : grid ∈ stride.contents)
        (meets : Meets (lo 0) (hi 0) stride grid) : grid.inner.son ≠ none := fun none =>
      spared stride member grid inGrids ((marked stride member grid inGrids).1.mpr none) meets
    exact ⟨_, last_dimension legal codes, cut_chain_legal legal filled,
      cut_chain_marked legal filled codes, cut_chain_assigns legal filled⟩

theorem last_dimension_empty (legal : Legal 1 (chain : Chain Code 1)) :
    intersectStridesArray 0 lo hi (chain : Chain Code 1) =
        some (([] : List (Stride (Chain Code 0))) : Chain Code 1) ↔
      Misses 0 lo hi (chain : Chain Code 1) := by
  constructor
  · intro runs stride member
    by_contra wide
    by_cases noop : ∃ stride ∈ chain, ∃ grid ∈ stride.contents,
        Meets (lo 0) (hi 0) stride grid ∧ grid.inner.son = none
    · rw [last_dimension_noop legal noop] at runs
      cases runs
    · rw [last_dimension legal fun stride member grid inGrids meets none =>
        noop ⟨stride, member, grid, inGrids, meets, none⟩] at runs
      have kept := (mem_cut_chain (lo 0) (hi 0) _).mpr ⟨stride, member, Int.not_le.mp wide, rfl⟩
      rw [Option.some.inj runs] at kept
      cases kept
  · intro narrow
    rw [last_dimension legal fun stride member grid inGrids meets =>
      absurd meets.wide (Int.not_lt.mpr (narrow stride member))]
    congr 1
    apply List.eq_nil_iff_forall_not_mem.mpr
    intro stride member
    obtain ⟨old, inOld, wide, _⟩ := (mem_cut_chain _ _ stride).mp member
    exact Int.not_lt.mpr (narrow old inOld) wide

end LastDimension

theorem map_nullable_iff {Node : Type} (result : Option (List Node)) :
    result.map nullable = some none ↔ result = some [] := by
  cases result with
  | none => simp
  | some nodes =>
      cases nodes with
      | nil => simp [nullable]
      | cons node nodes => simp [nullable]

theorem deep_iff (n : Nat) (lo hi : Fin (n + 2) → Int)
    (chain : List (Stride (Chain Code (n + 1))))
    (legal : Legal (n + 2) (chain : Chain Code (n + 2)))
    (filled : Filled (n + 2) (chain : Chain Code (n + 2)))
    (result : List (Stride (Chain Code (n + 1)))) :
    intersectStridesArray (n + 1) lo hi (chain : Chain Code (n + 2)) =
        some (result : Chain Code (n + 2)) ↔
      result = [] ∧ ∀ stride ∈ chain, Dropped (fun nextdim : Chain Code (n + 1) =>
        (intersectStridesArray n (Fin.tail lo) (Fin.tail hi) nextdim).map nullable)
          (lo 0) (hi 0) stride :=
  intersect_chain_deep (compareNext (n + 1)) (fun stride member => (legal stride member).1)
    (fun _ => legal.within) (fun stride member => (filled stride member).2.1) result

/-- The result is empty. -/
theorem intersect_empty (n : Nat) (lo hi : Fin (n + 1) → Int)
    (chain : List (Stride (Chain Code n))) (legal : Legal (n + 1) (chain : Chain Code (n + 1)))
    (filled : Filled (n + 1) (chain : Chain Code (n + 1))) :
    intersectStridesArray n lo hi (chain : Chain Code (n + 1)) =
        some (([] : List (Stride (Chain Code n))) : Chain Code (n + 1)) ↔
      Misses n lo hi (chain : Chain Code (n + 1)) := by
  induction n with
  | zero => exact last_dimension_empty legal
  | succ n ih =>
      rw [deep_iff n lo hi chain legal filled [], and_iff_right rfl]
      apply forall₂_congr
      intro stride member
      apply or_congr_right
      apply exists₂_congr
      intro grid nextdim
      apply and_congr_right
      intro ⟨before, after, split, _⟩
      have inGrids : grid ∈ stride.contents := by
        rw [split]
        exact List.mem_append_right _ List.mem_cons_self
      apply and_congr_right
      intro son
      have deeper := ih (Fin.tail lo) (Fin.tail hi) nextdim
        (((legal stride member).2 grid inGrids).2 nextdim son)
        ((filled stride member).2.2 grid inGrids nextdim son)
      exact (map_nullable_iff _).trans deeper

/-- The claim holds of the chain and the box exactly if they are spared. -/
theorem intersect_strides (n : Nat) (lo hi : Fin (n + 1) → Int) (chain : Chain Code (n + 1))
    (legal : Legal (n + 1) chain) (marked : Marked (n + 1) chain)
    (filled : Filled (n + 1) chain) :
    (∃ result, intersectStridesArray n lo hi chain = some result ∧
      Intersects lo hi chain result) ↔ Spared n lo hi chain := by
  cases n with
  | zero => exact last_dimension_iff legal marked filled
  | succ n =>
      have empty := intersect_empty (n + 1) lo hi chain legal filled
      constructor
      · rintro ⟨result, runs, intersects⟩
        obtain ⟨rfl, _⟩ := (deep_iff n lo hi chain legal filled result).mp runs
        refine ⟨empty.mp runs, fun iv code inside executes => ?_⟩
        obtain ⟨stride, member, _⟩ := (intersects.assigns_iff iv code).mpr ⟨inside, executes⟩
        cases member
      · rintro ⟨misses, nothing⟩
        refine ⟨_, empty.mpr misses, List.forall_mem_nil _, List.forall_mem_nil _,
          fun iv code => ?_⟩
        constructor
        · rintro ⟨stride, member, _⟩
          cases member
        · rintro ⟨inside, executes⟩
          exact absurd executes (nothing iv code inside)

/-- A grid with code at the indices 0 to 2 and a noop grid at the index 3. -/
def gapped : Chain Nat 1 :=
  ([⟨0, 4, 4, [⟨0, 3, ⟨false, some (1 : Nat)⟩⟩, ⟨3, 4, ⟨true, none⟩⟩]⟩] :
    List (Stride (Chain Nat 0)))

theorem gapped_spared : Spared 0 (fun _ => 1) (fun _ => 3) gapped := by
  intro stride member grid inGrids noop
  obtain rfl := List.mem_singleton.mp member
  rcases List.mem_pair.mp inGrids with rfl | rfl
  · cases noop
  · rintro ⟨index, ⟨from1, _⟩, ⟨_, upper⟩, ⟨lower, _⟩⟩
    have nonneg : 0 ≤ index := from1
    have inBox : index < 3 := upper
    have offset : 3 ≤ (index - 0) % 4 := lower
    omega

theorem intersect_strides_gapped :
    ∃ result, intersectStridesArray 0 (fun _ => 1) (fun _ => 3) gapped = some result ∧
      Intersects (fun _ => 1) (fun _ => 3) gapped result := by
  apply (intersect_strides 0 _ _ gapped ?_ ?_ ?_).mpr gapped_spared
  · intro stride member
    obtain rfl := List.mem_singleton.mp member
    refine ⟨List.cons_ne_nil _ _, fun grid inGrids => ?_⟩
    rcases List.mem_pair.mp inGrids with rfl | rfl
    · exact ⟨⟨by decide, by decide, by decide⟩, fun _ _ => trivial⟩
    · exact ⟨⟨by decide, by decide, by decide⟩, fun _ _ => trivial⟩
  · intro stride member grid inGrids
    obtain rfl := List.mem_singleton.mp member
    rcases List.mem_pair.mp inGrids with rfl | rfl
    · exact ⟨by decide, fun _ _ => trivial⟩
    · exact ⟨by decide, fun _ _ => trivial⟩
  · intro stride member
    obtain rfl := List.mem_singleton.mp member
    refine ⟨List.pairwise_pair.mpr ?_, ?_, fun _ _ _ _ => trivial⟩
    · rintro offset ⟨_, upper⟩ ⟨lower, _⟩
      exact absurd upper (Int.not_lt.mpr lower)
    · intro offset lower upper
      rcases Int.lt_or_le offset 3 with before | from3
      · exact ⟨_, List.mem_cons_self, lower, before⟩
      · exact ⟨_, List.mem_cons_of_mem _ List.mem_cons_self, from3, upper⟩

/-- Four indices and one grid. -/
def evenStride {n : Nat} (inner : Chain Nat n) : Chain Nat (n + 1) :=
  ([⟨0, 4, 1, [⟨0, 1, ⟨false, some inner⟩⟩]⟩] : List (Stride (Chain Nat n)))

theorem even_stride_cubes {n : Nat} (inner : Chain Nat n) (legal : Legal n inner)
    (marked : Marked n inner) (filled : Filled n inner) :
    Legal (n + 1) (evenStride inner) ∧ Marked (n + 1) (evenStride inner) ∧
      Filled (n + 1) (evenStride inner) := by
  refine ⟨?_, ?_, ?_⟩
  · intro stride member
    obtain rfl := List.mem_singleton.mp member
    refine ⟨List.cons_ne_nil _ _, fun grid inGrids => ?_⟩
    obtain rfl := List.mem_singleton.mp inGrids
    exact ⟨⟨Int.le_refl 0, Int.zero_lt_one, Int.le_refl 1⟩,
      fun _ son => Option.some.inj son ▸ legal⟩
  · intro stride member grid inGrids
    obtain rfl := List.mem_singleton.mp member
    obtain rfl := List.mem_singleton.mp inGrids
    exact ⟨iff_of_false Bool.false_ne_true (Option.some_ne_none inner),
      fun _ son => Option.some.inj son ▸ marked⟩
  · intro stride member
    obtain rfl := List.mem_singleton.mp member
    refine ⟨List.pairwise_singleton _ _, fun offset lower upper =>
      ⟨_, List.mem_cons_self, lower, upper⟩, fun grid inGrids => ?_⟩
    obtain rfl := List.mem_singleton.mp inGrids
    exact fun _ son => Option.some.inj son ▸ filled

/-- Code at the indices 0 to 3 in each of two dimensions. -/
def plane : Chain Nat 2 :=
  evenStride (evenStride ((1 : Nat) : Chain Nat 0))

/-- The counter of no code is increased for the grid that has a next dimension. -/
theorem plane_not_intersected : (Legal 2 plane ∧ Marked 2 plane ∧ Filled 2 plane) ∧
    ¬ ∃ result, intersectStridesArray 1 (fun _ => 0) (fun _ => 4) plane = some result ∧
      Intersects (fun _ => 0) (fun _ => 4) plane result := by
  constructor
  · obtain ⟨legal, marked, filled⟩ := even_stride_cubes (n := 0) (1 : Nat) trivial trivial trivial
    exact even_stride_cubes _ legal marked filled
  · rintro ⟨result, runs, _⟩
    have crashes : intersectStridesArray 1 (fun _ => 0) (fun _ => 4) plane = none := by rfl
    rw [crashes] at runs
    cases runs

end Boxes

end Sac2c.SegmentBoxes
