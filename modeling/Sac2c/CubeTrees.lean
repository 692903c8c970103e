import Sac2c.CubeSplitting
import Sac2c.WlTrees

/-!
Chains of cubes as with-loop trees. What a tree of cubes runs is what the cubes
assign, so that cube splitting leaves a tree that runs the same code.
-/

namespace Sac2c.CubeTrees

open Cubes CubeSplitting WlTrees

variable {Code : Type}

section Trees

/-- The chain of N_wlgrid nodes; `inner` gives WLGRID_NEXTDIM and WLGRID_CODE. -/
def gridChain {Inner : Type} (inner : Inner → WlNode Code × Option Code) :
    List (Grid Inner) → WlNode Code
  | [] => .null
  | grid :: rest =>
      .grid grid.bound1 grid.bound2 (inner grid.inner).1 (inner grid.inner).2
        (gridChain inner rest)

def cubeNode : (n : Nat) → Cube Code n → WlNode Code × Option Code
  | 0, code => (.null, code)
  | n + 1, (stride : Stride (Cube Code n)) =>
      (.stride stride.bound1 stride.bound2 stride.step (gridChain (cubeNode n) stride.contents)
        .null, none)

/-- The chain of N_wlstride nodes. -/
def cubeChain (n : Nat) : List (Cube Code (n + 1)) → WlNode Code
  | [] => .null
  | (stride : Stride (Cube Code n)) :: rest =>
      .stride stride.bound1 stride.bound2 stride.step (gridChain (cubeNode n) stride.contents)
        (cubeChain n rest)

end Trees

section Runs
variable {base dim : Nat} {windows : Nat → Window} {iv : Nat → Int} {code : Code}

theorem runs_grid_chain {Inner : Type} (inner : Inner → WlNode Code × Option Code)
    (grids : List (Grid Inner)) : Runs (gridChain inner grids) base dim windows iv code ↔
      ∃ grid ∈ grids, (windows dim).first + grid.bound1 ≤ iv dim ∧
        iv dim < (windows dim).stop grid.bound2 ∧
        (Runs (inner grid.inner).1 (dim + 1) (dim + 1) windows iv code ∨
          (inner grid.inner).2 = some code) := by
  induction grids with
  | nil => simp [gridChain, Runs]
  | cons grid rest ih => rw [gridChain, Runs, ih, List.exists_mem_cons_iff]

/-- The windows from a dimension on begin at 0, and the index vector is before their ends. -/
def Contains (windows : Nat → Window) (dim : Nat) (iv : Nat → Int) : Prop :=
  ∀ e, dim ≤ e → (windows e).first = 0 ∧ iv e < (windows e).last

/-- A stride starts at the index that has the offset of its grids. -/
theorem starts_iff {bound1 bound2 step last x lower upper : Int} (before : x < last)
    (from0 : 0 ≤ lower) (within : upper ≤ step) :
    (∃ first, (Window.mk 0 last).Starts bound1 bound2 step first ∧ first + lower ≤ x ∧
      x < (Window.mk first ((Window.mk 0 last).stop bound2)).stop upper) ↔
      bound1 ≤ x ∧ x < bound2 ∧ lower ≤ (x - bound1) % step ∧ (x - bound1) % step < upper := by
  constructor
  · rintro ⟨first, ⟨k, start, _⟩, after, inside⟩
    dsimp only [Window.stop] at start inside
    have apart : x - bound1 = x - first + k * step := by omega
    have offset : (x - bound1) % step = x - first := by
      rw [apart, Int.add_mul_emod_self_right]
      exact Int.emod_eq_of_lt (by omega) (by omega)
    have rounds : 0 ≤ (k : Int) * step := Int.mul_nonneg (by omega) (by omega)
    omega
  · rintro ⟨from1, to2, above, below⟩
    have positive : 0 < step := by omega
    have quotient : 0 ≤ (x - bound1) / step := Int.ediv_nonneg (by omega) positive.le
    have nonneg := Int.emod_nonneg (x - bound1) positive.ne'
    have whole := Int.ediv_mul_add_emod (x - bound1) step
    refine ⟨x - (x - bound1) % step, ⟨((x - bound1) / step).toNat, ?_, ?_⟩, ?_, ?_⟩
    · rw [Int.toNat_of_nonneg quotient]
      dsimp only
      omega
    · dsimp only [Window.stop]
      omega
    · omega
    · dsimp only [Window.stop]
      omega

theorem runs_stride_node {Inner : Type} (inner : Inner → WlNode Code × Option Code)
    (stride : Stride Inner) (next : WlNode Code) (holds : Inner → Prop)
    (within : ∀ grid ∈ stride.contents, grid.Within stride.step)
    (deeper : ∀ grid ∈ stride.contents, ∀ windows', Contains windows' (dim + 1) iv →
      ((Runs (inner grid.inner).1 (dim + 1) (dim + 1) windows' iv code ∨
        (inner grid.inner).2 = some code) ↔ holds grid.inner))
    (contains : Contains windows dim iv) :
    Runs (.stride stride.bound1 stride.bound2 stride.step (gridChain inner stride.contents) next)
        base dim windows iv code ↔
      (stride.bound1 ≤ iv dim ∧ iv dim < stride.bound2 ∧ ∃ grid ∈ stride.contents,
        grid.Covers ((iv dim - stride.bound1) % stride.step) ∧ holds grid.inner) ∨
      Runs next base dim windows iv code := by
  obtain ⟨begins, before⟩ := contains dim (Nat.le_refl dim)
  have window : windows dim = ⟨0, (windows dim).last⟩ := by
    rw [← begins]
  have later (piece : Window) : Contains (Function.update windows dim piece) (dim + 1) iv := by
    intro e after
    rw [Function.update_of_ne (by omega)]
    exact contains e (by omega)
  apply or_congr_left
  simp only [runs_grid_chain, Function.update_self]
  rw [window]
  constructor
  · rintro ⟨first, starts, grid, member, above, below, run⟩
    obtain ⟨from1, to2, covered⟩ := (starts_iff before (within grid member).1
      (within grid member).2.2).mp ⟨first, starts, above, below⟩
    exact ⟨from1, to2, grid, member, covered, (deeper grid member _ (later _)).mp run⟩
  · rintro ⟨from1, to2, grid, member, covered, here⟩
    obtain ⟨first, starts, above, below⟩ := (starts_iff before (within grid member).1
      (within grid member).2.2).mpr ⟨from1, to2, covered⟩
    exact ⟨first, starts, grid, member, above, below, (deeper grid member _ (later _)).mpr here⟩

/-- A stride of a chain runs what its cube assigns. -/
theorem runs_cube (n : Nat) (cube : Cube Code (n + 1)) (regular : Regular (n + 1) cube)
    (next : WlNode Code) (contains : Contains windows dim iv) :
    Runs (.stride cube.bound1 cube.bound2 cube.step (gridChain (cubeNode n) cube.contents) next)
        base dim windows iv code ↔
      Assigns (n + 1) cube (fun d => iv (dim + d)) code ∨ Runs next base dim windows iv code := by
  induction n generalizing base dim windows next with
  | zero =>
      exact runs_stride_node (cubeNode 0) cube next (fun inner => inner = some code)
        (fun grid member => (regular.2.2 grid member).1)
        (fun _ _ _ _ => ⟨fun run => run.resolve_left id, Or.inr⟩) contains
  | succ n ih =>
      have deeper (grid : Grid (Cube Code (n + 1))) (member : grid ∈ cube.contents)
          (windows' : Nat → Window) (contains' : Contains windows' (dim + 1) iv) :
          (Runs (cubeNode (n + 1) grid.inner).1 (dim + 1) (dim + 1) windows' iv code ∨
            (cubeNode (n + 1) grid.inner).2 = some code) ↔
          Assigns (n + 1) grid.inner (fun d => iv (dim + 1 + d)) code := by
        have node : Runs (cubeNode (n + 1) grid.inner).1 (dim + 1) (dim + 1) windows' iv code ↔
            _ ∨ Runs .null (dim + 1) (dim + 1) windows' iv code :=
          ih grid.inner (regular.2.2 grid member).2.1 .null contains'
        constructor
        · rintro (run | none)
          · exact (node.mp run).resolve_right id
          · cases none
        · exact fun executes => Or.inl (node.mpr (Or.inl executes))
      have tail : (fun d : Fin (n + 1) => iv (dim + 1 + d)) =
          Fin.tail fun d : Fin (n + 2) => iv (dim + d) := by
        funext d
        simp only [Fin.tail, Fin.val_succ]
        congr 1
        omega
      rw [tail] at deeper
      exact runs_stride_node (cubeNode (n + 1)) cube next
        (fun inner => Assigns (n + 1) inner (Fin.tail fun d : Fin (n + 2) => iv (dim + d)) code)
        (fun grid member => (regular.2.2 grid member).1) deeper contains

theorem runs_cube_chain (n : Nat) (cubes : List (Cube Code (n + 1)))
    (regular : ∀ cube ∈ cubes, Regular (n + 1) cube) (contains : Contains windows dim iv) :
    Runs (cubeChain n cubes) base dim windows iv code ↔
      ∃ cube ∈ cubes, Assigns (n + 1) cube (fun d => iv (dim + d)) code := by
  induction cubes with
  | nil => simp [cubeChain, Runs]
  | cons cube rest ih =>
      have others := ih fun other member => regular other (List.mem_cons_of_mem _ member)
      rw [List.exists_mem_cons_iff, ← others]
      exact runs_cube n cube (regular cube List.mem_cons_self) _ contains

/-- The tree of the strides runs the code that the tree of the cubes runs. -/
theorem split_wl_runs {n : Nat} (cubes : List (Cube Code (n + 1)))
    (whole : Fin (n + 1) → Int × Int) (tiles : TileBox cubes whole) :
    ∃ rounds strides, splitWl rounds cubes = some strides ∧
      ∀ base dim windows iv code, Contains windows dim iv →
        (Runs (cubeChain n strides) base dim windows iv code ↔
          Runs (cubeChain n cubes) base dim windows iv code) := by
  obtain ⟨rounds, strides, done, invariant, _⟩ := split_wl_run cubes cubes tiles.invariant
  refine ⟨rounds, strides, done, fun base dim windows iv code contains => ?_⟩
  rw [runs_cube_chain n strides invariant.regular contains,
    runs_cube_chain n cubes tiles.regular contains]
  exact invariant.assigns_iff tiles.regular _ code

end Runs

end Sac2c.CubeTrees
