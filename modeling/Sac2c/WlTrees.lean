import Mathlib.Logic.Function.Basic
import Mathlib.Order.Lattice
import Mathlib.Tactic.Common

/-!
The trees with-loops are compiled from. Blocks cut a dimension into windows
that their sons are run in, strides walk through a window, and the grids of a
stride lead to the next dimension or to code.
-/

namespace Sac2c.WlTrees

/-- A chain of N_wlblock or N_wlublock (`unrolled`), N_wlstride or N_wlgrid nodes; the last
field of a node is its successor. -/
inductive WlNode (Code : Type) where
  | null
  | block (unrolled : Bool) (bound1 bound2 step : Int) (contents nextdim next : WlNode Code)
  | stride (bound1 bound2 step : Int) (contents next : WlNode Code)
  | grid (bound1 bound2 : Int) (nextdim : WlNode Code) (code : Option Code) (next : WlNode Code)
  deriving DecidableEq

variable {Code : Type}

inductive Kind where
  | block | ublock | stride | grid
  deriving DecidableEq

namespace WlNode

def kind : WlNode Code → Option Kind
  | null => none
  | block false .. => some .block
  | block true .. => some .ublock
  | stride .. => some .stride
  | grid .. => some .grid

def next : WlNode Code → WlNode Code
  | null => null
  | block _ _ _ _ _ _ next | stride _ _ _ _ next | grid _ _ _ _ next => next

end WlNode

section Meaning

/-- The indices of a dimension from `first` to before `last`. -/
structure Window where
  first : Int
  last : Int

/-- Where a node that ends before `bound2` stops. -/
def Window.stop (window : Window) (bound2 : Int) : Int :=
  min (window.first + bound2) window.last

/-- A node begins at `bound1` and again every `step` indices. -/
def Window.Starts (window : Window) (bound1 bound2 step first : Int) : Prop :=
  ∃ k : Nat, first = window.first + bound1 + k * step ∧ first < window.stop bound2

/-- The chain, in dimension `dim` and with a window in each, executes `code` at `iv`. Blocks
are nested over the dimensions from `base` on, and their contents begin with `base` again. -/
def Runs : WlNode Code → Nat → Nat → (Nat → Window) → (Nat → Int) → Code → Prop
  | .null, _, _, _, _, _ => False
  | .block _ bound1 bound2 step contents nextdim next, base, dim, windows, iv, code =>
      (∃ first, (windows dim).Starts bound1 bound2 step first ∧
        let piece := ⟨first, min (first + step) ((windows dim).stop bound2)⟩
        (Runs nextdim base (dim + 1) (Function.update windows dim piece) iv code ∨
          Runs contents base base (Function.update windows dim piece) iv code)) ∨
      Runs next base dim windows iv code
  | .stride bound1 bound2 step contents next, base, dim, windows, iv, code =>
      (∃ first, (windows dim).Starts bound1 bound2 step first ∧
        Runs contents base dim
          (Function.update windows dim ⟨first, (windows dim).stop bound2⟩) iv code) ∨
      Runs next base dim windows iv code
  | .grid bound1 bound2 nextdim code' next, base, dim, windows, iv, code =>
      ((windows dim).first + bound1 ≤ iv dim ∧ iv dim < (windows dim).stop bound2 ∧
        (Runs nextdim (dim + 1) (dim + 1) windows iv code ∨ code' = some code)) ∨
      Runs next base dim windows iv code

/-- Two trees execute the same code on the same index vectors, wherever they are run. -/
def Same (tree tree' : WlNode Code) : Prop :=
  ∀ base dim windows iv code, base ≤ dim →
    (Runs tree' base dim windows iv code ↔ Runs tree base dim windows iv code)

namespace Same

variable {tree tree' tree'' : WlNode Code}

theorem refl (tree : WlNode Code) : Same tree tree := fun _ _ _ _ _ _ => Iff.rfl

theorem trans (first : Same tree tree') (second : Same tree' tree'') : Same tree tree'' :=
  fun base dim windows iv code deep =>
    (second base dim windows iv code deep).trans (first base dim windows iv code deep)

variable {contents contents' nextdim nextdim' next next' : WlNode Code}

/-- The sons of a node may be replaced. -/
theorem block (unrolled : Bool) (bound1 bound2 step : Int) (inner : Same contents contents')
    (deeper : Same nextdim nextdim') (rest : Same next next') :
    Same (.block unrolled bound1 bound2 step contents nextdim next)
      (.block unrolled bound1 bound2 step contents' nextdim' next') := by
  intro base dim windows iv code deep
  apply or_congr _ (rest base dim windows iv code deep)
  apply exists_congr
  intro first
  apply and_congr_right
  intro _
  exact or_congr (deeper _ _ _ _ _ (Nat.le_succ_of_le deep)) (inner _ _ _ _ _ (Nat.le_refl _))

theorem stride (bound1 bound2 step : Int) (inner : Same contents contents')
    (rest : Same next next') :
    Same (.stride bound1 bound2 step contents next)
      (.stride bound1 bound2 step contents' next') := by
  intro base dim windows iv code deep
  apply or_congr _ (rest base dim windows iv code deep)
  exact exists_congr fun first => and_congr_right fun _ => inner _ _ _ _ _ deep

theorem grid (bound1 bound2 : Int) (code : Option Code) (deeper : Same nextdim nextdim')
    (rest : Same next next') :
    Same (.grid bound1 bound2 nextdim code next) (.grid bound1 bound2 nextdim' code next') := by
  intro base dim windows iv executed deep
  apply or_congr _ (rest base dim windows iv executed deep)
  apply and_congr_right
  intro _
  exact and_congr_right fun _ => or_congr_left (deeper _ _ _ _ _ (Nat.le_refl _))

end Same

/-- What is run does not depend on the windows before `base`. -/
theorem Runs.congr {tree : WlNode Code} {base dim : Nat} {windows windows' : Nat → Window}
    {iv : Nat → Int} {code : Code} (deep : base ≤ dim)
    (agree : ∀ e, base ≤ e → windows e = windows' e) :
    Runs tree base dim windows iv code ↔ Runs tree base dim windows' iv code := by
  have update (dim : Nat) (piece : Window) (windows windows' : Nat → Window) (base : Nat)
      (agree : ∀ e, base ≤ e → windows e = windows' e) :
      ∀ e, base ≤ e → Function.update windows dim piece e = Function.update windows' dim piece e := by
    intro e above
    by_cases same : e = dim
    · rw [same, Function.update_self, Function.update_self]
    · rw [Function.update_of_ne same, Function.update_of_ne same, agree e above]
  induction tree generalizing base dim windows windows' with
  | null => rfl
  | block unrolled bound1 bound2 step contents nextdim next inner deeper rest =>
      rw [Runs, Runs, agree dim deep]
      apply or_congr _ (rest deep agree)
      apply exists_congr
      intro first
      apply and_congr_right
      intro _
      apply or_congr
      · exact deeper (Nat.le_succ_of_le deep) (update dim _ _ _ base agree)
      · exact inner (Nat.le_refl _) (update dim _ _ _ base agree)
  | stride bound1 bound2 step contents next inner rest =>
      rw [Runs, Runs, agree dim deep]
      apply or_congr _ (rest deep agree)
      apply exists_congr
      intro first
      exact and_congr_right fun _ => inner deep (update dim _ _ _ base agree)
  | grid bound1 bound2 nextdim code' next deeper rest =>
      rw [Runs, Runs, agree dim deep]
      apply or_congr _ (rest deep agree)
      apply and_congr_right
      intro _
      apply and_congr_right
      intro _
      apply or_congr_left
      exact deeper (Nat.le_refl _) fun e above =>
        agree e (Nat.le_trans deep (Nat.le_trans (Nat.le_succ dim) above))

end Meaning

section WellFormed

/-- Grids of a stride with this step, in ascending order and apart. -/
def Grids (step : Int) : Int → WlNode Code → Prop
  | lower, .grid bound1 bound2 _ _ next =>
      lower ≤ bound1 ∧ bound1 < bound2 ∧ bound2 ≤ step ∧ (next = .null ∨ Grids step bound2 next)
  | _, _ => False

/-- The lower bound of the first grid. -/
def offset : WlNode Code → Int
  | .grid bound1 .. => bound1
  | _ => 0

/-- What follows in a chain is of the same kind. -/
def Follows (kind : Kind) (next : WlNode Code) : Prop := next.kind = none ∨ next.kind = some kind

/-- No node is empty, and sons are where they belong. -/
def WellFormed : WlNode Code → Prop
  | .null => True
  | .block unrolled bound1 bound2 step contents nextdim next =>
      bound1 < bound2 ∧ 0 < step ∧ (contents = .null ∨ nextdim = .null) ∧
        Follows (if unrolled then .ublock else .block) next ∧
        WellFormed contents ∧ WellFormed nextdim ∧ WellFormed next
  | .stride bound1 bound2 step contents next =>
      bound1 + offset contents < bound2 ∧ 0 < step ∧ Grids step 0 contents ∧
        Follows .stride next ∧ WellFormed contents ∧ WellFormed next
  | .grid bound1 bound2 nextdim code next =>
      bound1 < bound2 ∧ (nextdim = .null ∨ code = none) ∧ Follows .grid next ∧
        WellFormed nextdim ∧ WellFormed next

variable {step lower : Int} {grids : WlNode Code}

theorem Grids.offset_le (sorted : Grids step lower grids) : lower ≤ offset grids := by
  cases grids with
  | grid _ _ _ _ _ => exact sorted.1
  | null | block _ _ _ _ _ _ _ | stride _ _ _ _ _ => cases sorted

theorem Grids.from_offset (sorted : Grids step lower grids) : Grids step (offset grids) grids := by
  cases grids with
  | grid _ _ _ _ _ => exact ⟨Int.le_refl _, sorted.2⟩
  | null | block _ _ _ _ _ _ _ | stride _ _ _ _ _ => cases sorted

end WellFormed

section Picking

variable {step lower offset : Int} {grids : WlNode Code} {base dim : Nat}
  {windows : Nat → Window} {iv : Nat → Int} {code : Code}

/-- What the grids have at an offset from the start of their stride. -/
def Picks (offset : Int) (dim : Nat) (windows : Nat → Window) (iv : Nat → Int) (code : Code) :
    WlNode Code → Prop
  | .grid bound1 bound2 nextdim code' next =>
      (bound1 ≤ offset ∧ offset < bound2 ∧
        (Runs nextdim (dim + 1) (dim + 1) windows iv code ∨ code' = some code)) ∨
      Picks offset dim windows iv code next
  | _ => False

theorem Grids.runs_iff (sorted : Grids step lower grids) :
    Runs grids base dim windows iv code ↔ iv dim < (windows dim).last ∧
      Picks (iv dim - (windows dim).first) dim windows iv code grids := by
  induction grids generalizing lower with
  | grid bound1 bound2 nextdim code' next deeper rest =>
      have here : (windows dim).first + bound1 ≤ iv dim ∧ iv dim < (windows dim).stop bound2 ↔
          iv dim < (windows dim).last ∧ bound1 ≤ iv dim - (windows dim).first ∧
            iv dim - (windows dim).first < bound2 := by
        rw [Window.stop]
        omega
      have later : Runs next base dim windows iv code ↔ iv dim < (windows dim).last ∧
          Picks (iv dim - (windows dim).first) dim windows iv code next := by
        rcases sorted.2.2.2 with rfl | sorted
        · exact iff_of_false id fun picked => picked.2
        · exact rest sorted
      rw [Runs, Picks, later, ← and_assoc, here, and_assoc, and_assoc]
      exact and_or_left.symm
  | null | block _ _ _ _ _ _ _ | stride _ _ _ _ _ => cases sorted

theorem Grids.picks_range (sorted : Grids step lower grids)
    (picked : Picks offset dim windows iv code grids) : lower ≤ offset ∧ offset < step := by
  induction grids generalizing lower with
  | grid bound1 bound2 nextdim code' next deeper rest =>
      obtain ⟨above, wide, within, more⟩ := sorted
      rcases picked with ⟨from1, to2, -⟩ | picked
      · omega
      · rcases more with rfl | sorted
        · cases picked
        · have range := rest sorted picked
          omega
  | null | block _ _ _ _ _ _ _ | stride _ _ _ _ _ => cases sorted

/-- Grids look at later dimensions only. -/
theorem picks_update (piece : Window) : Picks offset dim (Function.update windows dim piece) iv code
    grids ↔ Picks offset dim windows iv code grids := by
  induction grids with
  | grid bound1 bound2 nextdim code' next deeper rest =>
      apply or_congr _ rest
      apply and_congr_right
      intro _
      apply and_congr_right
      intro _
      apply or_congr_left
      apply Runs.congr (Nat.le_refl _)
      intro e above
      exact Function.update_of_ne (Nat.ne_of_gt above) _ _
  | null | block _ _ _ _ _ _ _ | stride _ _ _ _ _ => rfl

/-- A stride executes what its grids have at the distance from one of its starts. -/
theorem runs_stride {bound1 bound2 : Int} {next : WlNode Code} (sorted : Grids step lower grids)
    (pace : Int) : Runs (.stride bound1 bound2 pace grids next) base dim windows iv code ↔
      (∃ first, (windows dim).Starts bound1 bound2 pace first ∧
        iv dim < (windows dim).stop bound2 ∧ Picks (iv dim - first) dim windows iv code grids) ∨
      Runs next base dim windows iv code := by
  apply or_congr_left
  apply exists_congr
  intro first
  apply and_congr_right
  intro _
  rw [sorted.runs_iff, picks_update, Function.update_self]

end Picking

end Sac2c.WlTrees
