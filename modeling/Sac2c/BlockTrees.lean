import Mathlib.Data.Int.GCD
import Mathlib.Logic.Function.Basic

/-!
Blocks are laid around the strides of a segment, in one pass for each blocking vector and a
last one for the unrolling vector (BlockStride, BlockWl and GetLcmUnroll of
wltransform/wltransform.c). An inner node reaches from 0 to the size of the block around it.
-/

namespace Sac2c.BlockTrees

/-- WLNODE_LEVEL, WLNODE_DIM, the bounds and the step. -/
structure Attrs where
  level : Nat
  dim : Nat
  bound1 : Int
  bound2 : Int
  step : Int
  deriving DecidableEq

/-- A chain of N_wlblock or N_wlublock (`unrolled`), N_wlstride or N_wlgrid nodes; the last
field of a node is its successor. -/
inductive WlNode (Code : Type) where
  | null
  | block (unrolled : Bool) (attrs : Attrs) (contents nextdim next : WlNode Code)
  | stride (attrs : Attrs) (contents next : WlNode Code)
  | grid (bound1 bound2 : Int) (nextdim : WlNode Code) (code : Option Code) (next : WlNode Code)
  deriving DecidableEq

section Model

variable {Code : Type}

namespace WlNode

def isNull : WlNode Code → Bool
  | null => true
  | _ => false

def isBlock : WlNode Code → Bool
  | block false .. => true
  | _ => false

end WlNode

/-- The loop of MATHlcm, for as many rounds as there is fuel. -/
def lcmLoop (x y : Nat) : Nat → Nat → Nat → Option Nat
  | 0, _, _ => none
  | fuel + 1, u, v =>
      if u ≠ v then if u < v then lcmLoop x y fuel (u + x) v else lcmLoop x y fuel u (v + y)
      else some u

/-- The result of MATHlcm (see `lcm_loop`). -/
def mathLcm (x y : Int) : Int := Int.lcm x y

/-- GetLcmUnroll. -/
def getLcmUnroll (dim : Nat) (includeBlocks : Bool) : WlNode Code → Int
  | .null => 1
  | .block unrolled attrs contents nextdim next =>
      let unroll := getLcmUnroll dim includeBlocks next
      if attrs.dim = dim ∧ (unrolled ∨ includeBlocks) then mathLcm unroll attrs.step
      else
        mathLcm (mathLcm unroll (getLcmUnroll dim includeBlocks nextdim))
          (getLcmUnroll dim includeBlocks contents)
  | .stride attrs contents next =>
      let unroll := getLcmUnroll dim includeBlocks next
      if attrs.dim = dim then mathLcm unroll attrs.step
      else mathLcm unroll (getLcmUnroll dim includeBlocks contents)
  | .grid _ _ nextdim _ next =>
      mathLcm (getLcmUnroll dim includeBlocks next) (getLcmUnroll dim includeBlocks nextdim)

/-- BlockStride, which is none if an assertion fails. The case of a grid is the loop over the
grids of a stride. -/
def blockStride (bv : Nat → Int) : WlNode Code → Option (WlNode Code)
  | .null => some .null
  | .block .. => none
  | .stride attrs grids next => do
      let grids ← blockStride bv grids
      let next ← blockStride bv next
      some (.stride
        { attrs with level := attrs.level + 1, bound1 := 0, bound2 := bv attrs.dim } grids next)
  | .grid bound1 bound2 nextdim code next => do
      let nextdim ← blockStride bv nextdim
      let next ← blockStride bv next
      some (.grid bound1 bound2 nextdim code next)

/-- The loop of BlockWl that makes a block for each of so many dimensions, from that of the
stride on. The last one gets the contents. -/
def makeBlocks (unroll : Bool) (bv : Nat → Int) (level : Nat) (contents : WlNode Code) :
    Nat → WlNode Code → WlNode Code → Option (WlNode Code)
  | 1, .stride attrs (.grid ..) _, next =>
      some (.block unroll { attrs with level := level, step := bv attrs.dim } contents .null next)
  | dims + 2, .stride attrs (.grid _ _ (.stride deeper grids .null) _ _) _, next => do
      let nextdim ←
        makeBlocks unroll bv level contents (dims + 1) (.stride deeper grids .null) .null
      some (.block unroll { attrs with level := level, step := bv attrs.dim } .null nextdim next)
  | _, _, _ => none

/-- The loops of BlockWl. Of the blocks of a nest it follows WLBLOCK_NEXTDIM only, and so does
not go on to the next node there. The strides of a chain are all of one dimension and level. -/
def blockNodes (iterDims : Nat) (bv : Nat → Int) (unroll : Bool) :
    (siblings : Bool) → WlNode Code → Option (WlNode Code)
  | _, .null => some .null
  | _, .block true .. => none
  | siblings, .block false attrs contents nextdim next => do
      let contents' ← (if nextdim.isNull then blockNodes iterDims bv unroll true contents
        else some contents)
      let nextdim' ← (if nextdim.isNull then some nextdim
        else if nextdim.isBlock then blockNodes iterDims bv unroll false nextdim else none)
      let next' ← (if !siblings then some next
        else if next.isNull || next.isBlock then blockNodes iterDims bv unroll true next else none)
      some (.block false attrs contents' nextdim' next')
  | _, .stride attrs grids next =>
      if bv attrs.dim < 1 then none
      else if bv attrs.dim = 1 then do
        let grids ← blockNodes iterDims bv unroll true grids
        let next ← blockNodes iterDims bv unroll true next
        some (.stride attrs grids next)
      else do
        let contents ← blockStride bv (.stride attrs grids .null)
        let later ← blockNodes iterDims bv unroll true next
        makeBlocks unroll bv attrs.level contents (iterDims - attrs.dim)
          (.stride attrs grids next) later
  | _, .grid bound1 bound2 nextdim code next => do
      let nextdim ← blockNodes iterDims bv unroll true nextdim
      let next ← blockNodes iterDims bv unroll true next
      some (.grid bound1 bound2 nextdim code next)

/-- BlockWl. -/
def blockWl (stride : WlNode Code) (iterDims : Nat) (bv : Nat → Int) (unroll : Bool) :
    Option (WlNode Code) :=
  blockNodes iterDims bv unroll true stride

/-- Hierarchical blocking, and then unrolling-blocking. -/
def blockSegment (strides : WlNode Code) (iterDims : Nat) (bvs : List (Nat → Int))
    (ubv : Nat → Int) : Option (WlNode Code) := do
  let blocked ← bvs.foldlM (fun tree bv => blockWl tree iterDims bv false) strides
  blockWl blocked iterDims ubv true

end Model

section Steps

/-- A multiple below another one leaves room for a step. -/
theorem next_multiple {x u limit : Nat} (multiple : x ∣ u) (top : x ∣ limit) (below : u < limit) :
    u + x ≤ limit := by
  obtain ⟨a, rfl⟩ := multiple
  obtain ⟨b, rfl⟩ := top
  have fewer : a < b := Nat.lt_of_mul_lt_mul_left below
  calc x * a + x = x * (a + 1) := by rw [Nat.mul_succ]
    _ ≤ x * b := Nat.mul_le_mul_left x fewer

/-- The smaller of two multiples grows until they meet, and they cannot pass the lcm. -/
theorem lcm_loop_from {x y u v fuel : Nat} (some : 0 < u) (left : x ∣ u) (right : y ∣ v)
    (lower : u ≤ Nat.lcm x y) (upper : v ≤ Nat.lcm x y) (divisors : 0 < x ∧ 0 < y)
    (enough : 2 * Nat.lcm x y < u + v + fuel) :
    lcmLoop x y fuel u v = Option.some (Nat.lcm x y) := by
  induction fuel generalizing u v with
  | zero => omega
  | succ fuel ih =>
      simp only [lcmLoop]
      split
      · split
        · have room := next_multiple left (Nat.dvd_lcm_left x y) (by omega)
          exact ih (by omega) (Nat.dvd_add left (Nat.dvd_refl x)) right room upper (by omega)
        · have room := next_multiple right (Nat.dvd_lcm_right x y) (by omega)
          exact ih some left (Nat.dvd_add right (Nat.dvd_refl y)) lower room (by omega)
      · rename_i met
        have same : u = v := by omega
        subst same
        exact congrArg Option.some
          (Nat.le_antisymm lower (Nat.le_of_dvd some (Nat.lcm_dvd left right)))

theorem lcm_loop {x y : Nat} (divisors : 0 < x ∧ 0 < y) :
    lcmLoop x y (2 * Nat.lcm x y) x y = some (Nat.lcm x y) := by
  have positive := Nat.lcm_pos divisors.1 divisors.2
  exact lcm_loop_from divisors.1 (Nat.dvd_refl x) (Nat.dvd_refl y)
    (Nat.le_of_dvd positive (Nat.dvd_lcm_left x y))
    (Nat.le_of_dvd positive (Nat.dvd_lcm_right x y)) divisors (by omega)

theorem math_lcm_dvd {x y k : Int} : mathLcm x y ∣ k ↔ x ∣ k ∧ y ∣ k := by
  constructor
  · intro multiple
    exact ⟨(Int.dvd_lcm_left x y).trans multiple, (Int.dvd_lcm_right x y).trans multiple⟩
  · rintro ⟨left, right⟩
    exact Int.coe_lcm_dvd left right

theorem math_lcm_pos {x y : Int} (left : 0 < x) (right : 0 < y) : 0 < mathLcm x y := by
  have nonzero := Int.lcm_ne_zero (Int.ne_of_gt left) (Int.ne_of_gt right)
  simp only [mathLcm]
  omega

variable {Code : Type}

/-- The steps of a dimension that GetLcmUnroll finds: those of the unrolling blocks, and those
of the strides that are not in one. -/
def unrolls (dim : Nat) : WlNode Code → List Int
  | .null => []
  | .block unrolled attrs contents nextdim next =>
      (if attrs.dim = dim ∧ unrolled then [attrs.step]
        else unrolls dim contents ++ unrolls dim nextdim) ++ unrolls dim next
  | .stride attrs contents next =>
      (if attrs.dim = dim then [attrs.step] else unrolls dim contents) ++ unrolls dim next
  | .grid _ _ nextdim _ next => unrolls dim nextdim ++ unrolls dim next

/-- The steps of all strides and unrolling blocks of a dimension. -/
def steps (dim : Nat) : WlNode Code → List Int
  | .null => []
  | .block unrolled attrs contents nextdim next =>
      (if attrs.dim = dim ∧ unrolled then [attrs.step] else []) ++
        (steps dim contents ++ steps dim nextdim) ++ steps dim next
  | .stride attrs contents next =>
      (if attrs.dim = dim then [attrs.step] else []) ++ steps dim contents ++ steps dim next
  | .grid _ _ nextdim _ next => steps dim nextdim ++ steps dim next

def lcmOf (steps : List Int) : Int := steps.foldr mathLcm 1

theorem lcm_of_dvd {steps : List Int} {k : Int} : lcmOf steps ∣ k ↔ ∀ s ∈ steps, s ∣ k := by
  induction steps with
  | nil => simp [lcmOf]
  | cons s rest ih =>
      rw [List.forall_mem_cons, ← ih]
      exact math_lcm_dvd

theorem lcm_of_pos {steps : List Int} (positive : ∀ s ∈ steps, 0 < s) : 0 < lcmOf steps := by
  induction steps with
  | nil => decide
  | cons s rest ih =>
      rw [List.forall_mem_cons] at positive
      exact math_lcm_pos positive.1 (ih positive.2)

theorem dvd_lcm_of {steps : List Int} {s : Int} (member : s ∈ steps) : s ∣ lcmOf steps :=
  lcm_of_dvd.mp (Int.dvd_refl _) s member

theorem lcm_unroll_dvd {dim : Nat} {tree : WlNode Code} {k : Int} :
    getLcmUnroll dim false tree ∣ k ↔ ∀ s ∈ unrolls dim tree, s ∣ k := by
  induction tree with
  | null => simp [getLcmUnroll, unrolls]
  | block unrolled attrs contents nextdim next inner deeper rest =>
      simp only [getLcmUnroll, unrolls, Bool.false_eq_true, or_false]
      split
      · simp [math_lcm_dvd, rest, and_comm]
      · simp only [math_lcm_dvd, rest, deeper, inner, List.forall_mem_append]
        tauto
  | stride attrs contents next inner rest =>
      simp only [getLcmUnroll, unrolls]
      split
      · simp [math_lcm_dvd, rest, and_comm]
      · simp only [math_lcm_dvd, rest, inner, List.forall_mem_append, and_comm]
  | grid bound1 bound2 nextdim code next deeper rest =>
      simp only [getLcmUnroll, unrolls, math_lcm_dvd, rest, deeper, List.forall_mem_append,
        and_comm]

theorem lcm_unroll_pos {dim : Nat} {tree : WlNode Code}
    (positive : ∀ s ∈ unrolls dim tree, 0 < s) : 0 < getLcmUnroll dim false tree := by
  induction tree with
  | null => simp [getLcmUnroll]
  | block unrolled attrs contents nextdim next inner deeper rest =>
      simp only [getLcmUnroll, unrolls, Bool.false_eq_true, or_false] at positive ⊢
      split at positive
      · rename_i found
        simp only [List.forall_mem_append, List.forall_mem_singleton] at positive
        rw [if_pos found]
        exact math_lcm_pos (rest positive.2) positive.1
      · rename_i others
        simp only [List.forall_mem_append] at positive
        rw [if_neg others]
        exact math_lcm_pos (math_lcm_pos (rest positive.2) (deeper positive.1.2))
          (inner positive.1.1)
  | stride attrs contents next inner rest =>
      simp only [getLcmUnroll, unrolls] at positive ⊢
      split at positive
      · rename_i found
        simp only [List.forall_mem_append, List.forall_mem_singleton] at positive
        rw [if_pos found]
        exact math_lcm_pos (rest positive.2) positive.1
      · rename_i others
        simp only [List.forall_mem_append] at positive
        rw [if_neg others]
        exact math_lcm_pos (rest positive.2) (inner positive.1)
  | grid bound1 bound2 nextdim code next deeper rest =>
      simp only [getLcmUnroll, unrolls, List.forall_mem_append] at positive ⊢
      exact math_lcm_pos (rest positive.2) (deeper positive.1)

/-- Both are the lcm of the same steps. -/
theorem lcm_unroll_eq {dim : Nat} {tree : WlNode Code} (positive : ∀ s ∈ unrolls dim tree, 0 < s) :
    getLcmUnroll dim false tree = lcmOf (unrolls dim tree) := by
  refine Int.dvd_antisymm (Int.le_of_lt (lcm_unroll_pos positive))
    (Int.le_of_lt (lcm_of_pos positive)) ?_ ?_
  · exact lcm_unroll_dvd.mpr fun s member => dvd_lcm_of member
  · exact lcm_of_dvd.mpr (lcm_unroll_dvd.mp (Int.dvd_refl _))

end Steps

section Layout

variable {Code : Type}

/-- Where a node of a dimension may stand: outside of all blocks, or inside one of its dimension
from 0 to the size of that block. -/
structure Placed (iterDims level dim : Nat) (outer : Nat → Option Int) (attrs : Attrs) : Prop where
  at_level : attrs.level = level
  at_dim : attrs.dim = dim
  within : dim < iterDims
  positive : 0 < attrs.step
  outermost : level = 0 → outer dim = none
  inner : level ≠ 0 → attrs.bound1 = 0 ∧ outer dim = some attrs.bound2

/-- A chain of nodes, or of grids, of dimension `dim`. The blocks of a nest are those of the
dimensions from `base` on, and `outer` has the sizes of the blocks around the chain. -/
def Laid (iterDims : Nat) (limit : Nat → Int) :
    WlNode Code → (grids : Bool) → (level base dim : Nat) → (Nat → Option Int) → Prop
  | .null, _, _, _, _, _ => True
  | .block unrolled attrs contents nextdim next, grids, level, base, dim, outer =>
      grids = false ∧ Placed iterDims level dim outer attrs ∧
        (contents.isNull ∨ nextdim.isNull) ∧
        (if unrolled then attrs.step ∣ limit dim else limit dim ≤ attrs.step) ∧
        Laid iterDims limit contents false (level + 1) base base
          (Function.update outer dim (some attrs.step)) ∧
        Laid iterDims limit nextdim false level base (dim + 1)
          (Function.update outer dim (some attrs.step)) ∧
        Laid iterDims limit next false level base dim outer
  | .stride attrs contents next, grids, level, base, dim, outer =>
      grids = false ∧ base = dim ∧ Placed iterDims level dim outer attrs ∧
        attrs.step ∣ limit dim ∧
        Laid iterDims limit contents true level dim dim outer ∧
        Laid iterDims limit next false level base dim outer
  | .grid _ _ nextdim _ next, grids, level, base, dim, outer =>
      grids = true ∧ Laid iterDims limit nextdim false level (dim + 1) (dim + 1) outer ∧
        Laid iterDims limit next true level base dim outer

/-- Constant strides that have not been blocked. -/
def Unblocked (iterDims : Nat) : WlNode Code → (grids : Bool) → (dim : Nat) → Prop
  | .null, _, _ => True
  | .block .., _, _ => False
  | .stride attrs contents next, grids, dim =>
      grids = false ∧ attrs.level = 0 ∧ attrs.dim = dim ∧ dim < iterDims ∧ 0 < attrs.step ∧
        Unblocked iterDims contents true dim ∧ Unblocked iterDims next false dim
  | .grid _ _ nextdim _ next, grids, dim =>
      grids = true ∧ Unblocked iterDims nextdim false (dim + 1) ∧ Unblocked iterDims next true dim

variable {iterDims level base dim : Nat} {limit : Nat → Int} {outer : Nat → Option Int}
  {grids : Bool} {tree tree' : WlNode Code} {bv : Nat → Int} {unroll : Bool}

theorem placed_outer {attrs : Attrs} {outer' : Nat → Option Int}
    (placed : Placed iterDims level dim outer attrs) (same : outer' dim = outer dim) :
    Placed iterDims level dim outer' attrs :=
  ⟨placed.at_level, placed.at_dim, placed.within, placed.positive, fun top => same.trans
    (placed.outermost top), fun deep => ⟨(placed.inner deep).1, same.trans (placed.inner deep).2⟩⟩

/-- The limits are those of the dimensions that the strides have. -/
theorem unblocked_laid (unblocked : Unblocked iterDims tree grids dim)
    (divides : ∀ d, (if grids then dim < d else dim ≤ d) → ∀ s ∈ unrolls d tree, s ∣ limit d) :
    Laid iterDims limit tree grids 0 dim dim fun _ => none := by
  induction tree generalizing grids dim with
  | null => trivial
  | block => exact unblocked.elim
  | stride attrs contents next inner rest =>
      obtain ⟨rfl, level, same, within, positive, contents_unblocked, next_unblocked⟩ := unblocked
      simp only [Bool.false_eq_true, if_false] at divides
      refine ⟨rfl, rfl, ⟨level, same, within, positive, fun _ => rfl, by simp⟩, ?_, ?_, ?_⟩
      · exact divides dim (Nat.le_refl dim) _ (by simp [unrolls, same])
      · refine inner contents_unblocked fun d above s member => ?_
        simp only [if_true] at above
        have other : attrs.dim ≠ d := by omega
        exact divides d (Nat.le_of_lt above) s (by simp [unrolls, other, member])
      · refine rest next_unblocked fun d above s member => ?_
        simp only [Bool.false_eq_true, if_false] at above
        exact divides d above s (by simp [unrolls, member])
  | grid bound1 bound2 nextdim code next deeper rest =>
      obtain ⟨rfl, nextdim_unblocked, next_unblocked⟩ := unblocked
      simp only [if_true] at divides
      refine ⟨rfl, ?_, ?_⟩
      · refine deeper nextdim_unblocked fun d above s member => ?_
        simp only [Bool.false_eq_true, if_false] at above
        exact divides d above s (by simp [unrolls, member])
      · refine rest next_unblocked fun d above s member => ?_
        simp only [if_true] at above
        exact divides d above s (by simp [unrolls, member])

/-- All nodes of the contents of new blocks stand in a block of their dimension. -/
theorem block_stride_laid {outer' : Nat → Option Int}
    (laid : Laid iterDims limit tree grids level base dim outer)
    (done : blockStride bv tree = some tree')
    (covered : ∀ d, dim ≤ d → d < iterDims → outer' d = some (bv d)) :
    Laid iterDims limit tree' grids (level + 1) base dim outer' := by
  induction tree generalizing grids base dim tree' with
  | null =>
      cases done
      trivial
  | block => cases done
  | stride attrs contents next inner rest =>
      obtain ⟨rfl, rfl, placed, divides, contents_laid, next_laid⟩ := laid
      simp only [blockStride, Option.bind_eq_bind, Option.bind_eq_some_iff] at done
      obtain ⟨contents', contents_done, next', next_done, same⟩ := done
      cases same
      refine ⟨rfl, rfl, ⟨congrArg (· + 1) placed.at_level, placed.at_dim, placed.within,
        placed.positive, by simp, fun _ => ⟨rfl, ?_⟩⟩, divides, ?_, ?_⟩
      · rw [placed.at_dim]
        exact covered _ (Nat.le_refl _) placed.within
      · exact inner contents_laid contents_done covered
      · exact rest next_laid next_done covered
  | grid bound1 bound2 nextdim code next deeper rest =>
      obtain ⟨rfl, nextdim_laid, next_laid⟩ := laid
      simp only [blockStride, Option.bind_eq_bind, Option.bind_eq_some_iff] at done
      obtain ⟨nextdim', nextdim_done, next', next_done, same⟩ := done
      cases same
      refine ⟨rfl, ?_, rest next_laid next_done covered⟩
      exact deeper nextdim_laid nextdim_done fun d above => covered d (by omega)

/-- Sizes that blocks of the dimension may have. -/
def Sized (limit bv : Nat → Int) (unroll : Bool) (d : Nat) : Prop :=
  0 < bv d ∧ if unroll then bv d ∣ limit d else limit d ≤ bv d

/-- Induction over the dimensions for which a block is made. -/
theorem make_blocks_laid {count : Nat} {stride later made inside : WlNode Code}
    {around : Nat → Option Int} (stride_laid : Laid iterDims limit stride false level dim dim outer)
    (same : ∀ d, dim ≤ d → around d = outer d)
    (before : ∀ d, base ≤ d → d < dim → around d = some (bv d)) (deep : base ≤ dim)
    (inside_laid : ∀ covering : Nat → Option Int,
      (∀ d, base ≤ d → d < iterDims → covering d = some (bv d)) →
        Laid iterDims limit inside false (level + 1) base base covering)
    (sized : ∀ d, dim ≤ d → d < iterDims → Sized limit bv unroll d)
    (later_laid : Laid iterDims limit later false level base dim around)
    (rank : count + dim = iterDims)
    (done : makeBlocks unroll bv level inside count stride later = some made) :
    Laid iterDims limit made false level base dim around := by
  induction count generalizing dim stride later made around with
  | zero => cases done
  | succ count ih =>
      have placed_block : ∀ {attrs : Attrs}, Placed iterDims level dim outer attrs →
          Placed iterDims level dim around { attrs with level := level, step := bv attrs.dim } ∧
            (if unroll then bv attrs.dim ∣ limit dim else limit dim ≤ bv attrs.dim) := by
        intro attrs placed
        have size := sized dim (Nat.le_refl dim) placed.within
        rw [← placed.at_dim] at size
        have moved := placed_outer placed (same dim (Nat.le_refl dim))
        refine ⟨⟨rfl, moved.at_dim, moved.within, size.1, moved.outermost, moved.inner⟩, ?_⟩
        simpa only [Sized, placed.at_dim] using size.2
      have covered : ∀ {attrs : Attrs}, Placed iterDims level dim outer attrs →
          ∀ d, base ≤ d → d < dim + 1 →
            Function.update around dim (some (bv attrs.dim)) d = some (bv d) := by
        intro attrs placed d lower upper
        by_cases here : d = dim
        · rw [here, Function.update_self, placed.at_dim]
        · rw [Function.update_of_ne here]
          exact before d lower (by omega)
      rw [makeBlocks.eq_def] at done
      split at done
      · -- the last dimension: the strides come inside the block
        rename_i last
        cases done
        obtain ⟨_, _, placed, _⟩ := stride_laid
        obtain ⟨block_placed, size⟩ := placed_block placed
        refine ⟨rfl, block_placed, .inr rfl, size, inside_laid _ fun d lower upper => ?_,
          trivial, later_laid⟩
        exact covered placed d lower (by omega)
      · rename_i more
        simp only [Option.bind_eq_bind, Option.bind_eq_some_iff] at done
        obtain ⟨nextdim, nextdim_done, made_is⟩ := done
        cases made_is
        obtain ⟨_, _, placed, _, ⟨_, nextdim_laid, _⟩, _⟩ := stride_laid
        obtain ⟨block_placed, size⟩ := placed_block placed
        refine ⟨rfl, block_placed, .inl rfl, size, trivial, ?_, later_laid⟩
        cases more
        -- the block covers this dimension from here on
        refine ih nextdim_laid (fun d lower => ?_) (covered placed) (by omega)
          (fun d lower upper => sized d (by omega) upper) (by trivial) (by omega) nextdim_done
        rw [Function.update_of_ne (by omega)]
        exact same d (by omega)
      · cases done

/-- One pass of blocking. From the first dimension that is blocked, all are. -/
theorem block_nodes_laid {siblings : Bool}
    (sized : ∀ e d, bv e ≠ 1 → e ≤ d → d < iterDims → Sized limit bv unroll d)
    (laid : Laid iterDims limit tree grids level base dim outer)
    (done : blockNodes iterDims bv unroll siblings tree = some tree') :
    Laid iterDims limit tree' grids level base dim outer := by
  induction tree generalizing siblings grids level base dim outer tree' with
  | null =>
      simp only [blockNodes, Option.some.injEq] at done
      exact done ▸ laid
  | block unrolled attrs contents nextdim next inner deeper rest =>
      obtain ⟨rfl, placed, single, size, contents_laid, nextdim_laid, next_laid⟩ := laid
      cases unrolled with
      | true => simp [blockNodes] at done
      | false =>
          simp only [blockNodes, Option.bind_eq_bind, Option.bind_eq_some_iff] at done
          obtain ⟨contents', contents_done, nextdim', nextdim_done, next', next_done, made⟩ := done
          cases made
          have next_laid' : Laid iterDims limit next' false level base dim outer := by
            split at next_done
            · exact Option.some.inj next_done ▸ next_laid
            · split at next_done
              · exact rest next_laid next_done
              · cases next_done
          split at contents_done
          · rename_i last
            rw [if_pos last] at nextdim_done
            cases nextdim_done
            exact ⟨rfl, placed, .inr last, size, inner contents_laid contents_done, nextdim_laid,
              next_laid'⟩
          · rename_i nest
            rw [if_neg nest] at nextdim_done
            cases contents_done
            split at nextdim_done
            · exact ⟨rfl, placed, .inl (single.resolve_right nest), size, contents_laid,
                deeper nextdim_laid nextdim_done, next_laid'⟩
            · cases nextdim_done
  | stride attrs contents next inner rest =>
      obtain ⟨rfl, rfl, placed, divides, contents_laid, next_laid⟩ := laid
      simp only [blockNodes] at done
      split at done
      · cases done
      · split at done
        · simp only [Option.bind_eq_bind, Option.bind_eq_some_iff, Option.some.injEq] at done
          obtain ⟨contents', contents_done, next', next_done, rfl⟩ := done
          exact ⟨rfl, rfl, placed, divides, inner contents_laid contents_done,
            rest next_laid next_done⟩
        · rename_i blocked
          simp only [Option.bind_eq_bind, Option.bind_eq_some_iff] at done
          obtain ⟨inside, inside_done, later, later_done, done⟩ := done
          rw [placed.at_dim] at blocked done
          have within := placed.within
          -- the stride is blocked without its siblings, which are blocked on their own
          have whole : Laid iterDims limit (.stride attrs contents next) false level base base
              outer :=
            ⟨rfl, rfl, placed, divides, contents_laid, next_laid⟩
          have alone : Laid iterDims limit (.stride attrs contents .null) false level base base
              outer :=
            ⟨rfl, rfl, placed, divides, contents_laid, trivial⟩
          exact make_blocks_laid whole (fun _ _ => rfl) (fun d lower upper => by omega)
            (Nat.le_refl _) (fun covering covers => block_stride_laid alone inside_done covers)
            (fun d lower upper => sized _ d blocked lower upper) (rest next_laid later_done)
            (by omega) (placed.at_level ▸ done)
  | grid bound1 bound2 nextdim code next deeper rest =>
      obtain ⟨rfl, nextdim_laid, next_laid⟩ := laid
      simp only [blockNodes, Option.bind_eq_bind, Option.bind_eq_some_iff,
        Option.some.injEq] at done
      obtain ⟨nextdim', nextdim_done, next', next_done, rfl⟩ := done
      exact ⟨rfl, deeper nextdim_laid nextdim_done, rest next_laid next_done⟩

/-- Induction over the passes. -/
theorem passes_laid {bvs : List (Nat → Int)} {blocked : WlNode Code}
    (sized : ∀ bv ∈ bvs, ∀ e d, bv e ≠ 1 → e ≤ d → d < iterDims → Sized limit bv false d)
    (laid : Laid iterDims limit tree grids level base dim outer)
    (passes : bvs.foldlM (fun tree bv => blockWl tree iterDims bv false) tree = some blocked) :
    Laid iterDims limit blocked grids level base dim outer := by
  induction bvs generalizing tree with
  | nil =>
      cases passes
      exact laid
  | cons bv later ih =>
      rw [List.forall_mem_cons] at sized
      rw [List.foldlM_cons] at passes
      obtain ⟨next, here, rest⟩ := Option.bind_eq_some_iff.mp passes
      exact ih sized.2 (block_nodes_laid sized.1 laid here) rest

/-- Steps are positive and divide the limit of their dimension. -/
theorem laid_unrolls (laid : Laid iterDims limit tree grids level base dim outer) (d : Nat) :
    ∀ s ∈ unrolls d tree, 0 < s ∧ s ∣ limit d := by
  induction tree generalizing grids level base dim outer with
  | null => simp [unrolls]
  | block unrolled attrs contents nextdim next inner deeper rest =>
      obtain ⟨_, placed, _, size, contents_laid, nextdim_laid, next_laid⟩ := laid
      simp only [unrolls, List.forall_mem_append]
      refine ⟨?_, rest next_laid⟩
      split
      · rename_i found
        rw [if_pos found.2, ← placed.at_dim, found.1] at size
        simpa using ⟨placed.positive, size⟩
      · rw [List.forall_mem_append]
        exact ⟨inner contents_laid, deeper nextdim_laid⟩
  | stride attrs contents next inner rest =>
      obtain ⟨_, _, placed, divides, contents_laid, next_laid⟩ := laid
      simp only [unrolls, List.forall_mem_append]
      refine ⟨?_, rest next_laid⟩
      split
      · rename_i found
        rw [← placed.at_dim, found] at divides
        simpa using ⟨placed.positive, divides⟩
      · exact inner contents_laid
  | grid bound1 bound2 nextdim code next deeper rest =>
      obtain ⟨_, nextdim_laid, next_laid⟩ := laid
      simp only [unrolls, List.forall_mem_append]
      exact ⟨deeper nextdim_laid, rest next_laid⟩

end Layout

section Segments

/-- The strides of a segment and its blocking vectors. From the first dimension that is blocked
on, the entries are at least the lcm of the steps of the strides (WLSEG_SV) and of the unrolling
blocks. -/
structure Segment (Code : Type) where
  iterDims : Nat
  strides : WlNode Code
  bvs : List (Nat → Int)
  ubv : Nat → Int
  constant : Unblocked iterDims strides false 0
  wide : ∀ bv ∈ bvs, ∃ first, (∀ d, d < first → bv d = 1) ∧ ∀ d, first ≤ d → d < iterDims →
    mathLcm (getLcmUnroll d false strides) (ubv d) ≤ bv d
  positive : ∀ d, 0 < ubv d

variable {Code : Type}

namespace Segment

variable (segment : Segment Code)

/-- The lcm of all steps of a dimension. -/
def limit (d : Nat) : Int := mathLcm (getLcmUnroll d false segment.strides) (segment.ubv d)

def blocked : Option (WlNode Code) :=
  blockSegment segment.strides segment.iterDims segment.bvs segment.ubv

end Segment

theorem strides_laid (segment : Segment Code) :
    Laid segment.iterDims segment.limit segment.strides false 0 0 0 fun _ => none := by
  refine unblocked_laid segment.constant fun d _ => lcm_unroll_dvd.mp ?_
  exact Int.dvd_lcm_left _ _

theorem limit_pos (segment : Segment Code) (d : Nat) : 0 < segment.limit d :=
  math_lcm_pos (lcm_unroll_pos fun s member => (laid_unrolls (strides_laid segment) d s member).1)
    (segment.positive d)

/-- The tree that is built. -/
theorem blocked_laid (segment : Segment Code) {tree : WlNode Code}
    (built : segment.blocked = some tree) :
    Laid segment.iterDims segment.limit tree false 0 0 0 fun _ => none := by
  have unrolled : ∀ e d, segment.ubv e ≠ 1 → e ≤ d → d < segment.iterDims →
      Sized segment.limit segment.ubv true d := fun e d _ _ _ =>
    ⟨segment.positive d, Int.dvd_lcm_right _ _⟩
  have hierarchical : ∀ bv ∈ segment.bvs, ∀ e d, bv e ≠ 1 → e ≤ d → d < segment.iterDims →
      Sized segment.limit bv false d := by
    intro bv member e d blocked lower upper
    obtain ⟨first, before, wide⟩ := segment.wide bv member
    have reached : first ≤ e := by
      by_contra early
      exact blocked (before e (by omega))
    have limited := wide d (by omega) upper
    have positive := limit_pos segment d
    exact ⟨Int.lt_of_lt_of_le positive limited, limited⟩
  simp only [Segment.blocked, blockSegment, Option.bind_eq_bind, Option.bind_eq_some_iff] at built
  obtain ⟨blocked, passes, last⟩ := built
  refine block_nodes_laid unrolled ?_ last
  exact passes_laid hierarchical (strides_laid segment) passes

end Segments

end Sac2c.BlockTrees
