import Sac2c.BlockTrees

/-!
FitWl and AdjustBlockSize of wltransform/wltransform.c. The size of a block is rounded to a
multiple of all steps inside, and the bound of a node inside to a multiple of its own step, so
that they need not meet.
-/

namespace Sac2c.BlockFitting

open BlockTrees

section Model

variable {Code : Type}

/-- AdjustBlockSize. -/
def adjustBlockSize (oldBv unroll : Int) : Int :=
  let mod := oldBv % unroll
  if oldBv > 1 ∧ mod ≠ 0 then
    if mod ≤ unroll / 2 then oldBv - mod else oldBv + unroll - mod
  else oldBv

/-- The incomplete period at the end of a node. -/
def remain (attrs : Attrs) (unroll : Int) : Int := (attrs.bound2 - attrs.bound1) % unroll

/-- The tests of FitNode. -/
def Splits (attrs : Attrs) (unroll : Int) : Prop :=
  0 < unroll ∧ 0 < remain attrs unroll ∧ attrs.bound2 - attrs.bound1 > remain attrs unroll

instance (attrs : Attrs) (unroll : Int) : Decidable (Splits attrs unroll) :=
  inferInstanceAs (Decidable (_ ∧ _ ∧ _))

/-- The node with these bounds and this successor. -/
def blockNode (unrolled : Bool) (attrs : Attrs) (contents nextdim : WlNode Code)
    (bound1 bound2 : Int) (next : WlNode Code) : WlNode Code :=
  .block unrolled { attrs with bound1 := bound1, bound2 := bound2 } contents nextdim next

def strideNode (attrs : Attrs) (grids : WlNode Code) (bound1 bound2 : Int)
    (next : WlNode Code) : WlNode Code :=
  .stride { attrs with bound1 := bound1, bound2 := bound2 } grids next

/-- The size of a block is adjusted, that of an unrolling block is not. -/
def adjustBlock (unrolled : Bool) (attrs : Attrs) (unroll : Int) : Attrs :=
  if unrolled then attrs else { attrs with step := adjustBlockSize attrs.step unroll }

/-- The end of FitWl: FitNode for the outermost nodes of a dimension, and the bounds of the
inner ones, then the next node, which may be the copy that FitNode has made. `node` has the
fitted sons and gets its bounds and its successor. -/
def fitNext (fit : WlNode Code → Option (WlNode Code))
    (node : Int → Int → WlNode Code → WlNode Code) (attrs : Attrs) (unroll : Int)
    (isBlock : Bool) (next : WlNode Code) : Option (WlNode Code) :=
  if attrs.level = 0 then
    if Splits attrs unroll then do
      let middle := attrs.bound2 - remain attrs unroll
      let next ← fit (node middle attrs.bound2 next)
      some (node attrs.bound1 middle next)
    else do
      let next ← fit next
      some (node attrs.bound1 attrs.bound2 next)
  else if isBlock then do
    let next ← fit next
    some (node attrs.bound1 attrs.bound2 next)
  else if attrs.bound1 = 0 then do
    let next ← fit next
    some (node attrs.bound1 (adjustBlockSize attrs.bound2 attrs.step) next)
  else none

/-- FitWl, with a bound on the depth of the recursion; it is none if an assertion fails. The
case of a grid is the loop over the grids of a stride. -/
def fitWl : Nat → WlNode Code → Option (WlNode Code)
  | 0, _ => none
  | _ + 1, .null => some .null
  | fuel + 1, .block unrolled attrs contents nextdim next => do
      let contents ← (if nextdim.isNull then fitWl fuel contents
        else if contents.isNull then some contents else none)
      let nextdim ← (if nextdim.isNull then some nextdim else fitWl fuel nextdim)
      let lcm := getLcmUnroll attrs.dim false (if nextdim.isNull then contents else nextdim)
      let unroll := if unrolled then attrs.step else lcm
      let attrs := adjustBlock unrolled attrs unroll
      fitNext (fitWl fuel) (blockNode unrolled attrs contents nextdim) attrs unroll (!unrolled) next
  | fuel + 1, .stride attrs grids next => do
      let grids ← fitWl fuel grids
      fitNext (fitWl fuel) (strideNode attrs grids) attrs attrs.step false next
  | fuel + 1, .grid bound1 bound2 nextdim code next => do
      let nextdim ← fitWl fuel nextdim
      let next ← fitWl fuel next
      some (.grid bound1 bound2 nextdim code next)

end Model

section Rounding

variable {size m s : Int}

theorem adjust_idem :
    adjustBlockSize (adjustBlockSize size m) m = adjustBlockSize size m := by
  have down : (size - size % m) % m = 0 := by
    rw [Int.sub_emod, Int.emod_emod, Int.sub_self, Int.zero_emod]
  have up : (size + m - size % m) % m = 0 := by
    have moved : size + m - size % m = size - size % m + m := by omega
    rw [moved, Int.add_emod_right, down]
  unfold adjustBlockSize
  by_cases rounded : size > 1 ∧ size % m ≠ 0
  · simp only [if_pos rounded]
    split
    · rw [if_neg (by simp [down])]
    · rw [if_neg (by simp [up])]
  · simp only [if_neg rounded]

/-- The size is at least the lcm of the steps. -/
theorem adjust_dvd (positive : 0 < m) (wide : m ≤ size) : m ∣ adjustBlockSize size m := by
  unfold adjustBlockSize
  simp only
  split
  · split
    · exact Int.dvd_self_sub_emod
    · have moved : size + m - size % m = size - size % m + m := by omega
      rw [moved]
      exact Int.dvd_add Int.dvd_self_sub_emod (Int.dvd_refl m)
  · rename_i exactly
    by_cases more : size > 1
    · exact Int.dvd_of_emod_eq_zero (by simpa [more] using exactly)
    · have one : m = 1 := by omega
      rw [one]
      exact Int.one_dvd _

theorem adjust_pos (positive : 0 < m) (wide : m ≤ size) : 0 < adjustBlockSize size m := by
  have below := Int.emod_lt_of_pos size positive
  have least := Int.emod_nonneg size (Int.ne_of_gt positive)
  unfold adjustBlockSize
  simp only
  split
  · split <;> omega
  · omega

theorem adjust_multiple (multiple : s ∣ size) : adjustBlockSize size s = size := by
  simp [adjustBlockSize, Int.emod_eq_zero_of_dvd multiple]

/-- The nearest multiple of the lcm is also the nearest one of the step. -/
def Near (size m s : Int) : Prop := size % m ≤ s / 2 ∨ m - size % m < s - s / 2

instance (size m s : Int) : Decidable (Near size m s) := inferInstanceAs (Decidable (_ ∨ _))

/-- No period, or at least one. -/
theorem none_or_period {count : Int} (positive : 0 < s) (some : 0 ≤ count) :
    s * count = 0 ∨ s ≤ s * count := by
  rcases Int.lt_or_eq_of_le some with more | none
  · have grown := Int.mul_le_mul_of_nonneg_left more (Int.le_of_lt positive)
    rw [Int.mul_add, Int.mul_zero, Int.zero_add, Int.mul_one] at grown
    exact .inr grown
  · exact .inl (by rw [← none, Int.mul_zero])

theorem adjust_eq_iff (positive : 0 < s) (lcm : 0 < m) (divides : s ∣ m) (wide : m ≤ size) :
    adjustBlockSize size s = adjustBlockSize size m ↔ Near size m s := by
  have below := Int.emod_lt_of_pos size lcm
  have least := Int.emod_nonneg size (Int.ne_of_gt lcm)
  have nested : size % m % s = size % s := Int.emod_emod_of_dvd size divides
  have short := Int.emod_lt_of_pos (size % m) positive
  have first := Int.emod_nonneg (size % m) (Int.ne_of_gt positive)
  -- the periods of s before and behind the place of the size in its period of m
  obtain ⟨periods, rfl⟩ := divides
  have division := Int.emod_add_mul_ediv (size % (s * periods)) s
  have before : 0 ≤ size % (s * periods) / s := Int.ediv_nonneg least (Int.le_of_lt positive)
  have split : s * periods =
      s * (size % (s * periods) / s) + s * (periods - size % (s * periods) / s) := by
    rw [← Int.mul_add]
    congr 1
    omega
  have behind : 0 < periods - size % (s * periods) / s := by
    by_contra none
    have := Int.mul_nonpos_of_nonneg_of_nonpos (Int.le_of_lt positive) (Int.not_lt.mp none)
    omega
  have several_before := none_or_period positive before
  have several_behind := none_or_period positive (Int.le_sub_one_of_lt behind)
  rw [Int.mul_sub, Int.mul_one] at several_behind
  unfold adjustBlockSize Near
  simp only [← nested]
  generalize size % (s * periods) % s = r at *
  generalize s * (size % (s * periods) / s) = front at *
  generalize s * (periods - size % (s * periods) / s) = back at *
  generalize size % (s * periods) = q at *
  generalize s * periods = m at *
  omega

end Rounding

section Results

variable {Code : Type}

/-- What is made of a node with fitted sons, with the fitted successors. -/
def finished (node : Int → Int → WlNode Code → WlNode Code) (attrs : Attrs) (unroll : Int)
    (isBlock : Bool) (later : WlNode Code) : WlNode Code :=
  if attrs.level = 0 then
    if Splits attrs unroll then
      let middle := attrs.bound2 - remain attrs unroll
      node attrs.bound1 middle (node middle attrs.bound2 later)
    else node attrs.bound1 attrs.bound2 later
  else if isBlock then node attrs.bound1 attrs.bound2 later
  else node attrs.bound1 (adjustBlockSize attrs.bound2 attrs.step) later

/-- The steps that the size of a block is adjusted to. -/
def innerLcm (attrs : Attrs) (contents nextdim : WlNode Code) : Int :=
  lcmOf (unrolls attrs.dim contents ++ unrolls attrs.dim nextdim)

/-- The fitted tree, by recursion on the tree. -/
def fitted : WlNode Code → WlNode Code
  | .null => .null
  | .block unrolled attrs contents nextdim next =>
      let unroll := if unrolled then attrs.step else innerLcm attrs contents nextdim
      let attrs := adjustBlock unrolled attrs unroll
      finished (blockNode unrolled attrs (fitted contents) (fitted nextdim)) attrs unroll
        (!unrolled) (fitted next)
  | .stride attrs grids next =>
      finished (strideNode attrs (fitted grids)) attrs attrs.step false (fitted next)
  | .grid bound1 bound2 nextdim code next =>
      .grid bound1 bound2 (fitted nextdim) code (fitted next)

/-- FitWl ends with this result. -/
def Yields (tree result : WlNode Code) : Prop :=
  ∃ least, ∀ fuel, least ≤ fuel → fitWl fuel tree = some result

/-- The end of FitWl, likewise. -/
def NextYields (node : Int → Int → WlNode Code → WlNode Code) (attrs : Attrs) (unroll : Int)
    (isBlock : Bool) (next result : WlNode Code) : Prop :=
  ∃ least, ∀ fuel, least ≤ fuel →
    fitNext (fitWl fuel) node attrs unroll isBlock next = some result

variable {node : Int → Int → WlNode Code → WlNode Code} {attrs : Attrs} {unroll : Int}
  {isBlock : Bool} {next later result : WlNode Code}

theorem next_whole (yields : Yields next later) (top : attrs.level = 0)
    (whole : ¬ Splits attrs unroll) :
    NextYields node attrs unroll isBlock next (node attrs.bound1 attrs.bound2 later) := by
  obtain ⟨least, yields⟩ := yields
  refine ⟨least, fun fuel enough => ?_⟩
  rw [fitNext, if_pos top, if_neg whole, yields fuel enough]
  rfl

theorem next_split (top : attrs.level = 0) (splits : Splits attrs unroll)
    (yields : Yields (node (attrs.bound2 - remain attrs unroll) attrs.bound2 next) later) :
    NextYields node attrs unroll isBlock next
      (node attrs.bound1 (attrs.bound2 - remain attrs unroll) later) := by
  obtain ⟨least, yields⟩ := yields
  refine ⟨least, fun fuel enough => ?_⟩
  rw [fitNext, if_pos top, if_pos splits]
  simp only [yields fuel enough]
  rfl

theorem next_block (yields : Yields next later) (deep : attrs.level ≠ 0) :
    NextYields node attrs unroll true next (node attrs.bound1 attrs.bound2 later) := by
  obtain ⟨least, yields⟩ := yields
  refine ⟨least, fun fuel enough => ?_⟩
  rw [fitNext, if_neg deep, if_pos rfl, yields fuel enough]
  rfl

theorem next_inner (yields : Yields next later) (deep : attrs.level ≠ 0)
    (lower : attrs.bound1 = 0) :
    NextYields node attrs unroll false next
      (node attrs.bound1 (adjustBlockSize attrs.bound2 attrs.step) later) := by
  obtain ⟨least, yields⟩ := yields
  refine ⟨least, fun fuel enough => ?_⟩
  rw [fitNext, if_neg deep, if_neg (by simp), if_pos lower, yields fuel enough]
  rfl

/-- A node is not split again, and neither is the copy. -/
theorem split_once (positive : 0 < unroll) :
    ¬ Splits { attrs with bound2 := attrs.bound2 - remain attrs unroll } unroll ∧
      ¬ Splits { attrs with bound1 := attrs.bound2 - remain attrs unroll } unroll := by
  have below := Int.emod_lt_of_pos (attrs.bound2 - attrs.bound1) positive
  have least := Int.emod_nonneg (attrs.bound2 - attrs.bound1) (Int.ne_of_gt positive)
  constructor
  · have full : remain { attrs with bound2 := attrs.bound2 - remain attrs unroll } unroll = 0 := by
      have moved : attrs.bound2 - (attrs.bound2 - attrs.bound1) % unroll - attrs.bound1 =
          attrs.bound2 - attrs.bound1 - (attrs.bound2 - attrs.bound1) % unroll := by omega
      simp only [remain]
      rw [moved, Int.sub_emod, Int.emod_emod, Int.sub_self, Int.zero_emod]
    rintro ⟨_, more, _⟩
    omega
  · have rest : remain { attrs with bound1 := attrs.bound2 - remain attrs unroll } unroll =
        remain attrs unroll := by
      have width : attrs.bound2 - (attrs.bound2 - (attrs.bound2 - attrs.bound1) % unroll) =
          (attrs.bound2 - attrs.bound1) % unroll := by omega
      simp only [remain]
      rw [width, Int.emod_emod]
    rintro ⟨_, _, wide⟩
    rw [rest] at wide
    simp only at wide
    omega

/-- A node whose sons are fitted is finished, and fitting the result changes nothing. -/
theorem finished_yields (positive : 0 < unroll) (inner : attrs.level ≠ 0 → isBlock = false →
      attrs.bound1 = 0)
    (refit : ∀ bound1 bound2 next result,
      NextYields node { attrs with bound1 := bound1, bound2 := bound2 } unroll isBlock next result →
        Yields (node bound1 bound2 next) result)
    (yields : Yields next later) (stable : Yields later later) :
    NextYields node attrs unroll isBlock next (finished node attrs unroll isBlock later) ∧
      Yields (finished node attrs unroll isBlock later)
        (finished node attrs unroll isBlock later) := by
  obtain ⟨front, back⟩ : ¬ Splits { attrs with bound2 := attrs.bound2 - remain attrs unroll }
      unroll ∧ ¬ Splits { attrs with bound1 := attrs.bound2 - remain attrs unroll } unroll :=
    split_once positive
  unfold finished
  by_cases top : attrs.level = 0
  · rw [if_pos top]
    by_cases splits : Splits attrs unroll
    · simp only [if_pos splits]
      have copy : ∀ {next}, Yields next later →
          Yields (node (attrs.bound2 - remain attrs unroll) attrs.bound2 next)
            (node (attrs.bound2 - remain attrs unroll) attrs.bound2 later) := fun yields =>
        refit _ _ _ _ (next_whole yields top back)
      exact ⟨next_split top splits (copy yields),
        refit _ _ _ _ (next_whole (copy stable) top front)⟩
    · rw [if_neg splits]
      exact ⟨next_whole yields top splits, refit _ _ _ _ (next_whole stable top splits)⟩
  · rw [if_neg top]
    cases isBlock with
    | true => exact ⟨next_block yields top, refit _ _ _ _ (next_block stable top)⟩
    | false =>
        have lower := inner top rfl
        have again : NextYields node
            { attrs with bound2 := adjustBlockSize attrs.bound2 attrs.step } unroll false later _ :=
          next_inner stable top lower
        simp only [adjust_idem] at again
        exact ⟨next_inner yields top lower, refit _ _ _ _ again⟩

theorem is_null_fitted (tree : WlNode Code) : (fitted tree).isNull = tree.isNull := by
  have shown : ∀ {node : Int → Int → WlNode Code → WlNode Code} {attrs unroll isBlock later},
      (∀ bound1 bound2 later, (node bound1 bound2 later).isNull = false) →
        (finished node attrs unroll isBlock later).isNull = false := by
    intro node attrs unroll isBlock later shown
    unfold finished
    split_ifs <;> exact shown _ _ _
  cases tree with
  | null => rfl
  | block => exact shown fun _ _ _ => rfl
  | stride => exact shown fun _ _ _ => rfl
  | grid => rfl

/-- A copy has the same steps. -/
theorem mem_finished {list : WlNode Code → List Int} {own : Prop} {s : Int}
    (member : ∀ bound1 bound2 later, s ∈ list (node bound1 bound2 later) ↔ own ∨ s ∈ list later) :
    s ∈ list (finished node attrs unroll isBlock later) ↔ own ∨ s ∈ list later := by
  unfold finished
  split_ifs
  · rw [member, member]
    tauto
  · exact member _ _ _
  · exact member _ _ _
  · exact member _ _ _

theorem adjust_block_dim (unrolled : Bool) (attrs : Attrs) (unroll : Int) :
    (adjustBlock unrolled attrs unroll).dim = attrs.dim := by
  cases unrolled <;> rfl

theorem adjust_block_again (unrolled : Bool) (attrs : Attrs) (unroll bound1 bound2 : Int) :
    adjustBlock unrolled
        { adjustBlock unrolled attrs unroll with bound1 := bound1, bound2 := bound2 } unroll =
      { adjustBlock unrolled attrs unroll with bound1 := bound1, bound2 := bound2 } := by
  cases unrolled <;> simp [adjustBlock, adjust_idem]

theorem unrolls_fitted (d : Nat) (s : Int) (tree : WlNode Code) :
    s ∈ unrolls d (fitted tree) ↔ s ∈ unrolls d tree := by
  induction tree with
  | null => rfl
  | block unrolled attrs contents nextdim next inner deeper rest =>
      rw [unrolls, List.mem_append, ← rest, fitted]
      refine mem_finished fun bound1 bound2 later => ?_
      rw [blockNode, unrolls, List.mem_append]
      refine or_congr_left ?_
      simp only [adjust_block_dim]
      split
      · rename_i found
        simp [adjustBlock, found.2]
      · rw [List.mem_append, List.mem_append, inner, deeper]
  | stride attrs contents next inner rest =>
      rw [unrolls, List.mem_append, ← rest, fitted]
      refine mem_finished fun bound1 bound2 later => ?_
      rw [strideNode, unrolls, List.mem_append]
      refine or_congr_left ?_
      simp only
      split
      · rfl
      · exact inner
  | grid bound1 bound2 nextdim code next deeper rest =>
      simp only [fitted, unrolls, List.mem_append, deeper, rest]

theorem steps_fitted (d : Nat) (s : Int) (tree : WlNode Code) :
    s ∈ steps d (fitted tree) ↔ s ∈ steps d tree := by
  induction tree with
  | null => rfl
  | block unrolled attrs contents nextdim next inner deeper rest =>
      rw [steps, List.mem_append, ← rest, fitted]
      refine mem_finished fun bound1 bound2 later => ?_
      rw [blockNode, steps, List.mem_append]
      refine or_congr_left ?_
      simp only [adjust_block_dim, List.mem_append, inner, deeper]
      refine or_congr_left ?_
      split
      · rename_i found
        simp [adjustBlock, found.2]
      · rfl
  | stride attrs contents next inner rest =>
      rw [steps, List.mem_append, ← rest, fitted]
      refine mem_finished fun bound1 bound2 later => ?_
      rw [strideNode, steps, List.mem_append, List.mem_append, List.mem_append, inner]
  | grid bound1 bound2 nextdim code next deeper rest =>
      simp only [fitted, steps, List.mem_append, deeper, rest]

theorem null_of_is_null {tree : WlNode Code} (null : tree.isNull) : tree = .null := by
  cases tree with
  | null => rfl
  | _ => cases null

/-- The lcm that is found below a block with fitted sons. -/
theorem lcm_fitted {contents nextdim : WlNode Code} (dim : Nat)
    (single : contents.isNull ∨ nextdim.isNull)
    (positive : ∀ s ∈ unrolls dim contents ++ unrolls dim nextdim, 0 < s) :
    getLcmUnroll dim false (if (fitted nextdim).isNull then fitted contents else fitted nextdim) =
      lcmOf (unrolls dim contents ++ unrolls dim nextdim) := by
  have same : ∀ s, s ∈ unrolls dim
      (if (fitted nextdim).isNull then fitted contents else fitted nextdim) ↔
        s ∈ unrolls dim contents ++ unrolls dim nextdim := by
    intro s
    rw [is_null_fitted]
    by_cases last : nextdim.isNull
    · rw [if_pos last, unrolls_fitted, null_of_is_null last]
      simp [unrolls]
    · rw [if_neg last, unrolls_fitted, null_of_is_null (single.resolve_right last)]
      simp [unrolls]
  rw [lcm_unroll_eq fun s member => positive s ((same s).mp member)]
  refine Int.dvd_antisymm
    (Int.le_of_lt (lcm_of_pos fun s member => positive s ((same s).mp member)))
    (Int.le_of_lt (lcm_of_pos positive)) ?_ ?_
  · exact lcm_of_dvd.mpr fun s member => dvd_lcm_of ((same s).mp member)
  · exact lcm_of_dvd.mpr fun s member => dvd_lcm_of ((same s).mpr member)

theorem block_yields {unrolled : Bool} {contents nextdim contents' nextdim' : WlNode Code}
    (contents_yields : Yields contents contents') (nextdim_yields : Yields nextdim nextdim')
    (single : contents.isNull ∨ nextdim.isNull)
    (shapes : contents'.isNull = contents.isNull ∧ nextdim'.isNull = nextdim.isNull)
    (found : unroll = if unrolled then attrs.step else
      getLcmUnroll attrs.dim false (if nextdim'.isNull then contents' else nextdim'))
    (rest : NextYields
      (blockNode unrolled (adjustBlock unrolled attrs unroll) contents' nextdim')
      (adjustBlock unrolled attrs unroll) unroll (!unrolled) next result) :
    Yields (.block unrolled attrs contents nextdim next) result := by
  obtain ⟨least1, contents_yields⟩ := contents_yields
  obtain ⟨least2, nextdim_yields⟩ := nextdim_yields
  obtain ⟨least3, rest⟩ := rest
  refine ⟨max least1 (max least2 least3) + 1, fun fuel enough => ?_⟩
  obtain ⟨fuel, rfl⟩ : ∃ before, fuel = before + 1 := ⟨fuel - 1, by omega⟩
  subst found
  have sons : (if nextdim.isNull then fitWl fuel contents
        else if contents.isNull then some contents else none) = some contents' ∧
      (if nextdim.isNull then some nextdim else fitWl fuel nextdim) = some nextdim' := by
    by_cases last : nextdim.isNull
    · rw [if_pos last, if_pos last, contents_yields fuel (by omega), null_of_is_null last,
        null_of_is_null (shapes.2.trans last)]
      exact ⟨rfl, rfl⟩
    · have none := single.resolve_right last
      rw [if_neg last, if_neg last, if_pos none, nextdim_yields fuel (by omega),
        null_of_is_null none, null_of_is_null (shapes.1.trans none)]
      exact ⟨rfl, rfl⟩
  simp only [fitWl, sons.1, sons.2, Option.bind_eq_bind, Option.bind_some]
  exact rest fuel (by omega)

theorem stride_yields {grids grids' : WlNode Code} (grids_yields : Yields grids grids')
    (rest : NextYields (strideNode attrs grids') attrs attrs.step false next result) :
    Yields (.stride attrs grids next) result := by
  obtain ⟨least1, grids_yields⟩ := grids_yields
  obtain ⟨least2, rest⟩ := rest
  refine ⟨max least1 least2 + 1, fun fuel enough => ?_⟩
  obtain ⟨fuel, rfl⟩ : ∃ before, fuel = before + 1 := ⟨fuel - 1, by omega⟩
  simp only [fitWl, grids_yields fuel (by omega), Option.bind_eq_bind, Option.bind_some]
  exact rest fuel (by omega)

theorem grid_yields {nextdim nextdim' next' : WlNode Code} {bound1 bound2 : Int}
    {code : Option Code} (deeper : Yields nextdim nextdim') (rest : Yields next next') :
    Yields (.grid bound1 bound2 nextdim code next) (.grid bound1 bound2 nextdim' code next') := by
  obtain ⟨least1, deeper⟩ := deeper
  obtain ⟨least2, rest⟩ := rest
  refine ⟨max least1 least2 + 1, fun fuel enough => ?_⟩
  obtain ⟨fuel, rfl⟩ : ∃ before, fuel = before + 1 := ⟨fuel - 1, by omega⟩
  simp only [fitWl, deeper fuel (by omega), rest fuel (by omega), Option.bind_eq_bind,
    Option.bind_some]

theorem null_yields : Yields (.null : WlNode Code) .null := by
  refine ⟨1, fun fuel enough => ?_⟩
  obtain ⟨fuel, rfl⟩ : ∃ before, fuel = before + 1 := ⟨fuel - 1, by omega⟩
  rfl

variable {iterDims level base dim : Nat} {limit : Nat → Int} {outer : Nat → Option Int}
  {grids : Bool} {tree : WlNode Code}

/-- FitWl ends with the fitted tree, and fitting it again, as happens to the sons of a copy,
changes nothing. -/
theorem fitted_yields (laid : Laid iterDims limit tree grids level base dim outer) :
    Yields tree (fitted tree) ∧ Yields (fitted tree) (fitted tree) := by
  induction tree generalizing grids level base dim outer with
  | null => exact ⟨null_yields, null_yields⟩
  | block unrolled attrs contents nextdim next inner deeper rest =>
      obtain ⟨_, placed, single, _, contents_laid, nextdim_laid, next_laid⟩ := laid
      obtain ⟨once, again⟩ := inner contents_laid
      obtain ⟨nextdim_once, nextdim_again⟩ := deeper nextdim_laid
      obtain ⟨next_once, next_again⟩ := rest next_laid
      have steps_positive :
          ∀ s ∈ unrolls attrs.dim contents ++ unrolls attrs.dim nextdim, 0 < s := by
        rw [List.forall_mem_append]
        exact ⟨fun s member => (laid_unrolls contents_laid attrs.dim s member).1,
          fun s member => (laid_unrolls nextdim_laid attrs.dim s member).1⟩
      have found := lcm_fitted attrs.dim single steps_positive
      have shapes := And.intro (is_null_fitted contents) (is_null_fitted nextdim)
      have single_again : (fitted contents).isNull ∨ (fitted nextdim).isNull := by
        rwa [shapes.1, shapes.2]
      have positive : 0 < if unrolled then attrs.step else innerLcm attrs contents nextdim := by
        split
        · exact placed.positive
        · exact lcm_of_pos steps_positive
      have lower : attrs.level ≠ 0 → attrs.bound1 = 0 := fun deep =>
        (placed.inner (placed.at_level ▸ deep)).1
      simp only [fitted]
      generalize size : (if unrolled then attrs.step else innerLcm attrs contents nextdim) = unroll
        at positive ⊢
      -- the block with fitted sons, in its first run, as a copy and in the result
      have refit : ∀ bound1 bound2 next result,
          NextYields (blockNode unrolled (adjustBlock unrolled attrs unroll) (fitted contents)
            (fitted nextdim))
            { adjustBlock unrolled attrs unroll with bound1 := bound1, bound2 := bound2 } unroll
            (!unrolled) next result →
          Yields (blockNode unrolled (adjustBlock unrolled attrs unroll) (fitted contents)
            (fitted nextdim) bound1 bound2 next) result := by
        intro bound1 bound2 next result fits
        refine block_yields again nextdim_again single_again ⟨rfl, rfl⟩ ?_
          (by rw [adjust_block_again]; exact fits)
        simp only [adjust_block_dim, found]
        rw [← size]
        cases unrolled <;> rfl
      obtain ⟨ends, stays⟩ : NextYields (blockNode unrolled (adjustBlock unrolled attrs unroll)
          (fitted contents) (fitted nextdim)) (adjustBlock unrolled attrs unroll) unroll
          (!unrolled) next _ ∧ _ :=
        finished_yields positive (by cases unrolled <;> exact fun deep _ => lower deep) refit
          next_once next_again
      refine ⟨block_yields once nextdim_once single shapes ?_ ends, stays⟩
      rw [← size, found]
      rfl
  | stride attrs contents next inner rest =>
      obtain ⟨_, _, placed, _, contents_laid, next_laid⟩ := laid
      obtain ⟨once, again⟩ := inner contents_laid
      obtain ⟨next_once, next_again⟩ := rest next_laid
      have lower : attrs.level ≠ 0 → false = false → attrs.bound1 = 0 := fun deep _ =>
        (placed.inner (placed.at_level ▸ deep)).1
      obtain ⟨ends, stays⟩ : NextYields (strideNode attrs (fitted contents)) attrs attrs.step
          false next _ ∧ _ :=
        finished_yields placed.positive lower (fun _ _ _ _ fits => stride_yields again fits)
          next_once next_again
      exact ⟨stride_yields once ends, stays⟩
  | grid bound1 bound2 nextdim code next deeper rest =>
      obtain ⟨_, nextdim_laid, next_laid⟩ := laid
      obtain ⟨once, again⟩ := deeper nextdim_laid
      obtain ⟨next_once, next_again⟩ := rest next_laid
      exact ⟨grid_yields once next_once, grid_yields again next_again⟩

end Results

section Agreement

/-- The innermost block of a dimension around a node: a block of this size, with the lcm of the
steps inside, or an unrolling block. -/
inductive Enclosing where
  | block (size lcm : Int)
  | ublock (size : Int)

namespace Enclosing

def size : Enclosing → Int
  | block size _ => size
  | ublock size => size

/-- The size after fitting. -/
def adjusted : Enclosing → Int
  | block size lcm => adjustBlockSize size lcm
  | ublock size => size

/-- The bound of a node with this step is rounded to where the size of the block is. -/
def Admits : Enclosing → Int → Prop
  | block size lcm, step => Near size lcm step
  | ublock _, _ => True

/-- What is known of the steps that are found inside, and of all steps inside. -/
def Covers : Enclosing → (found all : List Int) → Prop
  | block size lcm, found, _ => 0 < lcm ∧ lcm ≤ size ∧ ∀ s ∈ found, s ∣ lcm
  | ublock size, _, all => ∀ s ∈ all, s ∣ size

end Enclosing

variable {Code : Type}

/-- The blocks of a fitted tree are consistent: sizes are positive and multiples of all steps of
their dimension inside, and the strides and unrolling blocks inside reach to the size of the
block around them. `outer` has the sizes of the blocks around the tree. -/
def Fits : WlNode Code → (outer : Nat → Option Int) → Prop
  | .null, _ => True
  | .block unrolled attrs contents nextdim next, outer =>
      (unrolled = true → ∀ size ∈ outer attrs.dim, attrs.bound2 = size) ∧
        (0 < attrs.step ∧
          (∀ s ∈ steps attrs.dim contents ++ steps attrs.dim nextdim, s ∣ attrs.step) ∧
          Fits contents (Function.update outer attrs.dim (some attrs.step)) ∧
          Fits nextdim (Function.update outer attrs.dim (some attrs.step))) ∧
        Fits next outer
  | .stride attrs grids next, outer =>
      (∀ size ∈ outer attrs.dim, attrs.bound2 = size) ∧ Fits grids outer ∧ Fits next outer
  | .grid _ _ nextdim _ next, outer => Fits nextdim outer ∧ Fits next outer

/-- The block as it is seen from inside. -/
def enclosing (unrolled : Bool) (attrs : Attrs) (contents nextdim : WlNode Code) : Enclosing :=
  if unrolled then .ublock attrs.step else .block attrs.step (innerLcm attrs contents nextdim)

/-- In a tree that is to be fitted, unrolling blocks are multiples of the steps inside, and the
sizes of the blocks are near enough to a multiple of all steps inside. -/
def Agrees : WlNode Code → (outer : Nat → Option Enclosing) → Prop
  | .null, _ => True
  | .block unrolled attrs contents nextdim next, outer =>
      (unrolled = true → ∀ around ∈ outer attrs.dim, around.Admits attrs.step) ∧
        ((unrolled = true →
            ∀ s ∈ steps attrs.dim contents ++ steps attrs.dim nextdim, s ∣ attrs.step) ∧
          Agrees contents
            (Function.update outer attrs.dim (some (enclosing unrolled attrs contents nextdim))) ∧
          Agrees nextdim
            (Function.update outer attrs.dim (some (enclosing unrolled attrs contents nextdim)))) ∧
        Agrees next outer
  | .stride attrs grids next, outer =>
      (∀ around ∈ outer attrs.dim, around.Admits attrs.step) ∧ Agrees grids outer ∧
        Agrees next outer
  | .grid _ _ nextdim _ next, outer => Agrees nextdim outer ∧ Agrees next outer

variable {iterDims level base dim : Nat} {limit : Nat → Int} {grids : Bool} {tree : WlNode Code}
  {before after : Nat → Option Int} {outer : Nat → Option Enclosing}

theorem unrolls_subset {d : Nat} {s : Int} (tree : WlNode Code) (member : s ∈ unrolls d tree) :
    s ∈ steps d tree := by
  induction tree with
  | null => simp [unrolls] at member
  | block unrolled attrs contents nextdim next inner deeper rest =>
      simp only [unrolls, steps, List.mem_append] at member ⊢
      rcases member with own | member
      · split at own
        · rename_i found
          exact .inl (.inl (by rwa [if_pos found]))
        · rcases List.mem_append.mp own with member | member
          · exact .inl (.inr (.inl (inner member)))
          · exact .inl (.inr (.inr (deeper member)))
      · exact .inr (rest member)
  | stride attrs contents next inner rest =>
      simp only [unrolls, steps, List.mem_append] at member ⊢
      rcases member with own | member
      · split at own
        · rename_i found
          exact .inl (.inl (by rwa [if_pos found]))
        · exact .inl (.inr (inner own))
      · exact .inr (rest member)
  | grid bound1 bound2 nextdim code next deeper rest =>
      simp only [unrolls, steps, List.mem_append] at member ⊢
      exact member.imp deeper rest

/-- Further in there are later dimensions only. -/
theorem steps_above {d : Nat} {outer : Nat → Option Int}
    (laid : Laid iterDims limit tree grids level base dim outer) (deep : base ≤ dim)
    (earlier : d < if grids then dim + 1 else base) : steps d tree = [] := by
  induction tree generalizing grids level base dim outer with
  | null => rfl
  | block unrolled attrs contents nextdim next inner deeper rest =>
      obtain ⟨rfl, placed, _, _, contents_laid, nextdim_laid, next_laid⟩ := laid
      simp only [Bool.false_eq_true, if_false] at earlier
      have other : attrs.dim ≠ d := by
        have := placed.at_dim
        omega
      simp [steps, other, inner contents_laid (Nat.le_refl base) earlier,
        deeper nextdim_laid (by omega) earlier, rest next_laid deep earlier]
  | stride attrs contents next inner rest =>
      obtain ⟨rfl, rfl, placed, _, contents_laid, next_laid⟩ := laid
      simp only [Bool.false_eq_true, if_false] at earlier
      have other : attrs.dim ≠ d := by
        have := placed.at_dim
        omega
      simp [steps, other, inner contents_laid deep (Nat.lt_succ_of_lt earlier),
        rest next_laid deep earlier]
  | grid bound1 bound2 nextdim code next deeper rest =>
      obtain ⟨rfl, nextdim_laid, next_laid⟩ := laid
      simp only [if_true] at earlier
      simp [steps, deeper nextdim_laid (Nat.le_refl _) earlier, rest next_laid deep earlier]

/-- What is a multiple of the steps that are found is one of all steps. -/
theorem agrees_steps {d : Nat} {k : Int} {sizes : Nat → Option Int}
    (laid : Laid iterDims limit tree grids level base dim sizes) (deep : base ≤ dim)
    (agrees : Agrees tree outer) (found : ∀ s ∈ unrolls d tree, s ∣ k) :
    ∀ s ∈ steps d tree, s ∣ k := by
  induction tree generalizing grids level base dim sizes outer with
  | null => simp [steps]
  | block unrolled attrs contents nextdim next inner deeper rest =>
      obtain ⟨_, _, _, _, contents_laid, nextdim_laid, next_laid⟩ := laid
      obtain ⟨_, ⟨multiples, contents_agrees, nextdim_agrees⟩, next_agrees⟩ := agrees
      simp only [unrolls, steps, List.forall_mem_append] at found ⊢
      refine ⟨?_, rest next_laid deep next_agrees found.2⟩
      by_cases own : attrs.dim = d ∧ unrolled
      · simp only [if_pos own, List.forall_mem_singleton] at found ⊢
        have multiples := multiples own.2
        rw [own.1, List.forall_mem_append] at multiples
        exact ⟨found.1, fun s member => (multiples.1 s member).trans found.1,
          fun s member => (multiples.2 s member).trans found.1⟩
      · simp only [if_neg own, List.forall_mem_append] at found ⊢
        exact ⟨by simp, inner contents_laid (Nat.le_refl base) contents_agrees found.1.1,
          deeper nextdim_laid (by omega) nextdim_agrees found.1.2⟩
  | stride attrs contents next inner rest =>
      obtain ⟨_, rfl, placed, _, contents_laid, next_laid⟩ := laid
      obtain ⟨_, contents_agrees, next_agrees⟩ := agrees
      simp only [unrolls, steps, List.forall_mem_append] at found ⊢
      refine ⟨?_, rest next_laid deep next_agrees found.2⟩
      by_cases own : attrs.dim = d
      · have inside : steps d contents = [] :=
          steps_above contents_laid deep (by have := placed.at_dim; simp; omega)
        simpa [own, inside] using found.1
      · simp only [if_neg own] at found ⊢
        exact ⟨by simp, inner contents_laid deep contents_agrees found.1⟩
  | grid bound1 bound2 nextdim code next deeper rest =>
      obtain ⟨_, nextdim_laid, next_laid⟩ := laid
      simp only [unrolls, steps, List.forall_mem_append] at found ⊢
      exact ⟨deeper nextdim_laid (Nat.le_refl _) agrees.1 found.1,
        rest next_laid deep agrees.2 found.2⟩

/-- The sizes of the blocks around a tree before and after fitting. -/
def Around (before after : Nat → Option Int) (outer : Nat → Option Enclosing) : Prop :=
  ∀ d, before d = (outer d).map Enclosing.size ∧ after d = (outer d).map Enclosing.adjusted

theorem around_inside (around : Around before after outer) (dim : Nat) (e : Enclosing) :
    Around (Function.update before dim (some e.size)) (Function.update after dim (some e.adjusted))
      (Function.update outer dim (some e)) := by
  intro d
  by_cases here : d = dim
  · subst here
    simp only [Function.update_self]
    exact ⟨rfl, rfl⟩
  · simp only [Function.update_of_ne here]
    exact around d

/-- The blocks around a tree cover its steps. -/
def Covered (outer : Nat → Option Enclosing) (tree : WlNode Code) : Prop :=
  ∀ d, ∀ e ∈ outer d, e.Covers (unrolls d tree) (steps d tree)

theorem covers_subset {e : Enclosing} {found found' all all' : List Int}
    (covers : e.Covers found all) (fewer : found' ⊆ found) (fewer_all : all' ⊆ all) :
    e.Covers found' all' := by
  cases e with
  | block size lcm => exact ⟨covers.1, covers.2.1, fun s member => covers.2.2 s (fewer member)⟩
  | ublock size => exact fun s member => covers s (fewer_all member)

/-- A block that is put around a tree covers the steps of its dimension. -/
theorem covered_inside {dim : Nat} {e : Enclosing} {inside : WlNode Code}
    (covers : e.Covers (unrolls dim inside) (steps dim inside))
    (others : ∀ d, d ≠ dim → ∀ e ∈ outer d, e.Covers (unrolls d inside) (steps d inside)) :
    Covered (Function.update outer dim (some e)) inside := by
  intro d e' member
  by_cases here : d = dim
  · subst here
    rw [Function.update_self, Option.mem_some_iff] at member
    exact member ▸ covers
  · rw [Function.update_of_ne here] at member
    exact others d here e' member

/-- The bound of an inner node meets the size of the block around it. -/
theorem bound_fits {attrs : Attrs} (placed : Placed iterDims level dim before attrs)
    (around : Around before after outer)
    (covers : ∀ e ∈ outer attrs.dim, ∃ found all, attrs.step ∈ found ∧ attrs.step ∈ all ∧
      e.Covers found all) :
    (attrs.level ≠ 0 → ∀ size ∈ after attrs.dim,
        adjustBlockSize attrs.bound2 attrs.step = size) ↔
      ∀ e ∈ outer attrs.dim, e.Admits attrs.step := by
  have here := around attrs.dim
  rw [placed.at_level]
  cases enclosed : outer attrs.dim with
  | none => simp [here.2, enclosed]
  | some e =>
      have deep : level ≠ 0 := by
        intro top
        have none := placed.outermost top
        rw [← placed.at_dim, here.1, enclosed] at none
        cases none
      have size : attrs.bound2 = e.size := by
        have inner := (placed.inner deep).2
        rw [← placed.at_dim, here.1, enclosed] at inner
        exact (Option.some.inj inner).symm
      obtain ⟨found, all, found_here, all_here, covers⟩ := covers e enclosed
      rw [here.2, enclosed]
      simp only [Option.map_some, Option.mem_some_iff, forall_eq', size]
      cases e with
      | block size lcm =>
          obtain ⟨lcm_pos, wide, divide⟩ := covers
          exact (forall_prop_of_true deep).trans
            (adjust_eq_iff placed.positive lcm_pos (divide _ found_here) wide)
      | ublock size =>
          exact iff_of_true (fun _ => adjust_multiple (covers _ all_here)) trivial

/-- The parts of a node are kept by its copy. -/
theorem fits_finished {node : Int → Int → WlNode Code → WlNode Code} {attrs : Attrs}
    {unroll : Int} {isBlock : Bool} {later : WlNode Code} {bounded : Int → Prop} {own : Prop}
    (shown : ∀ bound1 bound2 later,
      Fits (node bound1 bound2 later) after ↔ bounded bound2 ∧ own ∧ Fits later after)
    (top : attrs.level = 0 → ∀ bound, bounded bound) :
    Fits (finished node attrs unroll isBlock later) after ↔
      (attrs.level ≠ 0 →
        bounded (if isBlock then attrs.bound2 else adjustBlockSize attrs.bound2 attrs.step)) ∧
        own ∧ Fits later after := by
  unfold finished
  by_cases outermost : attrs.level = 0
  · have free := top outermost
    rw [if_pos outermost]
    split
    · simp only [shown]
      tauto
    · rw [shown]
      tauto
  · rw [if_neg outermost]
    split
    · rw [shown]
      tauto
    · rw [shown]
      tauto

theorem outermost_free {attrs : Attrs} (placed : Placed iterDims level dim before attrs)
    (around : Around before after outer) (top : attrs.level = 0) : after attrs.dim = none := by
  have free := placed.outermost (placed.at_level ▸ top)
  rw [← placed.at_dim, (around attrs.dim).1, Option.map_eq_none_iff] at free
  rw [(around attrs.dim).2, free]
  rfl

/-- The steps of a block inside. -/
theorem inner_lcm {attrs : Attrs} {contents nextdim : WlNode Code} {sizes : Nat → Option Int}
    (contents_laid : Laid iterDims limit contents false (level + 1) base base sizes)
    (nextdim_laid : Laid iterDims limit nextdim false level base (dim + 1) sizes)
    (limits : ∀ d, 0 < limit d) (wide : limit attrs.dim ≤ attrs.step) :
    0 < innerLcm attrs contents nextdim ∧ innerLcm attrs contents nextdim ≤ attrs.step := by
  have inside : ∀ s ∈ unrolls attrs.dim contents ++ unrolls attrs.dim nextdim,
      0 < s ∧ s ∣ limit attrs.dim := by
    rw [List.forall_mem_append]
    exact ⟨laid_unrolls contents_laid attrs.dim, laid_unrolls nextdim_laid attrs.dim⟩
  refine ⟨lcm_of_pos fun s member => (inside s member).1, ?_⟩
  have divides : innerLcm attrs contents nextdim ∣ limit attrs.dim :=
    lcm_of_dvd.mpr fun s member => (inside s member).2
  exact Int.le_trans (Int.le_of_dvd (limits attrs.dim) divides) wide

section Nodes

variable {unrolled : Bool} {attrs : Attrs} {contents nextdim next : WlNode Code}

theorem covered_sons {e : Enclosing}
    (covered : Covered outer (.block unrolled attrs contents nextdim next))
    (covers : e.Covers (unrolls attrs.dim contents ++ unrolls attrs.dim nextdim)
      (steps attrs.dim contents ++ steps attrs.dim nextdim)) :
    Covered (Function.update outer attrs.dim (some e)) contents ∧
      Covered (Function.update outer attrs.dim (some e)) nextdim := by
  have others : ∀ d, d ≠ attrs.dim → ∀ e ∈ outer d,
      e.Covers (unrolls d contents ++ unrolls d nextdim) (steps d contents ++ steps d nextdim) := by
    intro d other e member
    refine covers_subset (covered d e member) ?_ ?_
    · rw [unrolls, if_neg fun own => other own.1.symm]
      exact List.subset_append_left _ _
    · intro s inside
      simp only [steps, List.mem_append]
      exact .inl (.inr (List.mem_append.mp inside))
  constructor
  · apply covered_inside
    · exact covers_subset covers (List.subset_append_left _ _) (List.subset_append_left _ _)
    · exact fun d other e member => covers_subset (others d other e member)
        (List.subset_append_left _ _) (List.subset_append_left _ _)
  · apply covered_inside
    · exact covers_subset covers (List.subset_append_right _ _) (List.subset_append_right _ _)
    · exact fun d other e member => covers_subset (others d other e member)
        (List.subset_append_right _ _) (List.subset_append_right _ _)

theorem covered_next (covered : Covered outer (.block unrolled attrs contents nextdim next)) :
    Covered outer next := fun d e member =>
  covers_subset (covered d e member) (List.subset_append_right _ _) (List.subset_append_right _ _)

/-- A block with fitted sons; its size may have been adjusted. -/
theorem fits_block (fit : Attrs) (bound1 bound2 : Int) (later : WlNode Code) :
    Fits (blockNode unrolled fit (fitted contents) (fitted nextdim) bound1 bound2 later) after ↔
      (unrolled = true → ∀ size ∈ after fit.dim, bound2 = size) ∧
        (0 < fit.step ∧ (∀ s ∈ steps fit.dim contents ++ steps fit.dim nextdim, s ∣ fit.step) ∧
          Fits (fitted contents) (Function.update after fit.dim (some fit.step)) ∧
          Fits (fitted nextdim) (Function.update after fit.dim (some fit.step))) ∧
        Fits later after := by
  have same : (∀ s ∈ steps fit.dim (fitted contents) ++ steps fit.dim (fitted nextdim),
      s ∣ fit.step) ↔ ∀ s ∈ steps fit.dim contents ++ steps fit.dim nextdim, s ∣ fit.step := by
    simp only [List.mem_append, steps_fitted]
  rw [← same]
  exact Iff.rfl

/-- What the induction gives for the sons of a block that is seen as `e`. -/
def SonsFit (after : Nat → Option Int) (outer : Nat → Option Enclosing) (dim : Nat)
    (contents nextdim : WlNode Code) (e : Enclosing) : Prop :=
  (Fits (fitted contents) (Function.update after dim (some e.adjusted)) ↔
      Agrees contents (Function.update outer dim (some e))) ∧
    (Fits (fitted nextdim) (Function.update after dim (some e.adjusted)) ↔
      Agrees nextdim (Function.update outer dim (some e)))

theorem ublock_fits_iff (placed : Placed iterDims level dim before attrs)
    (around : Around before after outer)
    (covered : Covered outer (.block true attrs contents nextdim next))
    (sons : (∀ s ∈ steps attrs.dim contents ++ steps attrs.dim nextdim, s ∣ attrs.step) →
      SonsFit after outer attrs.dim contents nextdim (.ublock attrs.step))
    (rest : Fits (fitted next) after ↔ Agrees next outer) :
    Fits (fitted (.block true attrs contents nextdim next)) after ↔
      Agrees (.block true attrs contents nextdim next) outer := by
  have bounds := bound_fits placed around fun e member =>
    ⟨_, _, by simp [unrolls], by simp [steps], covered attrs.dim e member⟩
  change Fits (finished (blockNode true attrs (fitted contents) (fitted nextdim)) attrs
    attrs.step false (fitted next)) after ↔ _
  rw [fits_finished (fits_block attrs) fun top => by simp [outermost_free placed around top], rest]
  refine and_congr (by simpa using bounds) (and_congr_left' ?_)
  rw [and_iff_right placed.positive, forall_prop_of_true (rfl : true = true)]
  refine and_congr_right fun multiples => ?_
  obtain ⟨contents_iff, nextdim_iff⟩ := sons multiples
  exact and_congr contents_iff nextdim_iff

theorem block_fits_iff {sizes : Nat → Option Int} (deep : base ≤ attrs.dim)
    (contents_laid : Laid iterDims limit contents false (level + 1) base base sizes)
    (nextdim_laid : Laid iterDims limit nextdim false level base (attrs.dim + 1) sizes)
    (lcm_pos : 0 < innerLcm attrs contents nextdim)
    (wide : innerLcm attrs contents nextdim ≤ attrs.step)
    (sons : SonsFit after outer attrs.dim contents nextdim
      (.block attrs.step (innerLcm attrs contents nextdim)))
    (rest : Fits (fitted next) after ↔ Agrees next outer) :
    Fits (fitted (.block false attrs contents nextdim next)) after ↔
      Agrees (.block false attrs contents nextdim next) outer := by
  obtain ⟨contents_iff, nextdim_iff⟩ := sons
  let fit := { attrs with step := adjustBlockSize attrs.step (innerLcm attrs contents nextdim) }
  change Fits (finished (blockNode false fit (fitted contents) (fitted nextdim)) fit
    (innerLcm attrs contents nextdim) true (fitted next)) after ↔ _
  rw [fits_finished (fits_block fit) fun _ _ => by simp, rest]
  refine and_congr (by simp) (and_congr_left' ?_)
  constructor
  · rintro ⟨_, _, contents_fits, nextdim_fits⟩
    exact ⟨by simp, contents_iff.mp contents_fits, nextdim_iff.mp nextdim_fits⟩
  · rintro ⟨_, contents_agrees, nextdim_agrees⟩
    refine ⟨adjust_pos lcm_pos wide, ?_, contents_iff.mpr contents_agrees,
      nextdim_iff.mpr nextdim_agrees⟩
    have divides : ∀ u ∈ unrolls attrs.dim contents ++ unrolls attrs.dim nextdim,
        u ∣ fit.step := fun u member => (dvd_lcm_of member).trans (adjust_dvd lcm_pos wide)
    rw [List.forall_mem_append] at divides ⊢
    exact ⟨agrees_steps contents_laid (Nat.le_refl base) contents_agrees divides.1,
      agrees_steps nextdim_laid (by omega) nextdim_agrees divides.2⟩

end Nodes

/-- Induction over the tree. -/
theorem fitted_fits_iff (laid : Laid iterDims limit tree grids level base dim before)
    (limits : ∀ d, 0 < limit d) (deep : base ≤ dim) (around : Around before after outer)
    (covered : Covered outer tree) : Fits (fitted tree) after ↔ Agrees tree outer := by
  induction tree generalizing grids level base dim before after outer with
  | null => exact Iff.rfl
  | block unrolled attrs contents nextdim next inner deeper rest =>
      obtain ⟨_, placed, _, size, contents_laid, nextdim_laid, next_laid⟩ := laid
      have next_iff := rest next_laid deep around (covered_next covered)
      obtain rfl := placed.at_dim
      have sons (e : Enclosing) (same : e.size = attrs.step)
          (covers : e.Covers (unrolls attrs.dim contents ++ unrolls attrs.dim nextdim)
            (steps attrs.dim contents ++ steps attrs.dim nextdim)) :
          SonsFit after outer attrs.dim contents nextdim e := by
        obtain ⟨contents_covered, nextdim_covered⟩ := covered_sons covered covers
        have inside := around_inside around attrs.dim e
        rw [same] at inside
        exact ⟨inner contents_laid (Nat.le_refl base) inside contents_covered,
          deeper nextdim_laid (by omega) inside nextdim_covered⟩
      cases unrolled with
      | true =>
          exact ublock_fits_iff placed around covered (sons (.ublock attrs.step) rfl) next_iff
      | false =>
          obtain ⟨lcm_pos, wide⟩ := inner_lcm contents_laid nextdim_laid limits size
          have block := sons (.block attrs.step (innerLcm attrs contents nextdim)) rfl
            ⟨lcm_pos, wide, fun s member => dvd_lcm_of member⟩
          exact block_fits_iff deep contents_laid nextdim_laid lcm_pos wide block next_iff
  | stride attrs contents next inner rest =>
      obtain ⟨_, rfl, placed, _, contents_laid, next_laid⟩ := laid
      have contents_covered : Covered outer contents := by
        intro d e member
        refine covers_subset (covered d e member) ?_ (by simp [steps])
        by_cases own : attrs.dim = d
        · have inside : steps d contents = [] :=
            steps_above contents_laid deep (by have := placed.at_dim; simp; omega)
          intro s found
          simpa [inside] using unrolls_subset contents found
        · simp [unrolls, own]
      have next_covered : Covered outer next := fun d e member =>
        covers_subset (covered d e member) (List.subset_append_right _ _)
          (List.subset_append_right _ _)
      have shown : ∀ bound1 bound2 later,
          Fits (strideNode attrs (fitted contents) bound1 bound2 later) after ↔
            (∀ size ∈ after attrs.dim, bound2 = size) ∧ Fits (fitted contents) after ∧
              Fits later after := fun _ _ _ => Iff.rfl
      rw [fitted, fits_finished shown fun top => by simp [outermost_free placed around top],
        inner contents_laid deep around contents_covered,
        rest next_laid deep around next_covered]
      refine and_congr_left' (bound_fits placed around fun e member => ?_)
      exact ⟨_, _, by simp [unrolls], by simp [steps], covered attrs.dim e member⟩
  | grid bound1 bound2 nextdim code next deeper rest =>
      obtain ⟨_, nextdim_laid, next_laid⟩ := laid
      have subset : ∀ d e, e ∈ outer d → e.Covers (unrolls d nextdim) (steps d nextdim) ∧
          e.Covers (unrolls d next) (steps d next) := by
        intro d e member
        exact ⟨covers_subset (covered d e member) (by simp [unrolls]) (by simp [steps]),
          covers_subset (covered d e member) (by simp [unrolls]) (by simp [steps])⟩
      exact and_congr
        (deeper nextdim_laid (Nat.le_refl _) around fun d e member => (subset d e member).1)
        (rest next_laid deep around fun d e member => (subset d e member).2)

end Agreement

section Segments

variable {Code : Type}

/-- The tree that BlockWl has made of the strides of a segment. -/
structure BlockedTree (segment : Segment Code) where
  tree : WlNode Code
  built : segment.blocked = some tree

/-- Rows alternate between strides with step 4 and with step 6, in blocks of 2 rows and 16
columns. -/
def alternating : Segment Nat where
  iterDims := 2
  strides :=
    .stride ⟨0, 0, 0, 8, 2⟩
      (.grid 0 1
        (.stride ⟨0, 1, 0, 48, 4⟩ (.grid 0 1 .null (some 0) (.grid 1 4 .null (some 1) .null)) .null)
        none
        (.grid 1 2
          (.stride ⟨0, 1, 0, 48, 6⟩ (.grid 0 1 .null (some 0) (.grid 1 6 .null (some 1) .null))
            .null)
          none .null))
      .null
  bvs := [fun d => if d = 0 then 2 else 16]
  ubv := fun _ => 1
  constant := by simp [Unblocked]
  wide := by
    intro bv member
    cases List.mem_singleton.mp member
    refine ⟨0, by simp, fun d _ below => ?_⟩
    have dims : d = 0 ∨ d = 1 := by omega
    rcases dims with rfl | rfl <;> decide
  positive := fun _ => by decide

def alternatingTree : BlockedTree alternating := ⟨alternating.blocked.getD .null, by decide⟩

end Segments

end Sac2c.BlockFitting
