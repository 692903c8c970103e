import Mathlib.Order.Basic
import Mathlib.Data.Int.Order.Basic

/-!
A line of memory units divided into blocks. A layout says which block starts at
a unit and carries that blocks are not empty and never overlap. The operations
are those of an allocator: give a block another state, cut it in two, melt two
neighbours into one, and lay out a block where nothing was.
-/

namespace Sac2c.Blocks

universe u

structure Block (State : Type u) where
  size : Int
  state : State

structure Layout (State : Type u) where
  block : Int → Option (Block State)
  nonempty : ∀ start found, block start = some found → 0 < found.size
  apart : ∀ low high first second, block low = some first → block high = some second →
    low < high → low + first.size ≤ high

variable {State : Type u}

namespace Layout

/-- `unit` lies in some block of the layout. -/
def Covers (layout : Layout State) (unit : Int) : Prop :=
  ∃ start found, layout.block start = some found ∧ start ≤ unit ∧ unit < start + found.size

theorem apart_or (layout : Layout State) {left right : Int} {first second : Block State}
    (atLeft : layout.block left = some first) (atRight : layout.block right = some second)
    (differ : left ≠ right) :
    left + first.size ≤ right ∨ right + second.size ≤ left := by
  rcases lt_or_gt_of_ne differ with below | above
  · exact Or.inl (layout.apart left right first second atLeft atRight below)
  · exact Or.inr (layout.apart right left second first atRight atLeft above)

theorem block_unique (layout : Layout State) {left right unit : Int} {first second : Block State}
    (atLeft : layout.block left = some first) (atRight : layout.block right = some second)
    (inLeft : left ≤ unit ∧ unit < left + first.size)
    (inRight : right ≤ unit ∧ unit < right + second.size) : left = right := by
  by_contra differ
  rcases layout.apart_or atLeft atRight differ with before | after
  · exact absurd inRight.1 (not_le.mpr (lt_of_lt_of_le inLeft.2 before))
  · exact absurd inLeft.1 (not_le.mpr (lt_of_lt_of_le inRight.2 after))

theorem covers_start (layout : Layout State) {start : Int} {found : Block State}
    (atStart : layout.block start = some found) : layout.Covers start := by
  have size := layout.nonempty start found atStart
  exact ⟨start, found, atStart, le_refl start, by omega⟩

/-- The block at `start` gets a new state and keeps its size. -/
def retag (layout : Layout State) (start : Int) (found : Block State)
    (atStart : layout.block start = some found) (state : State) : Layout State where
  block := fun other => if other = start then some ⟨found.size, state⟩ else layout.block other
  nonempty := by
    intro other block atOther
    split_ifs at atOther with same
    · cases atOther
      exact layout.nonempty start found atStart
    · exact layout.nonempty other block atOther
  apart := by
    intro low high first second atLow atHigh below
    split_ifs at atLow atHigh with isLow isHigh isHigh
    · omega
    · cases atLow
      exact layout.apart low high found second (isLow ▸ atStart) atHigh below
    · cases atHigh
      exact layout.apart low high first found atLow (isHigh ▸ atStart) below
    · exact layout.apart low high first second atLow atHigh below

/-- The block at `start` falls into `low` and, above it, `high`. -/
def split (layout : Layout State) (start : Int) (found : Block State)
    (atStart : layout.block start = some found) (low high : Block State)
    (lowSize : 0 < low.size) (highSize : 0 < high.size)
    (sum : low.size + high.size = found.size) : Layout State where
  block := fun other =>
    if other = start then some low
    else if other = start + low.size then some high
    else layout.block other
  nonempty := by
    intro other block atOther
    split_ifs at atOther
    · cases atOther
      exact lowSize
    · cases atOther
      exact highSize
    · exact layout.nonempty other block atOther
  apart := by
    -- every other block lies below `start` or above the end of the old block
    have clear : ∀ other block, layout.block other = some block → other ≠ start →
        other + block.size ≤ start ∨ start + found.size ≤ other :=
      fun other block atOther differ => layout.apart_or atOther atStart differ
    intro a b first second atA atB below
    split_ifs at atA atB with aStart bStart bHigh aHigh bStart bHigh bStart bHigh
    · omega
    · cases atA
      omega
    · cases atA
      have side := clear b second atB bStart
      have size := layout.nonempty b second atB
      omega
    · omega
    · omega
    · cases atA
      have side := clear b second atB bStart
      have size := layout.nonempty b second atB
      omega
    · cases atB
      have side := clear a first atA aStart
      omega
    · cases atB
      have side := clear a first atA aStart
      omega
    · exact layout.apart a b first second atA atB below

/-- The blocks at `low` and, right behind it, at `high` become one. -/
def merge (layout : Layout State) (low high : Int) (first second : Block State)
    (atLow : layout.block low = some first) (atHigh : layout.block high = some second)
    (adjacent : low + first.size = high) (state : State) : Layout State where
  block := fun other =>
    if other = low then some ⟨first.size + second.size, state⟩
    else if other = high then none
    else layout.block other
  nonempty := by
    intro other block atOther
    have lowSize := layout.nonempty low first atLow
    have highSize := layout.nonempty high second atHigh
    split_ifs at atOther
    · cases atOther
      show 0 < first.size + second.size
      omega
    · exact layout.nonempty other block atOther
  apart := by
    -- a third block is clear of both halves, and nothing fits between them
    have clear : ∀ other block, layout.block other = some block → other ≠ low → other ≠ high →
        other + block.size ≤ low ∨ high + second.size ≤ other := by
      intro other block atOther notLow notHigh
      have size := layout.nonempty other block atOther
      have size' := layout.nonempty low first atLow
      rcases layout.apart_or atOther atLow notLow with before | after
      · exact Or.inl before
      · rcases layout.apart_or atOther atHigh notHigh with before' | after'
        · omega
        · exact Or.inr after'
    have highSize := layout.nonempty high second atHigh
    have lowSize := layout.nonempty low first atLow
    intro a b left right atA atB below
    split_ifs at atA atB with aLow bLow bHigh aHigh
    · omega
    · cases atA
      have side := clear b right atB (by omega) (by omega)
      have size := layout.nonempty b right atB
      show a + (first.size + second.size) ≤ b
      omega
    · cases atB
      have side := clear a left atA (by omega) (by omega)
      omega
    · exact layout.apart a b left right atA atB below

/-- A new block at `start`, where no block was. -/
def insert (layout : Layout State) (start : Int) (added : Block State) (size : 0 < added.size)
    (unused : ∀ unit, start ≤ unit → unit < start + added.size → ¬ layout.Covers unit) :
    Layout State where
  block := fun other => if other = start then some added else layout.block other
  nonempty := by
    intro other block atOther
    split_ifs at atOther
    · cases atOther
      exact size
    · exact layout.nonempty other block atOther
  apart := by
    intro low high first second atLow atHigh below
    split_ifs at atLow atHigh with isLow isHigh isHigh
    · omega
    · -- the start of the upper block is covered, so the new block ends before it
      cases atLow
      subst isLow
      by_contra overlap
      exact unused high (le_of_lt below) (not_le.mp overlap) (layout.covers_start atHigh)
    · cases atHigh
      subst isHigh
      by_contra overlap
      exact unused high (le_refl high) (by omega)
        ⟨low, first, atLow, le_of_lt below, not_le.mp overlap⟩
    · exact layout.apart low high first second atLow atHigh below

/-- The block at `start` takes in the unused units behind it. -/
def grow (layout : Layout State) (start : Int) (found : Block State)
    (atStart : layout.block start = some found) (more : Int) (positive : 0 < more)
    (unused : ∀ unit, start + found.size ≤ unit → unit < start + found.size + more →
      ¬ layout.Covers unit) : Layout State where
  block := fun other =>
    if other = start then some ⟨found.size + more, found.state⟩ else layout.block other
  nonempty := by
    have size := layout.nonempty start found atStart
    intro other block atOther
    split_ifs at atOther
    · cases atOther
      show 0 < found.size + more
      omega
    · exact layout.nonempty other block atOther
  apart := by
    intro low high first second atLow atHigh below
    split_ifs at atLow atHigh with isLow isHigh isHigh
    · omega
    · -- the next block starts behind the new units
      cases atLow
      have clear := layout.apart start high found second atStart atHigh (isLow ▸ below)
      by_contra overlap
      refine unused high clear ?_ (layout.covers_start atHigh)
      dsimp only at overlap
      omega
    · cases atHigh
      exact layout.apart low high first found atLow (isHigh ▸ atStart) below
    · exact layout.apart low high first second atLow atHigh below

section Lookup

variable (layout : Layout State)

theorem grow_block {start : Int} {found : Block State}
    (atStart : layout.block start = some found) {more : Int} (positive : 0 < more)
    (unused : ∀ unit, start + found.size ≤ unit → unit < start + found.size + more →
      ¬ layout.Covers unit) (other : Int) :
    (layout.grow start found atStart more positive unused).block other =
      if other = start then some ⟨found.size + more, found.state⟩ else layout.block other := rfl

/-- Inside a block there is no other start. -/
theorem block_inside {start unit : Int} {found : Block State}
    (atStart : layout.block start = some found) (above : start < unit)
    (below : unit < start + found.size) : layout.block unit = none := by
  cases atUnit : layout.block unit with
  | none => rfl
  | some other =>
      have clear := layout.apart start unit found other atStart atUnit above
      omega

theorem retag_block {start : Int} {found : Block State}
    (atStart : layout.block start = some found) (state : State) (other : Int) :
    (layout.retag start found atStart state).block other =
      if other = start then some ⟨found.size, state⟩ else layout.block other := rfl

theorem split_block {start : Int} {found low high : Block State}
    (atStart : layout.block start = some found) (lowSize : 0 < low.size)
    (highSize : 0 < high.size) (sum : low.size + high.size = found.size) (other : Int) :
    (layout.split start found atStart low high lowSize highSize sum).block other =
      if other = start then some low
      else if other = start + low.size then some high
      else layout.block other := rfl

theorem merge_block {low high : Int} {first second : Block State}
    (atLow : layout.block low = some first) (atHigh : layout.block high = some second)
    (adjacent : low + first.size = high) (state : State) (other : Int) :
    (layout.merge low high first second atLow atHigh adjacent state).block other =
      if other = low then some ⟨first.size + second.size, state⟩
      else if other = high then none
      else layout.block other := rfl

theorem insert_block {start : Int} {added : Block State} (size : 0 < added.size)
    (unused : ∀ unit, start ≤ unit → unit < start + added.size → ¬ layout.Covers unit)
    (other : Int) :
    (layout.insert start added size unused).block other =
      if other = start then some added else layout.block other := rfl

theorem retag_self {start : Int} {found : Block State}
    (atStart : layout.block start = some found) (state : State) :
    (layout.retag start found atStart state).block start = some ⟨found.size, state⟩ := by
  rw [retag_block, if_pos rfl]

theorem retag_other {start : Int} {found : Block State}
    (atStart : layout.block start = some found) (state : State) {other : Int}
    (differ : other ≠ start) :
    (layout.retag start found atStart state).block other = layout.block other := by
  rw [retag_block, if_neg differ]

theorem retag_inside {start : Int} {found : Block State}
    (atStart : layout.block start = some found) (state : State) {other : Int}
    {block : Block State} (above : start ≤ other) (below : other < start + found.size)
    (atOther : (layout.retag start found atStart state).block other = some block) :
    other = start ∧ block = ⟨found.size, state⟩ := by
  rw [retag_block] at atOther
  split_ifs at atOther with same
  · exact ⟨same, (Option.some.inj atOther).symm⟩
  · rw [layout.block_inside atStart (by omega) below] at atOther
    exact nomatch atOther

/-- A block after a retagging is the retagged one or an old one elsewhere. -/
theorem retag_cases {start : Int} {found : Block State}
    (atStart : layout.block start = some found) (state : State) {other : Int}
    {block : Block State}
    (atOther : (layout.retag start found atStart state).block other = some block) :
    (other = start ∧ block = ⟨found.size, state⟩) ∨
      (other ≠ start ∧ layout.block other = some block) := by
  rw [retag_block] at atOther
  split_ifs at atOther with same
  · exact Or.inl ⟨same, (Option.some.inj atOther).symm⟩
  · exact Or.inr ⟨same, atOther⟩

/-- Retagging a block moves none of the blocks in a third state. -/
theorem retag_with_state {start : Int} {found : Block State}
    (atStart : layout.block start = some found) (state : State) {kept : State}
    (wasNot : found.state ≠ kept) (isNot : state ≠ kept) (other : Int) :
    (∃ size, (layout.retag start found atStart state).block other = some ⟨size, kept⟩) ↔
      ∃ size, layout.block other = some ⟨size, kept⟩ := by
  by_cases same : other = start
  · subst same
    rw [retag_self, atStart]
    constructor
    · rintro ⟨size, new⟩
      cases new
      exact absurd rfl isNot
    · rintro ⟨size, old⟩
      cases old
      exact absurd rfl wasNot
  · rw [retag_other _ _ _ same]

theorem insert_cases {start : Int} {added : Block State} (size : 0 < added.size)
    (unused : ∀ unit, start ≤ unit → unit < start + added.size → ¬ layout.Covers unit)
    {other : Int} {block : Block State}
    (atOther : (layout.insert start added size unused).block other = some block) :
    (other = start ∧ block = added) ∨ (other ≠ start ∧ layout.block other = some block) := by
  rw [insert_block] at atOther
  split_ifs at atOther with same
  · exact Or.inl ⟨same, (Option.some.inj atOther).symm⟩
  · exact Or.inr ⟨same, atOther⟩

/-- A block is never where a new one is laid out. -/
theorem insert_apart {start : Int} (added : Block State) (size : 0 < added.size)
    (unused : ∀ unit, start ≤ unit → unit < start + added.size → ¬ layout.Covers unit)
    {other : Int} {block : Block State} (atOther : layout.block other = some block) :
    other ≠ start := by
  rintro rfl
  exact unused other (le_refl _) (by omega) (layout.covers_start atOther)

theorem insert_with_state {start : Int} (added : Block State) (size : 0 < added.size)
    (unused : ∀ unit, start ≤ unit → unit < start + added.size → ¬ layout.Covers unit)
    {kept : State} (isNot : added.state ≠ kept) (other : Int) :
    (∃ size', (layout.insert start added size unused).block other = some ⟨size', kept⟩) ↔
      ∃ size', layout.block other = some ⟨size', kept⟩ := by
  refine exists_congr ?_
  intro size'
  constructor
  · intro new
    rcases layout.insert_cases size unused new with ⟨_, isAdded⟩ | ⟨_, old⟩
    · exact absurd (congrArg Block.state isAdded).symm isNot
    · exact old
  · intro old
    rw [insert_block, if_neg (layout.insert_apart added size unused old)]
    exact old

section Split

variable {start : Int} {found : Block State} (low high : Block State)
  (atStart : layout.block start = some found) (lowSize : 0 < low.size)
  (highSize : 0 < high.size) (sum : low.size + high.size = found.size)

theorem split_low :
    (layout.split start found atStart low high lowSize highSize sum).block start = some low := by
  rw [split_block, if_pos rfl]

theorem split_high :
    (layout.split start found atStart low high lowSize highSize sum).block (start + low.size) =
      some high := by
  rw [split_block, if_neg (by omega), if_pos rfl]

theorem split_outside {other : Int} (out : other < start ∨ start + found.size ≤ other) :
    (layout.split start found atStart low high lowSize highSize sum).block other =
      layout.block other := by
  rw [split_block, if_neg (by omega), if_neg (by omega)]

theorem split_inside {other : Int} {block : Block State} (above : start ≤ other)
    (below : other < start + found.size)
    (atOther : (layout.split start found atStart low high lowSize highSize sum).block other =
      some block) :
    (other = start ∧ block = low) ∨ (other = start + low.size ∧ block = high) := by
  rw [split_block] at atOther
  split_ifs at atOther with isLow isHigh
  · exact Or.inl ⟨isLow, (Option.some.inj atOther).symm⟩
  · exact Or.inr ⟨isHigh, (Option.some.inj atOther).symm⟩
  · rw [layout.block_inside atStart (by omega) below] at atOther
    exact nomatch atOther

/-- A block after a split is one of the halves or an old one outside of both. -/
theorem split_cases {other : Int} {block : Block State}
    (atOther : (layout.split start found atStart low high lowSize highSize sum).block other =
      some block) :
    (other = start ∧ block = low) ∨ (other = start + low.size ∧ block = high) ∨
      ((other < start ∨ start + found.size ≤ other) ∧ layout.block other = some block) := by
  by_cases inside : start ≤ other ∧ other < start + found.size
  · rcases layout.split_inside low high atStart lowSize highSize sum inside.1 inside.2 atOther with
      isLow | isHigh
    · exact Or.inl isLow
    · exact Or.inr (Or.inl isHigh)
  · have out : other < start ∨ start + found.size ≤ other := by omega
    rw [layout.split_outside low high atStart lowSize highSize sum out] at atOther
    exact Or.inr (Or.inr ⟨out, atOther⟩)

/-- Splitting a block leaves all others in place. -/
theorem split_old {other : Int} {block : Block State} (atOther : layout.block other = some block)
    (differ : other ≠ start) :
    (layout.split start found atStart low high lowSize highSize sum).block other = some block := by
  rcases layout.apart_or atOther atStart differ with before | after
  · have size := layout.nonempty other block atOther
    exact (layout.split_outside low high atStart lowSize highSize sum (by omega)).trans atOther
  · exact (layout.split_outside low high atStart lowSize highSize sum (Or.inr after)).trans atOther

/-- A split moves none of the blocks that are `kept`, the halves apart, if the old block
was not `kept`. -/
theorem split_iff (kept : State → Prop) (wasNot : ¬ kept found.state) {other : Int}
    {block : Block State} (isKept : kept block.state) (notLow : ¬ (other = start ∧ block = low))
    (notHigh : ¬ (other = start + low.size ∧ block = high)) :
    (layout.split start found atStart low high lowSize highSize sum).block other = some block ↔
      layout.block other = some block := by
  constructor
  · intro new
    rcases layout.split_cases low high atStart lowSize highSize sum new with
      isLow | isHigh | ⟨_, old⟩
    · exact absurd isLow notLow
    · exact absurd isHigh notHigh
    · exact old
  · intro old
    refine layout.split_old low high atStart lowSize highSize sum old ?_
    rintro rfl
    rw [atStart] at old
    cases old
    exact wasNot isKept

theorem split_with_state {kept : State} (wasNot : found.state ≠ kept) (lowNot : low.state ≠ kept)
    (highNot : high.state ≠ kept) (other : Int) :
    (∃ size, (layout.split start found atStart low high lowSize highSize sum).block other =
        some ⟨size, kept⟩) ↔
      ∃ size, layout.block other = some ⟨size, kept⟩ := by
  refine exists_congr ?_
  intro size
  refine layout.split_iff low high atStart lowSize highSize sum (fun state => state = kept)
    wasNot rfl ?_ ?_
  · rintro ⟨_, rfl⟩
    exact lowNot rfl
  · rintro ⟨_, rfl⟩
    exact highNot rfl

end Split

section Merge

variable {low high : Int} {first second : Block State} (atLow : layout.block low = some first)
  (atHigh : layout.block high = some second) (adjacent : low + first.size = high) (state : State)

theorem merge_low :
    (layout.merge low high first second atLow atHigh adjacent state).block low =
      some ⟨first.size + second.size, state⟩ := by
  rw [merge_block, if_pos rfl]

theorem merge_high :
    (layout.merge low high first second atLow atHigh adjacent state).block high = none := by
  have size := layout.nonempty low first atLow
  rw [merge_block, if_neg (by omega), if_pos rfl]

theorem merge_other {other : Int} (notLow : other ≠ low) (notHigh : other ≠ high) :
    (layout.merge low high first second atLow atHigh adjacent state).block other =
      layout.block other := by
  rw [merge_block, if_neg notLow, if_neg notHigh]

theorem merge_inside {other : Int} {block : Block State} (above : low ≤ other)
    (below : other < high + second.size)
    (atOther : (layout.merge low high first second atLow atHigh adjacent state).block other =
      some block) :
    other = low ∧ block = ⟨first.size + second.size, state⟩ := by
  rw [merge_block] at atOther
  split_ifs at atOther with isLow isHigh
  · exact ⟨isLow, (Option.some.inj atOther).symm⟩
  · by_cases lower : other < high
    · rw [layout.block_inside atLow (by omega) (by omega)] at atOther
      exact nomatch atOther
    · rw [layout.block_inside atHigh (by omega) below] at atOther
      exact nomatch atOther

end Merge

/-- No block starts inside a block or in unused units behind it. -/
theorem grow_empty {start : Int} {found : Block State}
    (atStart : layout.block start = some found) {more : Int}
    (unused : ∀ unit, start + found.size ≤ unit → unit < start + found.size + more →
      ¬ layout.Covers unit)
    {other : Int} (above : start < other) (below : other < start + found.size + more) :
    layout.block other = none := by
  cases atOther : layout.block other with
  | none => rfl
  | some block =>
      by_cases inside : other < start + found.size
      · rw [layout.block_inside atStart above inside] at atOther
        exact nomatch atOther
      · exact absurd (layout.covers_start atOther) (unused other (by omega) below)

section Grow

variable {start : Int} {found : Block State} (atStart : layout.block start = some found)
  {more : Int} (positive : 0 < more)
  (unused : ∀ unit, start + found.size ≤ unit → unit < start + found.size + more →
    ¬ layout.Covers unit)

theorem grow_self :
    (layout.grow start found atStart more positive unused).block start =
      some ⟨found.size + more, found.state⟩ := by
  rw [grow_block, if_pos rfl]

theorem grow_other {other : Int} (differ : other ≠ start) :
    (layout.grow start found atStart more positive unused).block other = layout.block other := by
  rw [grow_block, if_neg differ]

theorem grow_inside {other : Int} {block : Block State} (above : start ≤ other)
    (below : other < start + found.size + more)
    (atOther : (layout.grow start found atStart more positive unused).block other = some block) :
    other = start ∧ block = ⟨found.size + more, found.state⟩ := by
  rw [grow_block] at atOther
  split_ifs at atOther with same
  · exact ⟨same, (Option.some.inj atOther).symm⟩
  · rw [layout.grow_empty atStart unused (by omega) below] at atOther
    exact nomatch atOther

end Grow

end Lookup

section Covered

variable (layout : Layout State)

theorem covers_retag {start : Int} {found : Block State}
    (atStart : layout.block start = some found) (state : State) (unit : Int) :
    (layout.retag start found atStart state).Covers unit ↔ layout.Covers unit := by
  constructor
  · rintro ⟨other, block, atOther, low, high⟩
    rw [retag_block] at atOther
    split_ifs at atOther with same
    · cases atOther
      exact ⟨start, found, atStart, same ▸ low, same ▸ high⟩
    · exact ⟨other, block, atOther, low, high⟩
  · rintro ⟨other, block, atOther, low, high⟩
    by_cases same : other = start
    · subst same
      rw [atStart] at atOther
      cases atOther
      exact ⟨other, ⟨found.size, state⟩, by rw [retag_block, if_pos rfl], low, high⟩
    · exact ⟨other, block, by rw [retag_block, if_neg same, atOther], low, high⟩

theorem covers_split {start : Int} {found low high : Block State}
    (atStart : layout.block start = some found) (lowSize : 0 < low.size)
    (highSize : 0 < high.size) (sum : low.size + high.size = found.size) (unit : Int) :
    (layout.split start found atStart low high lowSize highSize sum).Covers unit ↔
      layout.Covers unit := by
  constructor
  · rintro ⟨other, block, atOther, above, below⟩
    rw [split_block] at atOther
    split_ifs at atOther with isLow isHigh
    · cases atOther
      exact ⟨start, found, atStart, by omega, by omega⟩
    · cases atOther
      exact ⟨start, found, atStart, by omega, by omega⟩
    · exact ⟨other, block, atOther, above, below⟩
  · rintro ⟨other, block, atOther, above, below⟩
    by_cases same : other = start
    · subst same
      rw [atStart] at atOther
      cases atOther
      -- the unit falls into the half it lies in
      by_cases lower : unit < other + low.size
      · exact ⟨other, low, by rw [split_block, if_pos rfl], above, lower⟩
      · exact ⟨other + low.size, high, by rw [split_block, if_neg (by omega), if_pos rfl],
          by omega, by omega⟩
    · have notHigh : other ≠ start + low.size := by
        intro isHigh
        have inside := layout.block_inside atStart (by omega : start < other) (by omega)
        rw [inside] at atOther
        exact nomatch atOther
      exact ⟨other, block, by rw [split_block, if_neg same, if_neg notHigh, atOther],
        above, below⟩

theorem covers_merge {low high : Int} {first second : Block State}
    (atLow : layout.block low = some first) (atHigh : layout.block high = some second)
    (adjacent : low + first.size = high) (state : State) (unit : Int) :
    (layout.merge low high first second atLow atHigh adjacent state).Covers unit ↔
      layout.Covers unit := by
  have lowSize := layout.nonempty low first atLow
  have highSize := layout.nonempty high second atHigh
  constructor
  · rintro ⟨other, block, atOther, above, below⟩
    rw [merge_block] at atOther
    split_ifs at atOther with isLow isHigh
    · cases atOther
      simp only at below
      by_cases lower : unit < high
      · exact ⟨low, first, atLow, by omega, by omega⟩
      · exact ⟨high, second, atHigh, by omega, by omega⟩
    · exact ⟨other, block, atOther, above, below⟩
  · have whole : (layout.merge low high first second atLow atHigh adjacent state).block low =
        some ⟨first.size + second.size, state⟩ := by
      rw [merge_block, if_pos rfl]
    rintro ⟨other, block, atOther, above, below⟩
    by_cases isLow : other = low
    · subst isLow
      rw [atLow] at atOther
      cases atOther
      exact ⟨other, _, whole, above, by simp only; omega⟩
    · by_cases isHigh : other = high
      · subst isHigh
        rw [atHigh] at atOther
        cases atOther
        exact ⟨low, _, whole, by omega, by simp only; omega⟩
      · exact ⟨other, block, by rw [merge_block, if_neg isLow, if_neg isHigh, atOther],
          above, below⟩

theorem covers_insert {start : Int} {added : Block State} (size : 0 < added.size)
    (unused : ∀ unit, start ≤ unit → unit < start + added.size → ¬ layout.Covers unit)
    (unit : Int) :
    (layout.insert start added size unused).Covers unit ↔
      layout.Covers unit ∨ (start ≤ unit ∧ unit < start + added.size) := by
  constructor
  · rintro ⟨other, block, atOther, low, high⟩
    rw [insert_block] at atOther
    split_ifs at atOther with same
    · cases atOther
      exact Or.inr ⟨same ▸ low, same ▸ high⟩
    · exact Or.inl ⟨other, block, atOther, low, high⟩
  · rintro (⟨other, block, atOther, low, high⟩ | ⟨low, high⟩)
    · have differ : other ≠ start := by
        rintro rfl
        exact unused other (le_refl other) (by omega) (layout.covers_start atOther)
      exact ⟨other, block, by rw [insert_block, if_neg differ, atOther], low, high⟩
    · exact ⟨start, added, by rw [insert_block, if_pos rfl], low, high⟩

theorem covers_grow {start : Int} {found : Block State}
    (atStart : layout.block start = some found) {more : Int} (positive : 0 < more)
    (unused : ∀ unit, start + found.size ≤ unit → unit < start + found.size + more →
      ¬ layout.Covers unit) (unit : Int) :
    (layout.grow start found atStart more positive unused).Covers unit ↔
      layout.Covers unit ∨
        (start + found.size ≤ unit ∧ unit < start + found.size + more) := by
  have size := layout.nonempty start found atStart
  constructor
  · rintro ⟨other, block, atOther, low, high⟩
    rw [grow_block] at atOther
    split_ifs at atOther with same
    · cases atOther
      dsimp only at high
      by_cases old : unit < start + found.size
      · exact Or.inl ⟨start, found, atStart, same ▸ low, old⟩
      · exact Or.inr (by omega)
    · exact Or.inl ⟨other, block, atOther, low, high⟩
  · rintro (⟨other, block, atOther, low, high⟩ | ⟨low, high⟩)
    · by_cases same : other = start
      · subst same
        rw [atStart] at atOther
        cases atOther
        exact ⟨other, _, by rw [grow_block, if_pos rfl], low, by dsimp only; omega⟩
      · exact ⟨other, block, by rw [grow_block, if_neg same, atOther], low, high⟩
    · exact ⟨start, _, by rw [grow_block, if_pos rfl], by omega, by dsimp only; omega⟩

end Covered

end Layout

end Sac2c.Blocks
