import Sac2c.LargeMachine
import Sac2c.LargeRequests

/-!
The large-chunk arenas 5, 6 and 7. Their memory comes in bins of equal size,
the last unit of which holds the boundary tag of the last chunk; there is no
wilderness, so `arena->wilderness` is the dummy entry of the free list. Every
request of the size class is served, if need be from a new bin, and the blocks
of a bin stay chunks and that last unit.
-/

namespace Sac2c.LargeArenas

open Headers LargeChunks Blocks Links BoundaryTags FreeList FreeListWalks LargeMachine
open LargeRequests Trace

/-- An arena set up by SAC_HM_SetupWorkers with one of the numbers 5 to 7. -/
structure IsLarge (arena : Arena) : Prop where
  kind : arena.num = 5 ∨ arena.num = 6 ∨ arena.num = 7
  binsize : arena.binsize = Arenas.arenaBinsize arena.num
  least : arena.minChunkSize = Arenas.arenaMincs arena.num
  aligned : arena.self % 2 = 0

/-- The requests of the arena's size class, header units included. -/
def Fits (arena : Arena) (units : Int) : Prop :=
  Arenas.arenaMincs arena.num ≤ units ∧ units < Arenas.arenaMincs (arena.num + 1)

/-- SAC_HM_AllocateNewBinInArenaOfArenas answers with memory not in use here. -/
def FreshBin (arena : Arena) (heap : Heap) (_ : Int) (supply : Supply) : Prop :=
  0 < supply.bin ∧ ∀ unit, supply.bin ≤ unit → unit < supply.bin + arena.binsize →
    ¬ InArena arena heap.obtained unit

/-- No bin yet and nothing but the dummy entry on the free list. -/
structure DummyOnly (arena : Arena) (state : State) : Prop where
  placed : 0 < arena.freelist
  size : state.heap.largechunkSize arena.freelist = 0
  prevsize : state.heap.largechunkPrevsize arena.freelist = -1
  nextfree : state.heap.largechunkNextfree arena.freelist = 0
  wilderness : state.heap.wilderness arena.num = arena.freelist
  written : state.heap.written = []
  obtained : state.heap.obtained = []
  live : state.live = []

theorem IsLarge.min {arena : Arena} (large : IsLarge arena) : 3 ≤ arena.minChunkSize := by
  rw [large.least]
  rcases large.kind with num | num | num <;> rw [num] <;> decide

theorem sizes_fit {arena : Arena} (large : IsLarge arena) {units : Int}
    (fits : Fits arena units) : 3 ≤ units ∧ units + 3 ≤ arena.binsize - 1 := by
  obtain ⟨low, high⟩ := fits
  rw [large.binsize]
  rcases large.kind with num | num | num <;>
    (rw [num] at low high ⊢
     simp only [Arenas.arenaMincs, Arenas.arenaBinsize] at low high ⊢
     omega)

/-- Besides the dummy, blocks are chunks and the last units of bins. -/
structure Binned (arena : Arena) (heap : Heap) (layout : Layout Status) : Prop where
  spans : Spans arena heap.obtained layout
  sizes : ∀ bin, bin ∈ heap.obtained → bin.2 = arena.binsize
  apart : ∀ low high, low ∈ heap.obtained → high ∈ heap.obtained → low.1 < high.1 →
    low.1 + arena.binsize ≤ high.1
  dummyApart : ∀ bin, bin ∈ heap.obtained →
    arena.freelist + 3 ≤ bin.1 ∨ bin.1 + arena.binsize ≤ arena.freelist
  stops : ∀ bin, bin ∈ heap.obtained →
    layout.block (bin.1 + arena.binsize - 1) = some ⟨1, .stop⟩
  states : ∀ start block, layout.block start = some block → block.state.IsClosed ∨
    (block.state = .stop ∧ ∃ bin, bin ∈ heap.obtained ∧ start = bin.1 + arena.binsize - 1) ∨
    (block.state = .dummy ∧ start = arena.freelist)
  wilderness : heap.wilderness arena.num = arena.freelist

section Binning

variable {arena : Arena} {heap : Heap} {layout : Layout Status} {chain : List Int} {units : Int}

theorem binned_rearranged (binned : Binned arena heap layout) {after : Heap}
    {renewed : Layout Status} (rearranges : Rearranges layout renewed)
    (records : SameRecords heap after) : Binned arena after renewed := by
  obtain ⟨obtained, _, wilderness⟩ := records
  constructor
  case spans =>
    rw [obtained]
    exact spans_rearranged binned.spans rearranges
  case sizes =>
    rw [obtained]
    exact binned.sizes
  case apart =>
    rw [obtained]
    exact binned.apart
  case dummyApart =>
    rw [obtained]
    exact binned.dummyApart
  case stops =>
    intro bin member
    rw [obtained] at member
    refine (rearranges.fixed _ _ ?_).mpr (binned.stops bin member)
    decide
  case states =>
    intro start block atStart
    rw [obtained]
    by_cases isClosed : block.state.IsClosed
    · exact Or.inl isClosed
    · exact binned.states start block ((rearranges.fixed start block isClosed).mp atStart)
  case wilderness =>
    rw [wilderness]
    exact binned.wilderness

theorem binned_stable (arena : Arena) : Stable (Binned arena) :=
  fun _ _ _ _ binned rearranges records => binned_rearranged binned rearranges records

theorem binned_not_retired (binned : Binned arena heap layout) (header : Int)
    (chunk : Block Status) (atHeader : layout.block header = some chunk)
    (isRetired : chunk.state = .retired) : header ∈ ([] : List Int) := by
  rcases binned.states header chunk atHeader with (isLive | isFree) | ⟨isStop, _⟩ | ⟨isDummy, _⟩
  · rw [isRetired] at isLive
    exact nomatch isLive
  · rw [isRetired] at isFree
    exact nomatch isFree
  · rw [isRetired] at isStop
    exact nomatch isStop
  · rw [isRetired] at isDummy
    exact nomatch isDummy

end Binning

section NewBin

variable {layout : Layout Status} {bin size : Int} (wide : 3 ≤ size - 1)
  (unused : ∀ unit, bin ≤ unit → unit < bin + size → ¬ layout.Covers unit)

/-- The chunk of a new bin, which no tag follows yet. -/
def withChunk : Layout Status :=
  layout.insert bin ⟨size - 1, .retired⟩ (lt_of_lt_of_le (by decide) wide)
    (fun unit above below => unused unit above (lt_of_lt_of_le below (by dsimp only; omega)))

theorem with_chunk_covers (unit : Int) :
    (withChunk wide unused).Covers unit ↔
      layout.Covers unit ∨ (bin ≤ unit ∧ unit < bin + (size - 1)) :=
  layout.covers_insert _ _ unit

theorem last_unit_unused (unit : Int) (above : bin + (size - 1) ≤ unit)
    (below : unit < bin + (size - 1) + 1) : ¬ (withChunk wide unused).Covers unit := by
  intro covered
  rcases (with_chunk_covers wide unused unit).mp covered with old | inside
  · exact unused unit (by omega) (by omega) old
  · omega

/-- A new bin: its chunk and the unit behind. -/
def withBin : Layout Status :=
  (withChunk wide unused).insert (bin + (size - 1)) ⟨1, .stop⟩ (by decide)
    (last_unit_unused wide unused)

theorem with_bin_chunk : (withBin wide unused).block bin = some ⟨size - 1, .retired⟩ := by
  rw [withBin, Layout.insert_block, if_neg (by omega), withChunk, Layout.insert_block, if_pos rfl]

theorem with_bin_stop : (withBin wide unused).block (bin + (size - 1)) = some ⟨1, .stop⟩ := by
  rw [withBin, Layout.insert_block, if_pos rfl]

theorem with_bin_other {start : Int} (out : start < bin ∨ bin + size ≤ start) :
    (withBin wide unused).block start = layout.block start := by
  rw [withBin, Layout.insert_block, if_neg (by omega), withChunk, Layout.insert_block,
    if_neg (by omega)]

/-- In the new bin only the chunk and the last unit are starts. -/
theorem with_bin_inside {start : Int} {block : Block Status} (above : bin ≤ start)
    (below : start < bin + size) (atStart : (withBin wide unused).block start = some block) :
    (start = bin ∧ block = ⟨size - 1, .retired⟩) ∨
      (start = bin + (size - 1) ∧ block = ⟨1, .stop⟩) := by
  rw [withBin, Layout.insert_block] at atStart
  split_ifs at atStart with isStop
  · exact Or.inr ⟨isStop, (Option.some.inj atStart).symm⟩
  · rw [withChunk, Layout.insert_block] at atStart
    split_ifs at atStart with isBin
    · exact Or.inl ⟨isBin, (Option.some.inj atStart).symm⟩
    · exact absurd (layout.covers_start atStart) (unused start above below)

theorem with_bin_covers (unit : Int) :
    (withBin wide unused).Covers unit ↔
      layout.Covers unit ∨ (bin ≤ unit ∧ unit < bin + size) := by
  rw [withBin, Layout.covers_insert, with_chunk_covers, or_assoc]
  dsimp only
  constructor
  · rintro (old | inside | last)
    · exact Or.inl old
    · exact Or.inr (by omega)
    · exact Or.inr (by omega)
  · rintro (old | inside)
    · exact Or.inl old
    · exact Or.inr (by omega)

theorem with_bin_keeps_live : KeepsLive layout (withBin wide unused) := by
  intro start block isLive
  by_cases out : start < bin ∨ bin + size ≤ start
  · rw [with_bin_other wide unused out]
  · constructor
    · intro atNew
      rcases with_bin_inside wide unused (by omega) (by omega) atNew with ⟨_, rfl⟩ | ⟨_, rfl⟩
      · exact nomatch isLive
      · exact nomatch isLive
    · intro atOld
      exact absurd (layout.covers_start atOld) (unused start (by omega) (by omega))

end NewBin

section Extension

variable {arena : Arena} {heap : Heap} {layout : Layout Status} {chain : List Int} {units : Int}
  {supply : Supply}

theorem covered_apart {size : Int}
    (unused : ∀ unit, supply.bin ≤ unit → unit < supply.bin + size → ¬ layout.Covers unit)
    {unit : Int} (covered : layout.Covers unit) :
    unit < supply.bin ∨ supply.bin + size ≤ unit := by
  by_contra inside
  exact unused unit (by omega) (by omega) covered

/-- A bin lies wholly on one side of the new one: its last unit is covered, and so is its
first. -/
theorem bins_apart (binned : Binned arena heap layout) (positive : 0 < arena.binsize)
    (unused : ∀ unit, supply.bin ≤ unit → unit < supply.bin + arena.binsize →
      ¬ layout.Covers unit) :
    ∀ bin, bin ∈ heap.obtained →
      bin.1 + arena.binsize ≤ supply.bin ∨ supply.bin + arena.binsize ≤ bin.1 := by
  intro bin member
  have size := binned.sizes bin member
  have within : ∀ unit, bin.1 ≤ unit → unit < bin.1 + arena.binsize → layout.Covers unit :=
    fun unit above below => (binned.spans unit).mpr (Or.inl ⟨bin, member, above, by omega⟩)
  have first := covered_apart unused (within bin.1 (le_refl _) (by omega))
  have last := covered_apart unused (within (bin.1 + arena.binsize - 1) (by omega) (by omega))
  rcases first with low | high
  · rcases last with lastLow | lastHigh
    · exact Or.inl (by omega)
    · have middle := covered_apart unused (within supply.bin (le_of_lt low) (by omega))
      omega
  · exact Or.inr high

/-- What `newBin` writes, when the dummy entry lies elsewhere. -/
theorem new_bin_writes (clear : arena.freelist + 2 ≠ supply.bin + 1) :
    newBin arena supply heap = (((((heap.obtain supply.bin arena.binsize).setLargechunkSize
      supply.bin (arena.binsize - 1)).setLargechunkPrevsize supply.bin (-1)).setLargechunkArena
      supply.bin arena.self).setLargechunkNextfree supply.bin
      (heap.largechunkNextfree arena.freelist)).setLargechunkNextfree arena.freelist
      supply.bin := by
  simp only [newBin, Heap.nextfree_set_arena, Heap.nextfree_set_prevsize,
    Heap.nextfree_set_size, Heap.nextfree_obtain]
  rw [if_neg clear]

/-- The header of the bin's chunk lies in memory no block covered before. -/
theorem tagged_with_bin (tagged : Tagged arena heap layout) (positive : 0 < supply.bin)
    (wide : 3 ≤ arena.binsize - 1)
    (unused : ∀ unit, supply.bin ≤ unit → unit < supply.bin + arena.binsize →
      ¬ layout.Covers unit) :
    Tagged arena (((((heap.obtain supply.bin arena.binsize).setLargechunkSize
      supply.bin (arena.binsize - 1)).setLargechunkPrevsize supply.bin (-1)).setLargechunkArena
      supply.bin arena.self).setLargechunkNextfree supply.bin
      (heap.largechunkNextfree arena.freelist)) (withBin wide unused) := by
  have headed : Tagged arena (((((heap.obtain supply.bin arena.binsize).setLargechunkSize
      supply.bin (arena.binsize - 1)).setLargechunkPrevsize supply.bin (-1)).setLargechunkArena
      supply.bin arena.self).setLargechunkNextfree supply.bin
      (heap.largechunkNextfree arena.freelist)) (withChunk wide unused) := by
    refine tagged_insert tagged _ _ positive ?_ nofun ?_ ?_ ?_
    · exact retired_not_closed
    · intro unit covered
      have clear := covered_apart unused covered
      simp only [Heap.first_set_nextfree, Heap.first_set_arena, Heap.first_set_prevsize,
        Heap.first_set_size]
      rw [if_neg (by omega), if_neg (by omega)]
      rfl
    · intro unit covered
      have clear := covered_apart unused covered
      simp only [Heap.second_set_nextfree, Heap.second_set_arena, Heap.second_set_prevsize,
        Heap.second_set_size]
      rw [if_neg (by omega), if_neg (by omega)]
      rfl
    · intro _
      refine ⟨wide, ?_, ?_⟩
      · rw [Heap.size_set_nextfree, Heap.size_set_arena, Heap.size_set_prevsize,
          Heap.size_set_size, if_neg (by omega), if_pos rfl]
      · rw [Heap.prevsize_set_nextfree, Heap.prevsize_set_arena, Heap.prevsize_set_prevsize,
          if_pos rfl]
  refine tagged_insert headed _ _ (by omega) ?_ nofun (fun _ _ => rfl) (fun _ _ => rfl) ?_
  · exact fun isClosed => stop_not_chunk (Or.inl isClosed)
  · exact fun isChunk => absurd isChunk stop_not_chunk

/-- The new bin stands on top of the free list. -/
theorem new_bin_sound (sound : Sound arena heap layout chain) (positive : 0 < supply.bin)
    (wide : 3 ≤ arena.binsize - 1)
    (unused : ∀ unit, supply.bin ≤ unit → unit < supply.bin + arena.binsize →
      ¬ layout.Covers unit) :
    Sound arena (newBin arena supply heap) (withBin wide unused) (supply.bin :: chain) ∧
      (newBin arena supply heap).largechunkArena supply.bin = arena.self := by
  have dummyStart := covered_apart unused (layout.covers_start sound.tagged.dummy)
  have dummyLink := covered_apart unused
    (covers_header sound.tagged.dummy (le_refl 3) 2 (by decide) (by decide))
  have atBin := with_bin_chunk wide unused
  have headed := tagged_with_bin sound.tagged positive wide unused
  rw [new_bin_writes (by omega)]
  refine ⟨⟨tagged_set_nextfree headed headed.dummy (le_refl 3) _, ⟨?_, ?_, ?_⟩, ?_⟩, ?_⟩
  · refine linked_push sound.listed.linked (by omega) ?_ ?_ ?_
    · rw [Heap.nextfree_set_nextfree, if_pos rfl]
    · rw [Heap.nextfree_set_nextfree, if_neg (by omega), Heap.nextfree_set_nextfree, if_pos rfl]
    · intro entry member
      obtain ⟨block, atEntry, entryWide⟩ := sound.entry (Or.inr member)
      have clear := covered_apart unused (layout.covers_start atEntry)
      have linkClear := covered_apart unused
        (covers_header atEntry entryWide 2 (by decide) (by decide))
      have notDummy : entry ≠ arena.freelist := fun same => sound.dummy_unlisted (same ▸ member)
      simp only [Heap.nextfree_set_nextfree, Heap.nextfree_set_arena, Heap.nextfree_set_prevsize,
        Heap.nextfree_set_size, Heap.nextfree_obtain]
      rw [if_neg notDummy, if_neg (by omega), if_neg (by omega)]
  · refine List.nodup_cons.mpr ⟨?_, sound.listed.distinct⟩
    intro member
    obtain ⟨block, atEntry, _⟩ := sound.entry (Or.inr member)
    have clear := covered_apart unused (layout.covers_start atEntry)
    omega
  · intro header
    rw [List.mem_cons, sound.listed.listed]
    constructor
    · rintro (rfl | ⟨chunk, atHeader, isListed⟩)
      · exact ⟨_, atBin, Or.inr rfl⟩
      · have clear := covered_apart unused (layout.covers_start atHeader)
        exact ⟨chunk, (with_bin_other wide unused clear).trans atHeader, isListed⟩
    · rintro ⟨chunk, atHeader, isListed⟩
      by_cases out : header < supply.bin ∨ supply.bin + arena.binsize ≤ header
      · exact Or.inr ⟨chunk, (with_bin_other wide unused out).symm.trans atHeader, isListed⟩
      · rcases with_bin_inside wide unused (by omega) (by omega) atHeader with
          ⟨isBin, _⟩ | ⟨_, rfl⟩
        · exact Or.inl isBin
        · exact absurd isListed (by decide)
  · intro unit written
    rw [with_bin_covers]
    simp only [Heap.written_set_nextfree, Heap.written_set_arena, Heap.written_set_prevsize,
      Heap.written_set_size, Heap.written_obtain, List.mem_cons] at written
    rcases written with rfl | rfl | rfl | rfl | rfl | old
    · exact Or.inl (header_covered sound.tagged.dummy (le_refl 3) (by omega) (by omega))
    · exact Or.inr (by omega)
    · exact Or.inr (by omega)
    · exact Or.inr (by omega)
    · exact Or.inr (by omega)
    · exact Or.inl (sound.inside unit old)
  · rw [Heap.arena_set_nextfree, if_neg (by omega), Heap.arena_set_nextfree, if_neg (by omega),
      Heap.arena_set_arena, if_pos rfl]

end Extension

section Malloc

variable {arena : Arena} {heap : Heap} {layout : Layout Status} {chain : List Int} {units : Int}
  {supply : Supply}

/-- No chunk of the arena lies in a new bin. -/
theorem fresh_unused (binned : Binned arena heap layout) (fresh : FreshBin arena heap units supply)
    (unit : Int) (above : supply.bin ≤ unit) (below : unit < supply.bin + arena.binsize) :
    ¬ layout.Covers unit :=
  fun covered => fresh.2 unit above below ((binned.spans unit).mp covered)

/-- An arena is binned with one more bin, if that is made of chunks and its last unit. -/
theorem binned_extended (binned : Binned arena heap layout) (positive : 0 < arena.binsize)
    (unused : ∀ unit, supply.bin ≤ unit → unit < supply.bin + arena.binsize →
      ¬ layout.Covers unit)
    (dummyApart : arena.freelist + 3 ≤ supply.bin ∨ supply.bin + arena.binsize ≤ arena.freelist)
    {after : Heap} {renewed : Layout Status}
    (obtained : after.obtained = (supply.bin, arena.binsize) :: heap.obtained)
    (wilderness : after.wilderness = heap.wilderness)
    (covers : ∀ unit, renewed.Covers unit ↔
      layout.Covers unit ∨ (supply.bin ≤ unit ∧ unit < supply.bin + arena.binsize))
    (elsewhere : ∀ start, start < supply.bin ∨ supply.bin + arena.binsize ≤ start →
      renewed.block start = layout.block start)
    (atStop : renewed.block (supply.bin + (arena.binsize - 1)) = some ⟨1, .stop⟩)
    (inside : ∀ start block, supply.bin ≤ start → start < supply.bin + (arena.binsize - 1) →
      renewed.block start = some block → block.state.IsClosed) : Binned arena after renewed := by
  have binApart := bins_apart binned positive unused
  constructor
  case spans =>
    intro unit
    rw [covers, binned.spans, obtained, in_arena_cons]
  case sizes =>
    rw [obtained]
    intro bin member
    rcases List.mem_cons.mp member with rfl | old
    · rfl
    · exact binned.sizes bin old
  case apart =>
    rw [obtained]
    intro low high atLow atHigh below
    rcases List.mem_cons.mp atLow with rfl | oldLow
    · rcases List.mem_cons.mp atHigh with rfl | oldHigh
      · omega
      · have sides := binApart high oldHigh
        dsimp only at below ⊢
        omega
    · rcases List.mem_cons.mp atHigh with rfl | oldHigh
      · have sides := binApart low oldLow
        dsimp only at below ⊢
        omega
      · exact binned.apart low high oldLow oldHigh below
  case dummyApart =>
    rw [obtained]
    intro bin member
    rcases List.mem_cons.mp member with rfl | old
    · exact dummyApart
    · exact binned.dummyApart bin old
  case stops =>
    rw [obtained]
    intro bin member
    rcases List.mem_cons.mp member with rfl | old
    · rw [← atStop]
      congr 1
      dsimp only
      omega
    · have atOld := binned.stops bin old
      have apart := covered_apart unused (layout.covers_start atOld)
      rw [elsewhere _ apart]
      exact atOld
  case states =>
    intro start block atStart
    rw [obtained]
    -- outside the new bin the old blocks stand, inside only its chunks and its last unit
    by_cases out : start < supply.bin ∨ supply.bin + arena.binsize ≤ start
    · rw [elsewhere start out] at atStart
      rcases binned.states start block atStart with isClosed | ⟨isStop, bin, member, last⟩ | isDummy
      · exact Or.inl isClosed
      · exact Or.inr (Or.inl ⟨isStop, bin, List.mem_cons_of_mem _ member, last⟩)
      · exact Or.inr (Or.inr isDummy)
    · by_cases last : start = supply.bin + (arena.binsize - 1)
      · subst last
        rw [atStop] at atStart
        cases atStart
        refine Or.inr (Or.inl ⟨rfl, _, List.mem_cons_self .., ?_⟩)
        dsimp only
        omega
      · exact Or.inl (inside start block (by omega) (by omega) atStart)
  case wilderness =>
    rw [wilderness]
    exact binned.wilderness

/-- The request is cut from the top of a new bin. -/
theorem new_bin_delivers (sound : Sound arena heap layout chain)
    (binned : Binned arena heap layout) (wide : 3 ≤ units)
    (room : units + 3 ≤ arena.binsize - 1) (fresh : FreshBin arena heap units supply) :
    Delivers (Binned arena) arena units layout
      (split arena units (newBin arena supply heap) supply.bin) := by
  have chunkWide : 3 ≤ arena.binsize - 1 := by omega
  have unused := fresh_unused binned fresh
  obtain ⟨soundBin, owned⟩ := new_bin_sound sound fresh.1 chunkWide unused
  obtain ⟨renewed, soundNew, covers, outside, inside, serves, records⟩ :=
    split_hands_out soundBin (with_bin_chunk chunkWide unused) (Or.inr rfl) owned wide
      (by dsimp only; omega) (with_bin_stop chunkWide unused) nofun
  have dummyFirst := covered_apart unused (layout.covers_start sound.tagged.dummy)
  have dummyMiddle := covered_apart unused
    (covers_header sound.tagged.dummy (le_refl 3) 1 (by decide) (by decide))
  have dummyLast := covered_apart unused
    (covers_header sound.tagged.dummy (le_refl 3) 2 (by decide) (by decide))
  refine ⟨renewed, supply.bin :: chain, soundNew, ?_,
    (with_bin_keeps_live chunkWide unused).serves serves⟩
  refine binned_extended binned (by omega) unused (by omega) records.1 records.2.2 ?_ ?_ ?_ ?_
  · intro unit
    rw [covers, with_bin_covers]
  · intro start out
    rw [outside start (by dsimp only; omega)]
    exact with_bin_other chunkWide unused out
  · rw [outside _ (Or.inr (le_refl _))]
    exact with_bin_stop chunkWide unused
  · intro start block above below atStart
    exact inside start block above below atStart

/-- Without a wilderness there is nothing left to coalesce and a new bin is needed. -/
theorem after_coalescing_extends (large : IsLarge arena) (sound : Sound arena heap layout chain)
    (binned : Binned arena heap layout) (fuel : Nat) :
    afterCoalescing arena supply fuel units heap =
      some (split arena units (newBin arena supply heap) supply.bin) := by
  have noTag : ¬ heap.largechunkPrevsize (heap.wilderness arena.num) > 0 := by
    rw [binned.wilderness, sound.tagged.idle.2]
    decide
  have notTop : arena.num ≠ Arenas.topArena := by
    rcases large.kind with num | num | num <;> rw [num] <;> decide
  simp only [afterCoalescing, if_neg noTag, extendArena, if_neg notTop]

theorem after_coalescing_outcome (large : IsLarge arena) (sound : Sound arena heap layout chain)
    (binned : Binned arena heap layout) (wide : 3 ≤ units) (room : units + 3 ≤ arena.binsize - 1)
    (fresh : FreshBin arena heap units supply) (fuel : Nat) (enough : Prop) :
    Outcome (Delivers (Binned arena) arena units layout) enough False
      (afterCoalescing arena supply fuel units heap) := by
  rw [after_coalescing_extends large sound binned]
  exact new_bin_delivers sound binned wide room fresh

/-- A request that a bin has room for is served as soon as the loops have fuel for the
free list. -/
theorem large_malloc_outcome (large : IsLarge arena) (sound : Sound arena heap layout chain)
    (binned : Binned arena heap layout) (wide : 3 ≤ units) (room : units + 3 ≤ arena.binsize - 1)
    (fresh : FreshBin arena heap units supply) (fuel : Nat) :
    Outcome (Delivers (Binned arena) arena units layout) (chain.length < fuel) False
      (mallocLargeChunk arena supply fuel units heap) := by
  have min := large.min
  have retired := binned_not_retired binned
  have noWilderness : ¬ heap.largechunkSize (heap.wilderness arena.num) ≥ units + 3 := by
    rw [binned.wilderness, sound.tagged.idle.1]
    omega
  refine malloc_outcome (binned_stable arena) sound binned wide min retired ?_ ?_
  · intro found _
    cases found <;> exact List.not_mem_nil
  · intro _
    refine after_search_outcome (binned_stable arena) sound binned wide min retired
      (fun room => absurd room noWilderness)
      (fun _ => coalescing_avoids_none units fuel heap _ _) ?_
    intro after renewed nodes _ _ soundAfter binnedAfter _ records
    have freshAfter : FreshBin arena after units supply := by
      rw [FreshBin, records.1]
      exact fresh
    exact after_coalescing_outcome large soundAfter binnedAfter wide room freshAfter fuel _

end Malloc

end Sac2c.LargeArenas
