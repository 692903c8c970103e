import Sac2c.FreeListWalks
import Sac2c.Trace

/-!
One arena of large chunks in use: the program asks for chunks, gives them back
and writes into those it holds, in any order. Which requests come and what the
callees answer are parameters of the step relation.
-/

namespace Sac2c.LargeMachine

open Headers LargeChunks Blocks Links BoundaryTags FreeList FreeListWalks

/-- `live` has the header of each chunk handed out and the units asked for. -/
structure State where
  heap : Heap
  live : List (Int × Int)

def State.headers (state : State) : List Int := state.live.map Prod.fst

inductive Label where
  | malloc (units : Int) (supply : Supply) (pointer : Int)
  | free (pointer : Int)
  | store

/-- The units of a chunk behind its two header units. -/
def InPayload (state : State) (unit : Int) : Prop :=
  ∃ header, header ∈ state.headers ∧ header + 2 ≤ unit ∧
    unit < header + state.heap.largechunkSize header

/-- The memory of the arena: what it obtained, and its dummy entry. -/
def InArena (arena : Arena) (obtained : List (Int × Int)) (unit : Int) : Prop :=
  (∃ segment, segment ∈ obtained ∧ segment.1 ≤ unit ∧ unit < segment.1 + segment.2) ∨
    (arena.freelist ≤ unit ∧ unit < arena.freelist + 3)

theorem in_arena_cons (arena : Arena) (segment : Int × Int) (obtained : List (Int × Int))
    (unit : Int) : InArena arena (segment :: obtained) unit ↔
      InArena arena obtained unit ∨ (segment.1 ≤ unit ∧ unit < segment.1 + segment.2) := by
  constructor
  · rintro (⟨other, member, inside⟩ | dummy)
    · rcases List.mem_cons.mp member with rfl | old
      · exact Or.inr inside
      · exact Or.inl (Or.inl ⟨other, old, inside⟩)
    · exact Or.inl (Or.inr dummy)
  · rintro ((⟨other, member, inside⟩ | dummy) | inside)
    · exact Or.inl ⟨other, List.mem_cons_of_mem segment member, inside⟩
    · exact Or.inr dummy
    · exact Or.inl ⟨segment, List.mem_cons_self .., inside⟩

inductive Step (arena : Arena) (arenaAt : Int → Arena) (request : Int → Prop)
    (supplies : Heap → Int → Supply → Prop) : State → Label → State → Prop where
  | malloc (state : State) (units pointer : Int) (supply : Supply) (fuel : Nat) (after : Heap) :
      request units → supplies state.heap units supply →
      mallocLargeChunk arena supply fuel units state.heap = some (pointer, after) →
      Step arena arenaAt request supplies state (.malloc units supply pointer)
        ⟨after, (pointer - 2, units) :: state.live⟩
  | free (state : State) (pointer : Int) : pointer - 2 ∈ state.headers →
      Step arena arenaAt request supplies state (.free pointer)
        ⟨freeLargeChunk arenaAt arena state.heap pointer,
          state.live.filter (fun entry => entry.1 ≠ pointer - 2)⟩
  | store (state : State) (first second : Int → Int) :
      (∀ unit, InArena arena state.heap.obtained unit → ¬ InPayload state unit →
        first unit = state.heap.first unit ∧ second unit = state.heap.second unit) →
      Step arena arenaAt request supplies state .store
        ⟨{ state.heap with first := first, second := second }, state.live⟩

/-- The layout covers exactly the memory of the arena. -/
def Spans (arena : Arena) (obtained : List (Int × Int)) (layout : Layout Status) : Prop :=
  ∀ unit, layout.Covers unit ↔ InArena arena obtained unit

/-- The chunks the program holds are the live ones. -/
structure Owns (live : List (Int × Int)) (layout : Layout Status) : Prop where
  headers : ∀ header, header ∈ live.map Prod.fst ↔
    ∃ chunk, layout.block header = some chunk ∧ chunk.state = .live
  distinct : (live.map Prod.fst).Nodup
  large : ∀ entry, entry ∈ live → ∀ chunk, layout.block entry.1 = some chunk →
    entry.2 ≤ chunk.size

section Ownership

variable {before after : Layout Status} {live : List (Int × Int)}

theorem owns_served (owns : Owns live before) {header units : Int}
    (serves : Serves before after header units) : Owns ((header, units) :: live) after := by
  have absent : header ∉ live.map Prod.fst := by
    intro held
    obtain ⟨chunk, atHeader, isLive⟩ := (owns.headers header).mp held
    exact serves.fresh chunk atHeader isLive
  obtain ⟨served, atServed, servedLive, fits⟩ := serves.served
  refine ⟨?_, List.nodup_cons.mpr ⟨absent, owns.distinct⟩, ?_⟩
  · intro other
    rw [List.map_cons, List.mem_cons, owns.headers]
    constructor
    · rintro (rfl | ⟨chunk, atOther, isLive⟩)
      · exact ⟨served, atServed, servedLive⟩
      · have differ : other ≠ header := by
          rintro rfl
          exact serves.fresh chunk atOther isLive
        exact ⟨chunk, (serves.others other chunk differ isLive).mpr atOther, isLive⟩
    · rintro ⟨chunk, atOther, isLive⟩
      by_cases same : other = header
      · exact Or.inl same
      · exact Or.inr ⟨chunk, (serves.others other chunk same isLive).mp atOther, isLive⟩
  · intro entry held chunk atEntry
    rcases List.mem_cons.mp held with rfl | earlier
    · rw [atServed] at atEntry
      cases atEntry
      exact fits
    · have member := List.mem_map_of_mem (f := Prod.fst) earlier
      obtain ⟨old, atOld, isLive⟩ := (owns.headers entry.1).mp member
      have differ : entry.1 ≠ header := fun same => absent (same ▸ member)
      have atNew := (serves.others entry.1 old differ isLive).mpr atOld
      rw [atNew] at atEntry
      cases atEntry
      exact owns.large entry earlier _ atOld

theorem owns_freed (owns : Owns live before) {header : Int} {chunk : Block Status}
    (atHeader : before.block header = some chunk) :
    Owns (live.filter (fun entry => entry.1 ≠ header))
      (before.retag header chunk atHeader .free) where
  headers := by
    intro other
    have filtered : other ∈ (live.filter (fun entry => entry.1 ≠ header)).map Prod.fst ↔
        other ∈ live.map Prod.fst ∧ other ≠ header := by
      simp only [List.mem_map, List.mem_filter, decide_eq_true_eq]
      constructor
      · rintro ⟨entry, ⟨held, differ⟩, rfl⟩
        exact ⟨⟨entry, held, rfl⟩, differ⟩
      · rintro ⟨⟨entry, held, rfl⟩, differ⟩
        exact ⟨entry, ⟨held, differ⟩, rfl⟩
    rw [filtered, owns.headers]
    by_cases same : other = header
    · subst same
      simp [before.retag_self]
    · simp [before.retag_other atHeader .free same, same]
  distinct := owns.distinct.sublist (List.filter_sublist.map Prod.fst)
  large := by
    intro entry held other atEntry
    obtain ⟨earlier, differ⟩ := List.mem_filter.mp held
    rw [before.retag_other atHeader .free (of_decide_eq_true differ)] at atEntry
    exact owns.large entry earlier other atEntry

end Ownership

section Invariance

variable {arena : Arena} {state : State} {layout : Layout Status} {chain : List Int}

theorem spans_rearranged {renewed : Layout Status} {obtained : List (Int × Int)}
    (spans : Spans arena obtained layout) (rearranges : Rearranges layout renewed) :
    Spans arena obtained renewed :=
  fun unit => (rearranges.covers unit).trans (spans unit)

/-- Header words and links lie outside the payload of live chunks. -/
theorem sound_store (sound : Sound arena state.heap layout chain)
    (spans : Spans arena state.heap.obtained layout) (owns : Owns state.live layout)
    {first second : Int → Int}
    (kept : ∀ unit, InArena arena state.heap.obtained unit → ¬ InPayload state unit →
      first unit = state.heap.first unit ∧ second unit = state.heap.second unit) :
    Sound arena { state.heap with first := first, second := second } layout chain := by
  -- a unit of a block is payload only if that block is live and it lies past the header
  have clear : ∀ header block unit, layout.block header = some block → header ≤ unit →
      unit < header + block.size → (unit < header + 2 ∨ block.state ≠ .live) →
      first unit = state.heap.first unit ∧ second unit = state.heap.second unit := by
    intro header block unit atHeader above below aside
    refine kept unit ((spans unit).mp ⟨header, block, atHeader, above, below⟩) ?_
    rintro ⟨other, held, past, inside⟩
    obtain ⟨chunk, atOther, isLive⟩ := (owns.headers other).mp held
    have sized := (sound.tagged.sized other chunk atOther (Or.inl (Or.inl isLive))).2
    have same : other = header :=
      layout.block_unique atOther atHeader ⟨by omega, by omega⟩ ⟨above, below⟩
    subst same
    rw [atHeader] at atOther
    cases atOther
    rcases aside with early | notLive
    · omega
    · exact notLive isLive
  have startKept : ∀ header block, layout.block header = some block →
      first header = state.heap.first header :=
    fun header block atHeader =>
      have size := layout.nonempty header block atHeader
      (clear header block header atHeader (le_refl _) (by omega) (Or.inl (by omega))).1
  have headerKept : ∀ header block, layout.block header = some block → 3 ≤ block.size →
      first (header + 1) = state.heap.first (header + 1) ∧
        second (header + 1) = state.heap.second (header + 1) :=
    fun header block atHeader wide =>
      clear header block (header + 1) atHeader (by omega) (by omega) (Or.inl (by omega))
  refine ⟨⟨?_, ?_, ?_, ?_, sound.tagged.dummy, ?_, sound.tagged.placed⟩,
    ⟨?_, sound.listed.distinct, sound.listed.listed⟩, sound.inside⟩
  · intro header chunk atHeader isChunk
    obtain ⟨wide, sized⟩ := sound.tagged.sized header chunk atHeader isChunk
    exact ⟨wide, (headerKept header chunk atHeader wide).1.trans sized⟩
  · intro header chunk atHeader isClosed
    have wide := sound.tagged.wide atHeader (Or.inl isClosed)
    exact (headerKept header chunk atHeader wide).2.trans
      (sound.tagged.owned header chunk atHeader isClosed)
  · intro header chunk atHeader isClosed
    obtain ⟨tagOk, follower, atEnd, notDummy⟩ :=
      sound.tagged.ended header chunk atHeader isClosed
    exact ⟨(startKept _ follower atEnd).trans tagOk, follower, atEnd, notDummy⟩
  · intro header chunk atHeader isChunk
    rcases sound.tagged.begun header chunk atHeader isChunk with untagged | previous
    · exact Or.inl ((startKept header chunk atHeader).trans untagged)
    · exact Or.inr previous
  · exact ⟨(headerKept _ _ sound.tagged.dummy (le_refl 3)).1.trans sound.tagged.idle.1,
      (startKept _ _ sound.tagged.dummy).trans sound.tagged.idle.2⟩
  · refine reaches_congr sound.listed.linked ?_
    intro entry isEntry
    obtain ⟨block, atEntry, wide⟩ := sound.entry isEntry
    have notLive : block.state ≠ .live := by
      rcases isEntry with rfl | member
      · rw [sound.tagged.dummy] at atEntry
        cases atEntry
        exact nofun
      · obtain ⟨chunk, atChunk, isListed⟩ := (sound.listed.listed entry).mp member
        rw [atEntry] at atChunk
        cases atChunk
        intro isLive
        rw [isLive] at isListed
        exact absurd isListed live_not_listed
    exact (clear entry block (entry + 2) atEntry (by omega) (by omega) (Or.inr notLive)).2

theorem held_chunk (sound : Sound arena state.heap layout chain) (owns : Owns state.live layout)
    {entry : Int × Int} (held : entry ∈ state.live) :
    ∃ chunk, layout.block entry.1 = some chunk ∧
      state.heap.largechunkSize entry.1 = chunk.size := by
  obtain ⟨chunk, atEntry, isLive⟩ := (owns.headers entry.1).mp (List.mem_map_of_mem held)
  exact ⟨chunk, atEntry, (sound.tagged.sized entry.1 chunk atEntry (Or.inl (Or.inl isLive))).2⟩

theorem held_large (sound : Sound arena state.heap layout chain) (owns : Owns state.live layout)
    (entry : Int × Int) (held : entry ∈ state.live) :
    entry.2 ≤ state.heap.largechunkSize entry.1 := by
  obtain ⟨chunk, atEntry, sized⟩ := held_chunk sound owns held
  rw [sized]
  exact owns.large entry held chunk atEntry

theorem held_apart (sound : Sound arena state.heap layout chain) (owns : Owns state.live layout) :
    state.live.Pairwise (fun first second =>
      first.1 + state.heap.largechunkSize first.1 ≤ second.1 ∨
        second.1 + state.heap.largechunkSize second.1 ≤ first.1) := by
  have distinct := owns.distinct
  rw [List.Nodup, List.pairwise_map] at distinct
  refine distinct.imp_of_mem ?_
  intro first second heldFirst heldSecond differ
  obtain ⟨chunk, atFirst, sized⟩ := held_chunk sound owns heldFirst
  obtain ⟨other, atSecond, otherSized⟩ := held_chunk sound owns heldSecond
  rw [sized, otherSized]
  exact layout.apart_or atFirst atSecond differ

/-- A chunk the program holds is not placed, so freeing it frees that chunk. -/
theorem free_large_chunk (sound : Sound arena state.heap layout chain)
    (owns : Owns state.live layout) (aligned : arena.self % 2 = 0) (arenaAt : Int → Arena)
    {pointer : Int} (held : pointer - 2 ∈ state.headers) :
    ∃ chunk, layout.block (pointer - 2) = some chunk ∧ chunk.state = .live ∧
      freeLargeChunk arenaAt arena state.heap pointer =
        doFreeLargeChunk arena state.heap (pointer - 2) := by
  obtain ⟨chunk, atHeader, isLive⟩ := (owns.headers (pointer - 2)).mp held
  have owned := sound.tagged.owned (pointer - 2) chunk atHeader (Or.inl isLive)
  have unit : pointer - 2 + 1 = pointer - 1 := by omega
  have arenaWord : state.heap.addrArena pointer = arena.self := by
    rw [← owned, Heap.addrArena, Heap.largechunkArena, unit]
  refine ⟨chunk, atHeader, isLive, ?_⟩
  simp only [freeLargeChunk, arenaWord]
  rw [if_neg (by omega)]

end Invariance

theorem dummy_nonempty (freelist start : Int) (found : Block Status)
    (atStart : (if start = freelist then some (⟨3, .dummy⟩ : Block Status) else none) =
      some found) : 0 < found.size := by
  split_ifs at atStart
  cases atStart
  decide

theorem dummy_apart (freelist low high : Int) (first second : Block Status)
    (atLow : (if low = freelist then some (⟨3, .dummy⟩ : Block Status) else none) = some first)
    (atHigh : (if high = freelist then some (⟨3, .dummy⟩ : Block Status) else none) = some second)
    (below : low < high) : low + first.size ≤ high := by
  split_ifs at atLow atHigh with isLow isHigh
  omega

/-- The layout of an arena with nothing but its dummy entry. -/
def dummyLayout (freelist : Int) : Layout Status where
  block := fun start => if start = freelist then some ⟨3, .dummy⟩ else none
  nonempty := dummy_nonempty freelist
  apart := dummy_apart freelist

theorem dummy_layout_block {freelist start : Int} {block : Block Status}
    (atStart : (dummyLayout freelist).block start = some block) :
    start = freelist ∧ block = ⟨3, .dummy⟩ := by
  simp only [dummyLayout] at atStart
  split_ifs at atStart with same
  exact ⟨same, (Option.some.inj atStart).symm⟩

theorem dummy_layout_at (freelist : Int) :
    (dummyLayout freelist).block freelist = some ⟨3, .dummy⟩ := by
  simp only [dummyLayout, if_true]

theorem dummy_spans (arena : Arena) : Spans arena [] (dummyLayout arena.freelist) := by
  intro unit
  constructor
  · rintro ⟨start, block, atStart, low, high⟩
    obtain ⟨rfl, rfl⟩ := dummy_layout_block atStart
    exact Or.inr ⟨low, high⟩
  · rintro (⟨segment, member, _⟩ | ⟨low, high⟩)
    · exact absurd member List.not_mem_nil
    · exact ⟨arena.freelist, _, dummy_layout_at arena.freelist, low, high⟩

theorem dummy_owns (freelist : Int) : Owns [] (dummyLayout freelist) where
  headers := by
    intro header
    constructor
    · exact fun held => absurd held List.not_mem_nil
    · rintro ⟨chunk, atHeader, isLive⟩
      obtain ⟨_, rfl⟩ := dummy_layout_block atHeader
      exact nomatch isLive
  distinct := List.nodup_nil
  large := fun entry held => absurd held List.not_mem_nil

/-- An empty free list with an idle dummy entry is sound. -/
theorem dummy_sound {arena : Arena} {heap : Heap} (placed : 0 < arena.freelist)
    (size : heap.largechunkSize arena.freelist = 0)
    (prevsize : heap.largechunkPrevsize arena.freelist = -1)
    (nextfree : heap.largechunkNextfree arena.freelist = 0) (written : heap.written = []) :
    Sound arena heap (dummyLayout arena.freelist) [] := by
  have noChunk : ∀ start block, (dummyLayout arena.freelist).block start = some block →
      ¬ block.state.IsChunk := by
    intro start block atStart isChunk
    obtain ⟨_, rfl⟩ := dummy_layout_block atStart
    exact chunk_not_dummy isChunk rfl
  refine ⟨⟨?_, ?_, ?_, ?_, dummy_layout_at arena.freelist, ⟨size, prevsize⟩, ?_⟩,
    ⟨nextfree, List.nodup_nil, ?_⟩, ?_⟩
  · exact fun header chunk atHeader isChunk => absurd isChunk (noChunk header chunk atHeader)
  · exact fun header chunk atHeader isClosed =>
      absurd (Or.inl isClosed) (noChunk header chunk atHeader)
  · exact fun header chunk atHeader isClosed =>
      absurd (Or.inl isClosed) (noChunk header chunk atHeader)
  · exact fun header chunk atHeader isChunk => absurd isChunk (noChunk header chunk atHeader)
  · intro start block atStart
    obtain ⟨rfl, _⟩ := dummy_layout_block atStart
    exact placed
  · intro header
    constructor
    · exact fun member => absurd member List.not_mem_nil
    · rintro ⟨chunk, atHeader, isListed⟩
      exact absurd (listed_chunk isListed) (noChunk header chunk atHeader)
  · rw [Inside, written]
    exact fun unit member => absurd member List.not_mem_nil

end Sac2c.LargeMachine
