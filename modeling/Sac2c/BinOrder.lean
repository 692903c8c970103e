import Sac2c.LargeArenas

/-!
Runs of a large-chunk arena. Walking from the start of a bin along the SIZE
fields meets exactly the blocks of the layout, so in every state the program
can bring the arena to, the chunks tile each bin, the boundary tags tell which
of them are free, and the ones handed out are disjoint.
-/

namespace Sac2c.BinOrder

open Headers LargeChunks Blocks Links BoundaryTags FreeList LargeMachine LargeArenas Trace
open LargeRequests

/-- The chunks of a bin, found by walking from its start along the SIZE fields. -/
inductive ChunkOf (arena : Arena) (heap : Heap) (bin : Int) : Int → Prop where
  | first : ChunkOf arena heap bin bin
  | next {header : Int} : ChunkOf arena heap bin header →
      header + heap.largechunkSize header < bin + arena.binsize - 1 →
      ChunkOf arena heap bin (header + heap.largechunkSize header)

section Walk

variable {arena : Arena} {heap : Heap} {layout : Layout Status} {chain : List Int}
  {bin : Int × Int}

/-- A block that starts in a bin before its last unit is a chunk and ends there. -/
theorem block_in_bin (binned : Binned arena heap layout) (member : bin ∈ heap.obtained)
    {start : Int} {block : Block Status} (atStart : layout.block start = some block)
    (above : bin.1 ≤ start) (below : start < bin.1 + arena.binsize - 1) :
    block.state.IsClosed ∧ start + block.size ≤ bin.1 + arena.binsize - 1 := by
  refine ⟨?_, layout.apart _ _ _ _ atStart (binned.stops bin member) below⟩
  rcases binned.states start block atStart with isClosed | ⟨_, other, atOther, last⟩ | ⟨_, isDummy⟩
  · exact isClosed
  · rcases lt_trichotomy bin.1 other.1 with low | same | high
    · have apart := binned.apart bin other member atOther low
      omega
    · omega
    · have apart := binned.apart other bin atOther member high
      omega
  · have apart := binned.dummyApart bin member
    omega

theorem bin_start (sound : Sound arena heap layout chain) (binned : Binned arena heap layout)
    (wide : 3 ≤ arena.binsize - 1) (member : bin ∈ heap.obtained) :
    ∃ chunk, layout.block bin.1 = some chunk := by
  have size := binned.sizes bin member
  obtain ⟨start, block, atStart, low, high⟩ := (binned.spans bin.1).mpr
    (Or.inl ⟨bin, member, le_refl _, by omega⟩)
  by_cases same : start = bin.1
  · exact ⟨block, same ▸ atStart⟩
  · -- a block from below would belong to another bin, or to the dummy entry
    exfalso
    rcases (binned.spans start).mp (layout.covers_start atStart) with
      ⟨other, atOther, inside⟩ | dummy
    · have otherSize := binned.sizes other atOther
      have differ : other.1 < bin.1 := by omega
      have apart := binned.apart other bin atOther member differ
      by_cases last : start < other.1 + arena.binsize - 1
      · have ends := (block_in_bin binned atOther atStart inside.1 last).2
        omega
      · have isStop : start = other.1 + arena.binsize - 1 := by omega
        have atStop := binned.stops other atOther
        rw [← isStop, atStart] at atStop
        cases atStop
        dsimp only at high
        omega
    · have apart := binned.dummyApart bin member
      have isDummy : start = arena.freelist :=
        layout.block_unique atStart sound.tagged.dummy
          ⟨le_refl _, by have := layout.nonempty start block atStart; omega⟩ dummy
      rw [isDummy, sound.tagged.dummy] at atStart
      cases atStart
      dsimp only at high
      omega

theorem chunk_of_block (sound : Sound arena heap layout chain) (binned : Binned arena heap layout)
    (wide : 3 ≤ arena.binsize - 1) (member : bin ∈ heap.obtained) {header : Int}
    (chunkOf : ChunkOf arena heap bin.1 header) :
    ∃ chunk, layout.block header = some chunk ∧ chunk.state.IsClosed ∧ bin.1 ≤ header ∧
      header + chunk.size ≤ bin.1 + arena.binsize - 1 ∧
      heap.largechunkSize header = chunk.size := by
  have finish : ∀ start chunk, layout.block start = some chunk → bin.1 ≤ start →
      start < bin.1 + arena.binsize - 1 → chunk.state.IsClosed ∧
      start + chunk.size ≤ bin.1 + arena.binsize - 1 ∧ heap.largechunkSize start = chunk.size := by
    intro start chunk atStart above below
    obtain ⟨isClosed, ends⟩ := block_in_bin binned member atStart above below
    exact ⟨isClosed, ends, (sound.tagged.sized start chunk atStart (Or.inl isClosed)).2⟩
  induction chunkOf with
  | first =>
      obtain ⟨chunk, atBin⟩ := bin_start sound binned wide member
      obtain ⟨isClosed, ends, sized⟩ := finish bin.1 chunk atBin (le_refl _) (by omega)
      exact ⟨chunk, atBin, isClosed, le_refl _, ends, sized⟩
  | next before below ih =>
      obtain ⟨previous, atPrev, prevClosed, above, _, sized⟩ := ih
      obtain ⟨_, follower, atEnd, _⟩ := sound.tagged.ended _ previous atPrev prevClosed
      have size := layout.nonempty _ previous atPrev
      rw [← sized] at atEnd
      obtain ⟨isClosed, ends, followerSized⟩ := finish _ follower atEnd (by omega) below
      exact ⟨follower, atEnd, isClosed, by omega, ends, followerSized⟩

theorem block_chunk_of (sound : Sound arena heap layout chain) (binned : Binned arena heap layout)
    (wide : 3 ≤ arena.binsize - 1) (member : bin ∈ heap.obtained) (distance : Nat) {header : Int}
    {chunk : Block Status} (atHeader : layout.block header = some chunk)
    (away : header = bin.1 + distance) (below : header < bin.1 + arena.binsize - 1) :
    ChunkOf arena heap bin.1 header := by
  -- the walk reaches the block before this one, which ends where this one starts
  induction distance using Nat.strongRecOn generalizing header chunk with
  | ind distance ih =>
      by_cases isFirst : header = bin.1
      · rw [isFirst]
        exact ChunkOf.first
      · have size := binned.sizes bin member
        obtain ⟨prevp, previous, atPrev, low, high⟩ := (binned.spans (header - 1)).mpr
          (Or.inl ⟨bin, member, by omega, by omega⟩)
        have meets := layout.apart prevp header previous chunk atPrev atHeader (by omega)
        obtain ⟨first, atFirst⟩ := bin_start sound binned wide member
        have above : bin.1 ≤ prevp := by
          by_contra beneath
          have apart := layout.apart prevp bin.1 previous first atPrev atFirst (by omega)
          omega
        have prevSize := layout.nonempty prevp previous atPrev
        have isClosed := (block_in_bin binned member atPrev above (by omega)).1
        have sized := (sound.tagged.sized prevp previous atPrev (Or.inl isClosed)).2
        have reached := ih (prevp - bin.1).toNat (by omega) atPrev (by omega) (by omega)
        have isHeader : prevp + heap.largechunkSize prevp = header := by omega
        rw [← isHeader]
        exact ChunkOf.next reached (by omega)

/-- A chunk lies in one of the bins. -/
theorem chunk_in_bin (sound : Sound arena heap layout chain) (binned : Binned arena heap layout)
    {header : Int} {chunk : Block Status} (atHeader : layout.block header = some chunk)
    (isClosed : chunk.state.IsClosed) :
    ∃ other, other ∈ heap.obtained ∧ other.1 ≤ header ∧ header < other.1 + arena.binsize - 1 := by
  rcases (binned.spans header).mp (layout.covers_start atHeader) with
    ⟨other, atOther, low, high⟩ | dummy
  · refine ⟨other, atOther, low, ?_⟩
    have size := binned.sizes other atOther
    by_contra last
    have isStop : header = other.1 + arena.binsize - 1 := by omega
    rw [isStop, binned.stops other atOther] at atHeader
    cases atHeader
    exact absurd isClosed (by decide)
  · have size := layout.nonempty header chunk atHeader
    have isDummy := layout.block_unique atHeader sound.tagged.dummy
      ⟨le_refl _, by omega⟩ dummy
    rw [isDummy, sound.tagged.dummy] at atHeader
    cases atHeader
    exact absurd rfl (chunk_not_dummy (Or.inl isClosed))

theorem chunk_walked (sound : Sound arena heap layout chain) (binned : Binned arena heap layout)
    (wide : 3 ≤ arena.binsize - 1) (member : bin ∈ heap.obtained) {header : Int}
    {chunk : Block Status} (atHeader : layout.block header = some chunk) (above : bin.1 ≤ header)
    (below : header < bin.1 + arena.binsize - 1) : ChunkOf arena heap bin.1 header :=
  block_chunk_of sound binned wide member (header - bin.1).toNat atHeader (by omega) below

/-- A free chunk that ends where a chunk of the bin starts belongs to that bin. -/
theorem previous_in_bin (sound : Sound arena heap layout chain)
    (binned : Binned arena heap layout) (member : bin ∈ heap.obtained) {prevp header : Int}
    {previous : Block Status} (atPrev : layout.block prevp = some previous)
    (isClosed : previous.state.IsClosed) (meets : prevp + previous.size = header)
    (above : bin.1 ≤ header) : bin.1 ≤ prevp := by
  obtain ⟨other, atOther, low, high⟩ := chunk_in_bin sound binned atPrev isClosed
  have ends := (block_in_bin binned atOther atPrev low high).2
  rcases lt_trichotomy bin.1 other.1 with before | same | after
  · omega
  · omega
  · have apart := binned.apart other bin atOther member after
    omega

end Walk

/-- What the claim-relevant words of a large arena say about each other. -/
structure InOrder (arena : Arena) (state : State) (chain : List Int) : Prop where
  linked : Linked state.heap.largechunkNextfree arena.freelist chain
  distinct : chain.Nodup
  inside : ∀ bin, bin ∈ state.heap.obtained → ∀ header, ChunkOf arena state.heap bin.1 header →
    bin.1 ≤ header ∧ 0 < state.heap.largechunkSize header ∧
      header + state.heap.largechunkSize header ≤ bin.1 + arena.binsize - 1
  tiles : ∀ bin, bin ∈ state.heap.obtained → ∀ unit, bin.1 ≤ unit →
    unit < bin.1 + arena.binsize - 1 → ∃! header, ChunkOf arena state.heap bin.1 header ∧
      header ≤ unit ∧ unit < header + state.heap.largechunkSize header
  status : ∀ bin, bin ∈ state.heap.obtained → ∀ header, ChunkOf arena state.heap bin.1 header →
    (header ∈ state.headers ∧ chain.count header = 0) ∨
      (header ∉ state.headers ∧ chain.count header = 1)
  known : ∀ header, header ∈ state.headers ∨ header ∈ chain →
    ∃ bin, bin ∈ state.heap.obtained ∧ ChunkOf arena state.heap bin.1 header
  prevsize : ∀ bin, bin ∈ state.heap.obtained → ∀ header, ChunkOf arena state.heap bin.1 header →
    (state.heap.largechunkPrevsize header > 0 ↔
      ∃ prevp, ChunkOf arena state.heap bin.1 prevp ∧
        prevp + state.heap.largechunkSize prevp = header ∧ prevp ∈ chain) ∧
    ∀ prevp, ChunkOf arena state.heap bin.1 prevp →
      prevp + state.heap.largechunkSize prevp = header → prevp ∈ chain →
      state.heap.largechunkPrevsize header = state.heap.largechunkSize prevp
  owner : ∀ bin, bin ∈ state.heap.obtained → ∀ header, ChunkOf arena state.heap bin.1 header →
    state.heap.largechunkArena header = arena.self
  large : ∀ entry, entry ∈ state.live → entry.2 ≤ state.heap.largechunkSize entry.1
  apart : state.live.Pairwise (fun first second =>
    first.1 + state.heap.largechunkSize first.1 ≤ second.1 ∨
      second.1 + state.heap.largechunkSize second.1 ≤ first.1)

/-- The invariant that carries it over a run. -/
def Valid (arena : Arena) (state : State) : Prop :=
  ∃ layout chain, Sound arena state.heap layout chain ∧ Binned arena state.heap layout ∧
    Owns state.live layout

section Runs

variable {arena : Arena} {state : State} {layout : Layout Status} {chain : List Int}

/-- No chunk is retired, so the free list is that of the free chunks. -/
theorem listed_iff (sound : Sound arena state.heap layout chain)
    (binned : Binned arena state.heap layout) {header : Int} {chunk : Block Status}
    (atHeader : layout.block header = some chunk) :
    header ∈ chain ↔ chunk.state = .free := by
  rw [sound.listed.listed]
  constructor
  · rintro ⟨other, atOther, isFree | isRetired⟩
    · rw [atHeader] at atOther
      cases atOther
      exact isFree
    · exact absurd (binned_not_retired binned header other atOther isRetired) List.not_mem_nil
  · intro isFree
    exact ⟨chunk, atHeader, Or.inl isFree⟩

theorem chunks_tile (sound : Sound arena state.heap layout chain)
    (binned : Binned arena state.heap layout) (wide : 3 ≤ arena.binsize - 1) {bin : Int × Int}
    (member : bin ∈ state.heap.obtained) {unit : Int} (above : bin.1 ≤ unit)
    (below : unit < bin.1 + arena.binsize - 1) :
    ∃! header, ChunkOf arena state.heap bin.1 header ∧ header ≤ unit ∧
      unit < header + state.heap.largechunkSize header := by
  have size := binned.sizes bin member
  obtain ⟨start, block, atStart, low, high⟩ := (binned.spans unit).mpr
    (Or.inl ⟨bin, member, above, by omega⟩)
  obtain ⟨first, atFirst⟩ := bin_start sound binned wide member
  have inBin : bin.1 ≤ start := by
    by_contra beneath
    have clear := layout.apart start bin.1 block first atStart atFirst (by omega)
    omega
  have walked := chunk_walked sound binned wide member atStart inBin (by omega)
  obtain ⟨chunk, atChunk, _, _, _, sized⟩ := chunk_of_block sound binned wide member walked
  rw [atStart] at atChunk
  cases atChunk
  refine ⟨start, ⟨walked, low, by omega⟩, ?_⟩
  rintro other ⟨otherOf, otherLow, otherHigh⟩
  obtain ⟨found, atOther, _, _, _, otherSized⟩ := chunk_of_block sound binned wide member otherOf
  exact layout.block_unique atOther atStart ⟨otherLow, by omega⟩ ⟨low, high⟩

/-- A chunk is held or listed, not both. -/
theorem chunk_status (sound : Sound arena state.heap layout chain)
    (binned : Binned arena state.heap layout) (owns : Owns state.live layout) {header : Int}
    {chunk : Block Status} (atHeader : layout.block header = some chunk)
    (isClosed : chunk.state.IsClosed) :
    (header ∈ state.headers ∧ chain.count header = 0) ∨
      (header ∉ state.headers ∧ chain.count header = 1) := by
  have free := listed_iff sound binned atHeader
  rcases isClosed with isLive | isFree
  · refine Or.inl ⟨(owns.headers header).mpr ⟨chunk, atHeader, isLive⟩, ?_⟩
    refine List.count_eq_zero.mpr ?_
    intro listed
    have isFree := free.mp listed
    rw [isLive] at isFree
    exact nomatch isFree
  · refine Or.inr ⟨?_, List.count_eq_one_of_mem sound.listed.distinct (free.mpr isFree)⟩
    intro held
    obtain ⟨other, atOther, isLive⟩ := (owns.headers header).mp held
    rw [atHeader] at atOther
    cases atOther
    rw [isFree] at isLive
    exact nomatch isLive

theorem chunk_known (sound : Sound arena state.heap layout chain)
    (binned : Binned arena state.heap layout) (owns : Owns state.live layout)
    (wide : 3 ≤ arena.binsize - 1) {header : Int}
    (known : header ∈ state.headers ∨ header ∈ chain) :
    ∃ bin, bin ∈ state.heap.obtained ∧ ChunkOf arena state.heap bin.1 header := by
  have closed : ∃ chunk, layout.block header = some chunk ∧ chunk.state.IsClosed := by
    rcases known with held | listed
    · obtain ⟨chunk, atHeader, isLive⟩ := (owns.headers header).mp held
      exact ⟨chunk, atHeader, Or.inl isLive⟩
    · obtain ⟨chunk, atHeader, _⟩ := (sound.listed.listed header).mp listed
      exact ⟨chunk, atHeader, Or.inr ((listed_iff sound binned atHeader).mp listed)⟩
  obtain ⟨chunk, atHeader, isClosed⟩ := closed
  obtain ⟨bin, member, above, below⟩ := chunk_in_bin sound binned atHeader isClosed
  exact ⟨bin, member, chunk_walked sound binned wide member atHeader above below⟩

/-- The tag behind a listed chunk is the size of the chunk. -/
theorem tag_of_listed (sound : Sound arena state.heap layout chain)
    (binned : Binned arena state.heap layout) (wide : 3 ≤ arena.binsize - 1) {bin : Int × Int}
    (member : bin ∈ state.heap.obtained) {prevp : Int}
    (prevOf : ChunkOf arena state.heap bin.1 prevp) (listed : prevp ∈ chain) :
    state.heap.largechunkPrevsize (prevp + state.heap.largechunkSize prevp) =
      state.heap.largechunkSize prevp := by
  obtain ⟨previous, atPrev, prevClosed, _, _, sized⟩ :=
    chunk_of_block sound binned wide member prevOf
  have prevFree := (listed_iff sound binned atPrev).mp listed
  obtain ⟨prevTag, _⟩ := sound.tagged.ended prevp previous atPrev prevClosed
  rw [prevFree, tag_free, ← sized] at prevTag
  exact prevTag

theorem chunk_prevsize (sound : Sound arena state.heap layout chain)
    (binned : Binned arena state.heap layout) (wide : 3 ≤ arena.binsize - 1) {bin : Int × Int}
    (member : bin ∈ state.heap.obtained) {header : Int}
    (chunkOf : ChunkOf arena state.heap bin.1 header) :
    state.heap.largechunkPrevsize header > 0 ↔
      ∃ prevp, ChunkOf arena state.heap bin.1 prevp ∧
        prevp + state.heap.largechunkSize prevp = header ∧ prevp ∈ chain := by
  obtain ⟨chunk, atHeader, isClosed, above, ends, _⟩ :=
    chunk_of_block sound binned wide member chunkOf
  have size := layout.nonempty header chunk atHeader
  constructor
  · intro positive
    rcases sound.tagged.begun header chunk atHeader (Or.inl isClosed) with untagged |
      ⟨prevp, previous, atPrev, prevFree, meets⟩
    · omega
    · have prevClosed : previous.state.IsClosed := Or.inr prevFree
      have low := previous_in_bin sound binned member atPrev prevClosed meets above
      have prevSize := layout.nonempty prevp previous atPrev
      have sized := (sound.tagged.sized prevp previous atPrev (Or.inl prevClosed)).2
      exact ⟨prevp, chunk_walked sound binned wide member atPrev low (by omega), by omega,
        (listed_iff sound binned atPrev).mpr prevFree⟩
  · rintro ⟨prevp, prevOf, rfl, listed⟩
    have same := tag_of_listed sound binned wide member prevOf listed
    obtain ⟨previous, atPrev, _, _, _, sized⟩ := chunk_of_block sound binned wide member prevOf
    have prevSize := layout.nonempty prevp previous atPrev
    omega

theorem in_order (large : IsLarge arena) (sound : Sound arena state.heap layout chain)
    (binned : Binned arena state.heap layout) (owns : Owns state.live layout) :
    InOrder arena state chain := by
  have wide : 3 ≤ arena.binsize - 1 := by
    rw [large.binsize]
    rcases large.kind with num | num | num <;> rw [num] <;> decide
  constructor
  case linked => exact sound.listed.linked
  case distinct => exact sound.listed.distinct
  case inside =>
    intro bin member header chunkOf
    obtain ⟨chunk, atHeader, _, above, ends, sized⟩ :=
      chunk_of_block sound binned wide member chunkOf
    have size := layout.nonempty header chunk atHeader
    exact ⟨above, by omega, by omega⟩
  case tiles =>
    intro bin member unit above below
    exact chunks_tile sound binned wide member above below
  case status =>
    intro bin member header chunkOf
    obtain ⟨chunk, atHeader, isClosed, _⟩ := chunk_of_block sound binned wide member chunkOf
    exact chunk_status sound binned owns atHeader isClosed
  case known => exact fun header known => chunk_known sound binned owns wide known
  case prevsize =>
    intro bin member header chunkOf
    refine ⟨chunk_prevsize sound binned wide member chunkOf, ?_⟩
    rintro prevp prevOf rfl listed
    exact tag_of_listed sound binned wide member prevOf listed
  case owner =>
    intro bin member header chunkOf
    obtain ⟨chunk, atHeader, isClosed, _⟩ := chunk_of_block sound binned wide member chunkOf
    exact sound.tagged.owned header chunk atHeader isClosed
  case large => exact held_large sound owns
  case apart => exact held_apart sound owns

theorem dummy_only_valid (initial : DummyOnly arena state) : Valid arena state := by
  have noBin : ∀ bin, bin ∉ state.heap.obtained := by
    rw [initial.obtained]
    exact fun _ => List.not_mem_nil
  refine ⟨dummyLayout arena.freelist, [], dummy_sound initial.placed initial.size
    initial.prevsize initial.nextfree initial.written, ⟨?_, ?_, ?_, ?_, ?_, ?_,
    initial.wilderness⟩, ?_⟩
  · rw [initial.obtained]
    exact dummy_spans arena
  · exact fun bin member => absurd member (noBin bin)
  · exact fun low _ member => absurd member (noBin low)
  · exact fun bin member => absurd member (noBin bin)
  · exact fun bin member => absurd member (noBin bin)
  · intro start block atStart
    obtain ⟨isDummy, rfl⟩ := dummy_layout_block atStart
    exact Or.inr (Or.inr ⟨rfl, isDummy⟩)
  · rw [initial.live]
    exact dummy_owns arena.freelist

theorem valid_step (large : IsLarge arena) (arenaAt : Int → Arena) {request : Int → Prop}
    (served : ∀ units, request units → 3 ≤ units ∧ units + 3 ≤ arena.binsize - 1)
    (before : State) (label : Label) (after : State) (valid : Valid arena before)
    (step : Step arena arenaAt request (FreshBin arena) before label after) :
    Valid arena after := by
  obtain ⟨layout, chain, sound, binned, owns⟩ := valid
  cases step with
  | malloc units pointer supply fuel heap fits fresh returned =>
      obtain ⟨wide, room⟩ := served units fits
      have outcome := large_malloc_outcome large sound binned wide room fresh fuel
      rw [returned] at outcome
      obtain ⟨renewed, nodes, soundNew, binnedNew, serves⟩ := outcome
      exact ⟨renewed, nodes, soundNew, binnedNew, owns_served owns serves⟩
  | free pointer held =>
      obtain ⟨chunk, atHeader, isLive, freed⟩ :=
        free_large_chunk sound owns large.aligned arenaAt held
      rw [freed]
      exact ⟨_, _, sound_free sound atHeader isLive, binned_rearranged binned
        (rearranges_retag atHeader (Or.inl isLive) status_free_closed) ⟨rfl, rfl, rfl⟩,
        owns_freed owns atHeader⟩
  | store first second kept =>
      exact ⟨layout, chain, sound_store sound binned.spans owns kept,
        ⟨binned.spans, binned.sizes, binned.apart, binned.dummyApart, binned.stops,
          binned.states, binned.wilderness⟩, owns⟩

/-- Whatever the program does, the arena stays in order and serves every request
of its size class. -/
theorem large_arena_in_order (arena : Arena) (large : IsLarge arena) (arenaAt : Int → Arena)
    (start after : State) (labels : List Label) (initial : DummyOnly arena start)
    (run : Run (Step arena arenaAt (Fits arena) (FreshBin arena)) start labels after) :
    (∃ chain, InOrder arena after chain) ∧
      ∀ units supply, Fits arena units → FreshBin arena after.heap units supply →
        ∃ needed, ∀ fuel, needed < fuel →
          ∃ result, mallocLargeChunk arena supply fuel units after.heap = some result := by
  obtain ⟨layout, chain, sound, binned, owns⟩ :=
    run.invariant (Valid arena) (valid_step large arenaAt fun _ => sizes_fit large)
      (dummy_only_valid initial)
  refine ⟨⟨chain, in_order large sound binned owns⟩, ?_⟩
  intro units supply fits fresh
  refine ⟨chain.length, fun fuel enough => ?_⟩
  obtain ⟨wide, room⟩ := sizes_fit large fits
  have outcome := large_malloc_outcome large sound binned wide room fresh fuel
  cases result : mallocLargeChunk arena supply fuel units after.heap with
  | none =>
      rw [result] at outcome
      exact absurd (outcome enough) not_false
  | some value => exact ⟨value, rfl⟩

end Runs

section Example

def arena5 : Arena := ⟨5, 4096, 16, 2048, 17⟩

/-- Arena 5 as SAC_HM_SetupWorkers leaves it, its dummy entry at unit 16. -/
def setUp : State where
  heap :=
    { first := fun unit => if unit = 16 then -1 else 0
      second := fun _ => 0
      wilderness := fun _ => 16
      written := []
      obtained := []
      retired := [] }
  live := []

theorem arena5_is_large : IsLarge arena5 :=
  ⟨Or.inl rfl, rfl, rfl, by decide⟩

theorem set_up_dummy_only : DummyOnly arena5 setUp :=
  ⟨by decide, rfl, rfl, rfl, rfl, rfl, rfl, rfl⟩

theorem first_bin_fresh : FreshBin arena5 setUp.heap 17 ⟨100, 0, 0⟩ := by
  refine ⟨by decide, ?_⟩
  rintro unit above below (⟨segment, member, _⟩ | ⟨_, dummy⟩)
  · exact absurd member List.not_mem_nil
  · have high : unit < 19 := dummy
    have low : 100 ≤ unit := above
    omega

theorem large_arena_in_order_first_chunk :
    ∃ after, Run (Step arena5 (fun _ => arena5) (Fits arena5) (FreshBin arena5)) setUp
        [.malloc 17 ⟨100, 0, 0⟩ 2132, .free 2132] after ∧
      ∃ chain, InOrder arena5 after chain := by
  have run : ∃ after, Run (Step arena5 (fun _ => arena5) (Fits arena5) (FreshBin arena5)) setUp
      [.malloc 17 ⟨100, 0, 0⟩ 2132, .free 2132] after :=
    ⟨_, Run.next
      (Step.malloc setUp 17 2132 ⟨100, 0, 0⟩ 1 _ ⟨by decide, by decide⟩ first_bin_fresh rfl)
      (Run.next (Step.free _ 2132 (List.mem_singleton.mpr rfl)) (Run.refl _))⟩
  obtain ⟨after, run⟩ := run
  exact ⟨after, run, (large_arena_in_order arena5 arena5_is_large _ setUp after _
    set_up_dummy_only run).1⟩

end Example

end Sac2c.BinOrder
