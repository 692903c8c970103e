import Sac2c.BoundaryTags

/-!
The steps of the large-chunk allocator on header words and free list together:
taking a chunk off the list, cutting one, freeing one, melting two neighbours.
Each leaves a sound heap, moves no border of the memory it works in and touches
no live chunk besides the one it is about.
-/

namespace Sac2c.FreeList

open Headers LargeChunks Blocks Links BoundaryTags

/-- The same memory is covered, and blocks other than live and free ones stay. -/
structure Rearranges (before after : Layout Status) : Prop where
  covers : ∀ unit, after.Covers unit ↔ before.Covers unit
  fixed : ∀ start block, ¬ block.state.IsClosed →
    (after.block start = some block ↔ before.block start = some block)

def KeepsLive (before after : Layout Status) : Prop :=
  ∀ start block, block.state = .live →
    (after.block start = some block ↔ before.block start = some block)

/-- A chunk of at least `units` units at `header` becomes live, no other. -/
structure Serves (before after : Layout Status) (header units : Int) : Prop where
  fresh : ∀ block, before.block header = some block → block.state ≠ .live
  served : ∃ block, after.block header = some block ∧ block.state = .live ∧ units ≤ block.size
  others : ∀ start block, start ≠ header → block.state = .live →
    (after.block start = some block ↔ before.block start = some block)

/-- Only header words of the chunks have changed. -/
def SameRecords (before after : Heap) : Prop :=
  after.obtained = before.obtained ∧ after.retired = before.retired ∧
    after.wilderness = before.wilderness

/-- The chunk of `units` units behind `pointer` has been handed out. -/
def HandsOut (arena : Arena) (units : Int) (heap : Heap) (layout : Layout Status)
    (result : Int × Heap) : Prop :=
  ∃ renewed chain, Sound arena result.2 renewed chain ∧ Rearranges layout renewed ∧
    Serves layout renewed (result.1 - 2) units ∧ SameRecords heap result.2

theorem Rearranges.refl (layout : Layout Status) : Rearranges layout layout :=
  ⟨fun _ => Iff.rfl, fun _ _ _ => Iff.rfl⟩

theorem Rearranges.trans {first second third : Layout Status}
    (earlier : Rearranges first second) (later : Rearranges second third) :
    Rearranges first third where
  covers := fun unit => (later.covers unit).trans (earlier.covers unit)
  fixed := fun start block isOpen =>
    (later.fixed start block isOpen).trans (earlier.fixed start block isOpen)

theorem KeepsLive.trans {first second third : Layout Status}
    (earlier : KeepsLive first second) (later : KeepsLive second third) :
    KeepsLive first third :=
  fun start block isLive => (later start block isLive).trans (earlier start block isLive)

theorem KeepsLive.serves {first second third : Layout Status} {header units : Int}
    (earlier : KeepsLive first second) (later : Serves second third header units) :
    Serves first third header units where
  fresh := by
    intro block atHeader isLive
    exact later.fresh block ((earlier header block isLive).mpr atHeader) isLive
  served := later.served
  others := fun start block differ isLive =>
    (later.others start block differ isLive).trans (earlier start block isLive)

section Steps

variable {arena : Arena} {heap : Heap} {layout : Layout Status}

theorem rearranges_retag {header : Int} {chunk : Block Status}
    (atHeader : layout.block header = some chunk) (isClosed : chunk.state.IsClosed)
    {status : Status} (newClosed : status.IsClosed) :
    Rearranges layout (layout.retag header chunk atHeader status) where
  covers := layout.covers_retag atHeader status
  fixed := by
    intro start block isOpen
    by_cases same : start = header
    · subst same
      rw [layout.retag_self, atHeader]
      constructor
      · intro isNew
        cases isNew
        exact absurd newClosed isOpen
      · intro isOld
        cases isOld
        exact absurd isClosed isOpen
    · rw [layout.retag_other atHeader status same]

theorem rearranges_merge {prevp freep : Int} {previous chunk : Block Status}
    (atPrev : layout.block prevp = some previous) (prevClosed : previous.state.IsClosed)
    (atFree : layout.block freep = some chunk) (isClosed : chunk.state.IsClosed)
    (adjacent : prevp + previous.size = freep) {status : Status} (newClosed : status.IsClosed) :
    Rearranges layout (layout.merge prevp freep previous chunk atPrev atFree adjacent status) where
  covers := layout.covers_merge atPrev atFree adjacent status
  fixed := by
    intro start block isOpen
    by_cases isPrev : start = prevp
    · subst isPrev
      rw [layout.merge_low, atPrev]
      constructor
      · intro isNew
        cases isNew
        exact absurd newClosed isOpen
      · intro isOld
        cases isOld
        exact absurd prevClosed isOpen
    · by_cases isFree : start = freep
      · subst isFree
        rw [layout.merge_high, atFree]
        constructor
        · exact nofun
        · intro isOld
          cases isOld
          exact absurd isClosed isOpen
      · rw [layout.merge_other atPrev atFree adjacent status isPrev isFree]

/-- Taking `freep` off the free list behind `front` keeps the links in order. -/
theorem sound_unlink {front back : List Int} {freep : Int}
    (sound : Sound arena heap layout (front ++ freep :: back)) :
    Linked (heap.setLargechunkNextfree (lastEntry arena.freelist front)
      (heap.largechunkNextfree freep)).largechunkNextfree arena.freelist (front ++ back) := by
  refine linked_unlink sound.listed.linked sound.entries_distinct ?_ ?_
  · rw [Heap.nextfree_set_nextfree, if_pos rfl]
  · intro entry differ
    rw [Heap.nextfree_set_nextfree, if_neg differ]

theorem on_list_retag_live {header : Int} {chunk : Block Status}
    (atHeader : layout.block header = some chunk) (other : Int) :
    OnList (layout.retag header chunk atHeader .live) other ↔
      OnList layout other ∧ other ≠ header := by
  by_cases same : other = header
  · subst same
    simp [OnList, layout.retag_self, Status.IsListed]
  · simp [OnList, layout.retag_other atHeader .live same, same]

theorem on_list_retag_free {header : Int} {chunk : Block Status}
    (atHeader : layout.block header = some chunk) (other : Int) :
    OnList (layout.retag header chunk atHeader .free) other ↔
      other = header ∨ OnList layout other := by
  by_cases same : other = header
  · subst same
    simp [OnList, layout.retag_self, Status.IsListed]
  · simp [OnList, layout.retag_other atHeader .free same, same]

theorem on_list_split {header : Int} {chunk : Block Status} (low high : Block Status)
    (atHeader : layout.block header = some chunk) (same : low.state.IsListed ↔ chunk.state.IsListed)
    (highOff : ¬ high.state.IsListed) (lowSize : 0 < low.size) (highSize : 0 < high.size)
    (sum : low.size + high.size = chunk.size) (other : Int) :
    OnList (layout.split header chunk atHeader low high lowSize highSize sum) other ↔
      OnList layout other := by
  constructor
  · rintro ⟨block, atOther, isListed⟩
    rcases layout.split_cases low high atHeader lowSize highSize sum atOther with
      ⟨rfl, rfl⟩ | ⟨_, rfl⟩ | ⟨_, old⟩
    · exact ⟨chunk, atHeader, same.mp isListed⟩
    · exact absurd isListed highOff
    · exact ⟨block, old, isListed⟩
  · rintro ⟨block, atOther, isListed⟩
    by_cases isHeader : other = header
    · subst isHeader
      rw [atHeader] at atOther
      cases atOther
      exact ⟨low, layout.split_low low high atHeader lowSize highSize sum, same.mpr isListed⟩
    · exact ⟨block, layout.split_old low high atHeader lowSize highSize sum atOther isHeader,
        isListed⟩

theorem on_list_merge {prevp freep : Int} {previous chunk : Block Status}
    (atPrev : layout.block prevp = some previous) (prevFree : previous.state = .free)
    (atFree : layout.block freep = some chunk) (adjacent : prevp + previous.size = freep)
    (other : Int) :
    OnList (layout.merge prevp freep previous chunk atPrev atFree adjacent .free) other ↔
      OnList layout other ∧ other ≠ freep := by
  have size := layout.nonempty prevp previous atPrev
  by_cases isPrev : other = prevp
  · subst isPrev
    have differ : other ≠ freep := by omega
    simp [OnList, layout.merge_low, atPrev, prevFree, Status.IsListed, differ]
  · by_cases isFree : other = freep
    · subst isFree
      simp [OnList, layout.merge_high]
    · simp [OnList, layout.merge_other atPrev atFree adjacent .free isPrev isFree, isFree]

/-- The free chunk `freep` becomes live and leaves the list. -/
theorem sound_exact_fit {front back : List Int} {freep : Int} {chunk : Block Status}
    (sound : Sound arena heap layout (front ++ freep :: back))
    (atFree : layout.block freep = some chunk) (isFree : chunk.state = .free) :
    Sound arena (exactFit heap (lastEntry arena.freelist front) freep).2
      (layout.retag freep chunk atFree .live) (front ++ back) := by
  have isClosed : chunk.state.IsClosed := Or.inr isFree
  have sized := (sound.tagged.sized freep chunk atFree (Or.inl isClosed)).2
  obtain ⟨last, atLast, lastWide⟩ := sound.entry (last_entry_of front back freep arena.freelist)
  obtain ⟨_, follower, atEnd, _⟩ := sound.tagged.ended freep chunk atFree isClosed
  have linkSet := tagged_set_nextfree sound.tagged atLast lastWide (heap.largechunkNextfree freep)
  have retagged := tagged_retag linkSet atFree isClosed status_live_closed
  refine ⟨?_, ⟨sound_unlink sound, nodup_without sound.listed.distinct, ?_⟩, ?_⟩
  · simpa only [exactFit, Heap.size_set_nextfree, sized, tag_live] using retagged
  · intro header
    rw [mem_without sound.listed.distinct, sound.listed.listed, on_list_retag_live]
  · intro unit written
    rw [layout.covers_retag]
    simp only [exactFit, Heap.size_set_nextfree, sized, Heap.written_set_prevsize,
      Heap.written_set_nextfree, List.mem_cons] at written
    rcases written with rfl | rfl | old
    · exact layout.covers_start atEnd
    · exact header_covered atLast lastWide (by omega) (by omega)
    · exact sound.inside unit old

/-- A chunk on the list, with its owner and follower known, is cut. -/
theorem sound_split {chain : List Int} {bestp units : Int} {chunk follower : Block Status}
    (sound : Sound arena heap layout chain) (atBest : layout.block bestp = some chunk)
    (isListed : chunk.state.IsListed) (owned : heap.largechunkArena bestp = arena.self)
    (wide : 3 ≤ units) (rest : 3 ≤ chunk.size - units)
    (atEnd : layout.block (bestp + chunk.size) = some follower)
    (notDummy : follower.state ≠ .dummy) (lowSize : 0 < chunk.size - units) (highSize : 0 < units)
    (sum : chunk.size - units + units = chunk.size) :
    Sound arena (split arena units heap bestp).2
      (layout.split bestp chunk atBest ⟨chunk.size - units, .free⟩ ⟨units, .live⟩
        lowSize highSize sum) chain := by
  have isChunk := listed_chunk isListed
  have sized := (sound.tagged.sized bestp chunk atBest isChunk).2
  have retagged := tagged_split sound.tagged atBest isChunk owned wide rest atEnd notDummy
    lowSize highSize sum
  refine ⟨retagged, ⟨?_, sound.listed.distinct, ?_⟩, ?_⟩
  · -- the ARENA word of the new chunk is no link of an entry
    refine reaches_congr sound.listed.linked ?_
    intro entry isEntry
    obtain ⟨block, atEntry, entryWide⟩ := sound.entry isEntry
    rw [split_writes sized rest]
    simp only [Heap.nextfree_set_prevsize, Heap.nextfree_set_arena, Heap.nextfree_set_size]
    rw [if_neg]
    intro same
    by_cases isBest : entry = bestp
    · omega
    · rcases layout.apart_or atEntry atBest isBest with below | above
      · omega
      · omega
  · intro header
    rw [sound.listed.listed, on_list_split _ _ atBest (iff_of_true (Or.inl rfl) isListed)
      live_not_listed]
  · intro unit written
    rw [layout.covers_split]
    rw [split_writes sized rest] at written
    simp only [Heap.written_set_prevsize, Heap.written_set_arena, Heap.written_set_size,
      List.mem_cons] at written
    have within : ∀ other, bestp ≤ other → other < bestp + chunk.size → layout.Covers other :=
      fun other above below => ⟨bestp, chunk, atBest, above, below⟩
    rcases written with rfl | rfl | rfl | rfl | rfl | old
    · exact layout.covers_start atEnd
    · exact within _ (by omega) (by omega)
    · exact within _ (by omega) (by omega)
    · exact within _ (by omega) (by omega)
    · exact within _ (by omega) (by omega)
    · exact sound.inside unit old

/-- What `coalescePrevious` writes, once both sizes are known. -/
theorem coalesce_writes {lastp freep prevp low high : Int}
    (prev : freep - heap.largechunkPrevsize freep = prevp)
    (prevSized : heap.largechunkSize prevp = low) (sized : heap.largechunkSize freep = high)
    (apart : freep ≠ prevp) :
    coalescePrevious heap lastp freep =
      ((heap.setLargechunkSize prevp (low + high)).setLargechunkPrevsize (freep + high)
        (low + high)).setLargechunkNextfree lastp (heap.largechunkNextfree freep) := by
  simp only [coalescePrevious, prev, prevSized, sized, Heap.size_set_size, if_neg apart, if_true,
    Heap.nextfree_set_prevsize, Heap.nextfree_set_size]

/-- The free chunk `freep` melts into the free chunk before it and leaves the list. -/
theorem sound_coalesce {front back : List Int} {prevp freep : Int}
    {previous chunk : Block Status}
    (sound : Sound arena heap layout (front ++ freep :: back))
    (atPrev : layout.block prevp = some previous) (prevFree : previous.state = .free)
    (atFree : layout.block freep = some chunk) (isFree : chunk.state = .free)
    (adjacent : prevp + previous.size = freep) :
    Sound arena (coalescePrevious heap (lastEntry arena.freelist front) freep)
      (layout.merge prevp freep previous chunk atPrev atFree adjacent .free) (front ++ back) := by
  have prevClosed : previous.state.IsClosed := Or.inr prevFree
  have isClosed : chunk.state.IsClosed := Or.inr isFree
  obtain ⟨prevWide, prevSized⟩ := sound.tagged.sized prevp previous atPrev (Or.inl prevClosed)
  obtain ⟨wide, sized⟩ := sound.tagged.sized freep chunk atFree (Or.inl isClosed)
  obtain ⟨prevTag, _⟩ := sound.tagged.ended prevp previous atPrev prevClosed
  obtain ⟨_, follower, atEnd, _⟩ := sound.tagged.ended freep chunk atFree isClosed
  rw [adjacent, prevFree, tag_free] at prevTag
  have entry := last_entry_of front back freep arena.freelist
  obtain ⟨last, atLast, lastWide⟩ := sound.entry entry
  rw [coalesce_writes (by omega) prevSized sized (by omega)]
  have merged := tagged_merge sound.tagged atPrev prevFree atFree isFree adjacent
  -- the entry before `freep` may be the chunk that grows
  have entryKept : ∃ block, (layout.merge prevp freep previous chunk atPrev atFree adjacent
      .free).block (lastEntry arena.freelist front) = some block ∧ 3 ≤ block.size := by
    by_cases isPrev : lastEntry arena.freelist front = prevp
    · rw [isPrev]
      exact ⟨_, layout.merge_low atPrev atFree adjacent .free, by dsimp only; omega⟩
    · have notFree : lastEntry arena.freelist front ≠ freep := by
        intro same
        have distinct := sound.entries_distinct
        rcases last_entry_mem arena.freelist front with isDummy | member
        · exact (List.nodup_cons.mp distinct).1
            (List.mem_append.mpr (Or.inr (List.mem_cons.mpr (Or.inl (isDummy.symm.trans same)))))
        · have kept := (mem_without sound.listed.distinct freep).mp
            (List.mem_append.mpr (Or.inl (same ▸ member)))
          exact kept.2 rfl
      exact ⟨last, (layout.merge_other atPrev atFree adjacent .free isPrev notFree).trans atLast,
        lastWide⟩
  obtain ⟨block, atEntry, entryWide⟩ := entryKept
  have unlinked := sound_unlink sound
  refine ⟨tagged_set_nextfree merged atEntry entryWide _,
    ⟨unlinked, nodup_without sound.listed.distinct, ?_⟩, ?_⟩
  · intro header
    rw [mem_without sound.listed.distinct, sound.listed.listed,
      on_list_merge atPrev prevFree atFree adjacent]
  · intro unit written
    rw [layout.covers_merge]
    simp only [Heap.written_set_nextfree, Heap.written_set_prevsize, Heap.written_set_size,
      List.mem_cons] at written
    rcases written with rfl | rfl | rfl | old
    · exact header_covered atLast lastWide (by omega) (by omega)
    · exact layout.covers_start atEnd
    · exact header_covered atPrev prevWide (by omega) (by omega)
    · exact sound.inside unit old

/-- A live chunk is freed. -/
theorem sound_free {chain : List Int} {freep : Int} {chunk : Block Status}
    (sound : Sound arena heap layout chain) (atFree : layout.block freep = some chunk)
    (isLive : chunk.state = .live) :
    Sound arena (doFreeLargeChunk arena heap freep) (layout.retag freep chunk atFree .free)
      (freep :: chain) := by
  have isClosed : chunk.state.IsClosed := Or.inl isLive
  obtain ⟨wide, sized⟩ := sound.tagged.sized freep chunk atFree (Or.inl isClosed)
  obtain ⟨_, follower, atEnd, _⟩ := sound.tagged.ended freep chunk atFree isClosed
  have differ : arena.freelist ≠ freep := by
    rintro rfl
    rw [sound.tagged.dummy] at atFree
    cases atFree
    exact nomatch isLive
  have absent : freep ∉ chain := by
    intro member
    obtain ⟨other, atOther, isListed⟩ := (sound.listed.listed freep).mp member
    rw [atFree] at atOther
    cases atOther
    rw [isLive] at isListed
    exact absurd isListed live_not_listed
  have writes : doFreeLargeChunk arena heap freep =
      ((heap.setLargechunkPrevsize (freep + chunk.size) chunk.size).setLargechunkNextfree freep
        (heap.largechunkNextfree arena.freelist)).setLargechunkNextfree arena.freelist freep := by
    simp only [doFreeLargeChunk, sized, Heap.nextfree_set_prevsize]
  have retagged := tagged_retag sound.tagged atFree isClosed status_free_closed
  have atNew := layout.retag_self atFree Status.free
  have atDummy := (layout.retag_other atFree Status.free differ).trans sound.tagged.dummy
  rw [writes]
  refine ⟨tagged_set_nextfree (tagged_set_nextfree retagged atNew wide _) atDummy (le_refl 3) _,
    ⟨?_, List.nodup_cons.mpr ⟨absent, sound.listed.distinct⟩, ?_⟩, ?_⟩
  · have positive := sound.tagged.placed freep chunk atFree
    refine linked_push sound.listed.linked (by omega) ?_ ?_ ?_
    · rw [Heap.nextfree_set_nextfree, if_pos rfl]
    · rw [Heap.nextfree_set_nextfree, if_neg differ.symm, Heap.nextfree_set_nextfree, if_pos rfl]
    · intro entry member
      have notDummy : entry ≠ arena.freelist := fun same => sound.dummy_unlisted (same ▸ member)
      have notFree : entry ≠ freep := fun same => absent (same ▸ member)
      rw [Heap.nextfree_set_nextfree, if_neg notDummy, Heap.nextfree_set_nextfree, if_neg notFree]
      rfl
  · intro header
    rw [List.mem_cons, sound.listed.listed, on_list_retag_free]
  · intro unit written
    rw [layout.covers_retag]
    simp only [Heap.written_set_nextfree, Heap.written_set_prevsize, List.mem_cons] at written
    rcases written with rfl | rfl | rfl | old
    · exact header_covered sound.tagged.dummy (le_refl 3) (by omega) (by omega)
    · exact header_covered atFree wide (by omega) (by omega)
    · exact layout.covers_start atEnd
    · exact sound.inside unit old

theorem exact_fit_hands_out {front back : List Int} {freep units : Int} {chunk : Block Status}
    (sound : Sound arena heap layout (front ++ freep :: back))
    (atFree : layout.block freep = some chunk) (isFree : chunk.state = .free)
    (fits : units ≤ chunk.size) :
    HandsOut arena units heap layout (exactFit heap (lastEntry arena.freelist front) freep) := by
  have header : (exactFit heap (lastEntry arena.freelist front) freep).1 - 2 = freep := by
    simp [exactFit]
  refine ⟨_, _, sound_exact_fit sound atFree isFree,
    rearranges_retag atFree (Or.inr isFree) status_live_closed, ?_, rfl, rfl, rfl⟩
  rw [header]
  refine ⟨?_, ⟨_, layout.retag_self atFree .live, rfl, fits⟩, ?_⟩
  · intro block atBlock isLive
    rw [atFree] at atBlock
    cases atBlock
    rw [isFree] at isLive
    exact nomatch isLive
  · intro start block differ _
    rw [layout.retag_other atFree .live differ]

/-- A chunk of the list with its owner and follower known serves a request. -/
theorem split_hands_out {chain : List Int} {bestp units : Int} {chunk follower : Block Status}
    (sound : Sound arena heap layout chain) (atBest : layout.block bestp = some chunk)
    (isListed : chunk.state.IsListed) (owned : heap.largechunkArena bestp = arena.self)
    (wide : 3 ≤ units) (rest : 3 ≤ chunk.size - units)
    (atEnd : layout.block (bestp + chunk.size) = some follower)
    (notDummy : follower.state ≠ .dummy) :
    ∃ renewed, Sound arena (split arena units heap bestp).2 renewed chain ∧
      (∀ unit, renewed.Covers unit ↔ layout.Covers unit) ∧
      (∀ start, start < bestp ∨ bestp + chunk.size ≤ start →
        renewed.block start = layout.block start) ∧
      (∀ start block, bestp ≤ start → start < bestp + chunk.size →
        renewed.block start = some block → block.state.IsClosed) ∧
      Serves layout renewed ((split arena units heap bestp).1 - 2) units ∧
      SameRecords heap (split arena units heap bestp).2 := by
  have sized := (sound.tagged.sized bestp chunk atBest (listed_chunk isListed)).2
  have lowSize : 0 < chunk.size - units := by omega
  have highSize : 0 < units := by omega
  have sum : chunk.size - units + units = chunk.size := by omega
  have header : (split arena units heap bestp).1 - 2 = bestp + (chunk.size - units) := by
    rw [split_writes sized rest]
    dsimp only
    omega
  have notLive : chunk.state ≠ .live := by
    rcases isListed with isFree | isRetired
    · rw [isFree]
      exact nofun
    · rw [isRetired]
      exact nofun
  refine ⟨_, sound_split sound atBest isListed owned wide rest atEnd notDummy lowSize highSize sum,
    layout.covers_split atBest lowSize highSize sum,
    fun start out => layout.split_outside _ _ atBest lowSize highSize sum out, ?_, ?_,
    rfl, rfl, rfl⟩
  · intro start block above below atStart
    rcases layout.split_inside _ _ atBest lowSize highSize sum above below atStart with
      ⟨_, rfl⟩ | ⟨_, rfl⟩
    · exact status_free_closed
    · exact status_live_closed
  · rw [header]
    refine ⟨?_, ⟨_, layout.split_high ⟨chunk.size - units, .free⟩ ⟨units, .live⟩ atBest lowSize
      highSize sum, rfl, le_refl _⟩, ?_⟩
    · intro block atBlock
      rw [layout.block_inside atBest (by omega) (by omega)] at atBlock
      exact nomatch atBlock
    · intro start block differ isLive
      by_cases inside : bestp ≤ start ∧ start < bestp + chunk.size
      · constructor
        · intro atNew
          rcases layout.split_inside _ _ atBest lowSize highSize sum inside.1 inside.2 atNew with
            ⟨_, rfl⟩ | ⟨isHigh, _⟩
          · exact nomatch isLive
          · exact absurd isHigh differ
        · intro atOld
          by_cases isBest : start = bestp
          · subst isBest
            rw [atBest] at atOld
            cases atOld
            exact absurd isLive notLive
          · rw [layout.block_inside atBest (by omega) inside.2] at atOld
            exact nomatch atOld
      · rw [layout.split_outside _ _ atBest lowSize highSize sum (by omega)]

theorem split_free_hands_out {chain : List Int} {bestp units : Int} {chunk : Block Status}
    (sound : Sound arena heap layout chain) (atBest : layout.block bestp = some chunk)
    (isFree : chunk.state = .free) (wide : 3 ≤ units) (rest : 3 ≤ chunk.size - units) :
    HandsOut arena units heap layout (split arena units heap bestp) := by
  have isClosed : chunk.state.IsClosed := Or.inr isFree
  obtain ⟨_, follower, atEnd, notDummy⟩ := sound.tagged.ended bestp chunk atBest isClosed
  obtain ⟨renewed, soundNew, covers, outside, inside, serves, records⟩ :=
    split_hands_out sound atBest (Or.inl isFree) (sound.tagged.owned bestp chunk atBest isClosed)
      wide rest atEnd notDummy
  refine ⟨renewed, chain, soundNew, ⟨covers, ?_⟩, serves, records⟩
  intro start block isOpen
  by_cases within : bestp ≤ start ∧ start < bestp + chunk.size
  · constructor
    · intro atNew
      exact absurd (inside start block within.1 within.2 atNew) isOpen
    · intro atOld
      by_cases isBest : start = bestp
      · subst isBest
        rw [atBest] at atOld
        cases atOld
        exact absurd isClosed isOpen
      · rw [layout.block_inside atBest (by omega) within.2] at atOld
        exact nomatch atOld
  · rw [outside start (by omega)]

theorem hands_out_after {first second : Heap} {before after : Layout Status} {units : Int}
    {result : Int × Heap} (rearranges : Rearranges before after) (keeps : KeepsLive before after)
    (records : SameRecords first second) (rest : HandsOut arena units second after result) :
    HandsOut arena units first before result := by
  obtain ⟨renewed, chain, sound, moved, serves, same⟩ := rest
  exact ⟨renewed, chain, sound, rearranges.trans moved, keeps.serves serves,
    same.1.trans records.1, same.2.1.trans records.2.1, same.2.2.trans records.2.2⟩

end Steps

end Sac2c.FreeList
