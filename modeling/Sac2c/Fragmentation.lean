import Sac2c.MeltedChunks
import Sac2c.BinOrder

/-!
How much more than it was asked for an arena of large chunks hands out. A free chunk with
`min_chunk_size` units to spare is to be split, and what is left of it stays on the free list.
A chunk that coalescing has made large enough is not split, whatever its size.
-/

namespace Sac2c.Fragmentation

open Headers LargeChunks Blocks Links BoundaryTags FreeList FreeListWalks AdjacentRows
open MeltedChunks LargeMachine LargeArenas Trace

section Model

/-- Some free chunk is large enough as it is, or the first that coalescing makes large enough
has less than `min_chunk_size` units to spare. -/
def Snug (arena : Arena) (heap : Heap) (units : Int) : Prop :=
  ∀ entries, Linked heap.largechunkNextfree arena.freelist entries →
    (∃ header, header ∈ entries ∧ units ≤ heap.largechunkSize header) ∨
    ∀ low high, FirstMelted heap entries units low high → high - low < units + arena.minChunkSize

/-- What a chunk may be cut from: an entry of the free list, or all of a new bin but the last
unit. -/
def Source (arena : Arena) (heap : Heap) (supply : Supply) (header total : Int) : Prop :=
  (∃ entries, Linked heap.largechunkNextfree arena.freelist entries ∧ header ∈ entries ∧
    heap.largechunkSize header = total) ∨
  (header = supply.bin ∧ total = arena.binsize - 1)

/-- The chunk handed out has less than `min_chunk_size` units to spare. If it was taken from a
larger one, that one was split, and the rest of it is on the free list. -/
structure Economical (arena : Arena) (before : Heap) (supply : Supply) (units pointer : Int)
    (after : Heap) : Prop where
  least : units ≤ after.largechunkSize (pointer - 2)
  below : after.largechunkSize (pointer - 2) < units + arena.minChunkSize
  rest : ∀ header total, Source arena before supply header total →
    units + arena.minChunkSize ≤ total → header ≤ pointer - 2 → pointer - 2 < header + total →
    after.largechunkSize (pointer - 2) = units ∧
      after.largechunkSize header = total - units ∧
      ∃ entries, Linked after.largechunkNextfree arena.freelist entries ∧ header ∈ entries

end Model

section Lists

variable {arena : Arena} {heap : Heap} {entries : List Int} {layout : Layout Status} {units : Int}

/-- The entries of the list are free chunks. -/
theorem entry_chunk (sound : Sound arena heap layout entries) (binned : Binned arena heap layout)
    {header : Int} (member : header ∈ entries) :
    ∃ chunk, layout.block header = some chunk ∧ chunk.state = .free ∧ 3 ≤ chunk.size ∧
      heap.largechunkSize header = chunk.size := by
  obtain ⟨chunk, atHeader, isFree, sized⟩ :=
    listed_free sound (binned_not_retired binned) member List.not_mem_nil
  exact ⟨chunk, atHeader, isFree, sound.tagged.wide atHeader (Or.inl (Or.inr isFree)), sized⟩

theorem entries_disjoint (sound : Sound arena heap layout entries)
    (binned : Binned arena heap layout) : Disjoint heap.largechunkSize (· ∈ entries) where
  nonempty := by
    intro start member
    obtain ⟨chunk, _, _, wide, sized⟩ := entry_chunk sound binned member
    omega
  apart := by
    intro left right leftIn rightIn differ
    obtain ⟨first, atLeft, _, _, leftSized⟩ := entry_chunk sound binned leftIn
    obtain ⟨second, atRight, _, _, rightSized⟩ := entry_chunk sound binned rightIn
    rw [leftSized, rightSized]
    exact layout.apart_or atLeft atRight differ

/-- Before the loop each free chunk is a row of its own. -/
theorem nothing_passed (sound : Sound arena heap layout entries)
    (small : ∀ header, header ∈ entries → heap.largechunkSize header < units) :
    Passed heap entries units [] heap layout where
  rows := by
    intro header chunk atHeader isFree
    have member : header ∈ entries :=
      (sound.listed.listed header).mpr ⟨chunk, atHeader, Or.inl isFree⟩
    have sized := (sound.tagged.sized header chunk atHeader (Or.inl (Or.inr isFree))).2
    have few := small header member
    rw [sized] at few
    rw [← sized]
    exact ⟨member, ⟨Row.first, fun absorbed => absurd absorbed.1 List.not_mem_nil,
      fun absorbed => absurd absorbed.1 List.not_mem_nil⟩, sized.symm ▸ few⟩
  tags := fun _ _ _ => Iff.rfl
  small := by
    intro before other between split
    exact absurd split.symm (by simp)

end Lists

section Requests

variable {arena : Arena} {heap after : Heap} {entries : List Int} {layout : Layout Status}
  {units : Int} {supply : Supply}

/-- A source around a unit of the arena is an entry of the free list. -/
theorem source_entry (sound : Sound arena heap layout entries) (binned : Binned arena heap layout)
    (fresh : FreshBin arena heap units supply) {header total unit : Int}
    (source : Source arena heap supply header total) (covered : layout.Covers unit)
    (above : header ≤ unit) (below : unit < header + total) :
    header ∈ entries ∧ heap.largechunkSize header = total := by
  rcases source with ⟨others, linked, member, sized⟩ | ⟨rfl, rfl⟩
  · rw [linked_unique sound.listed.linked linked]
    exact ⟨member, sized⟩
  · have outside := covered_apart (fresh_unused binned fresh) covered
    omega

/-- A whole chunk was handed out, and the free chunk that starts with it was too small to be
split. -/
theorem economical_whole (sound : Sound arena heap layout entries)
    (binned : Binned arena heap layout) (fresh : FreshBin arena heap units supply) {freep : Int}
    (member : freep ∈ entries)
    (few : heap.largechunkSize freep < units + arena.minChunkSize)
    (least : units ≤ after.largechunkSize freep)
    (below : after.largechunkSize freep < units + arena.minChunkSize) :
    Economical arena heap supply units (freep + 2) after := by
  have pointer : freep + 2 - 2 = freep := by omega
  refine ⟨by rwa [pointer], by rwa [pointer], ?_⟩
  rw [pointer]
  intro header total source large above under
  obtain ⟨chunk, atFree, _, _, sized⟩ := entry_chunk sound binned member
  obtain ⟨listed, isTotal⟩ :=
    source_entry sound binned fresh source (layout.covers_start atFree) above under
  obtain ⟨other, atHeader, _, _, otherSized⟩ := entry_chunk sound binned listed
  have same : header = freep := by
    by_contra differ
    rcases layout.apart_or atHeader atFree differ with apart | apart
    · omega
    · have size := layout.nonempty freep chunk atFree
      omega
  rw [same] at isTotal
  omega

/-- What the two parts of a split chunk measure. -/
theorem split_sizes (arena : Arena) {bestp size : Int} (sized : heap.largechunkSize bestp = size)
    (wide : 3 ≤ units) (rest : 3 ≤ size - units) :
    (split arena units heap bestp).1 = bestp + (size - units) + 2 ∧
      (split arena units heap bestp).2.largechunkSize (bestp + (size - units)) = units ∧
      (split arena units heap bestp).2.largechunkSize bestp = size - units := by
  rw [split_writes sized rest]
  simp only [Heap.size_set_prevsize, Heap.size_set_arena, Heap.size_set_size, if_true]
  refine ⟨trivial, ?_, ?_⟩
  · rw [if_neg (by omega), if_neg (by omega)]
  · rw [if_neg (by omega), if_neg (by omega), if_neg (by omega)]

theorem exact_fit_size (lastp : Int) {freep size : Int} (sized : heap.largechunkSize freep = size)
    (wide : 3 ≤ size) : (exactFit heap lastp freep).2.largechunkSize freep = size := by
  simp only [exactFit, Heap.size_set_prevsize, Heap.size_set_nextfree, sized]
  rw [if_neg (by omega)]

/-- The best chunk of the search is split. -/
theorem economical_split (sound : Sound arena heap layout entries)
    (binned : Binned arena heap layout) (fresh : FreshBin arena heap units supply) {bestp : Int}
    (member : bestp ∈ entries) (wide : 3 ≤ units) (min : 3 ≤ arena.minChunkSize)
    (large : units + arena.minChunkSize ≤ heap.largechunkSize bestp) :
    Economical arena heap supply units (split arena units heap bestp).1
      (split arena units heap bestp).2 := by
  obtain ⟨chunk, atBest, isFree, _, sized⟩ := entry_chunk sound binned member
  rw [sized] at large
  obtain ⟨pointer, high, low⟩ := split_sizes arena sized wide (by omega)
  obtain ⟨_, follower, atEnd, notDummy⟩ :=
    sound.tagged.ended bestp chunk atBest (Or.inr isFree)
  obtain ⟨renewed, soundNew, _⟩ := split_hands_out sound atBest (Or.inl isFree)
    (sound.tagged.owned bestp chunk atBest (Or.inr isFree)) wide (by omega) atEnd notDummy
  have returned : (split arena units heap bestp).1 - 2 = bestp + (chunk.size - units) := by omega
  refine ⟨?_, ?_, ?_⟩
  · rw [returned, high]
  · rw [returned, high]
    omega
  · intro header total source _ above under
    rw [returned] at above under ⊢
    obtain ⟨listed, isTotal⟩ := source_entry sound binned fresh source
      ⟨bestp, chunk, atBest, by omega, by omega⟩ above under
    obtain ⟨other, atHeader, _, _, otherSized⟩ := entry_chunk sound binned listed
    have same : header = bestp := by
      by_contra differ
      rcases layout.apart_or atHeader atBest differ with apart | apart
      · omega
      · omega
    subst same
    refine ⟨high, ?_, entries, soundNew.listed.linked, member⟩
    rw [low]
    omega

/-- A new bin is split. No entry of the free list was large enough. -/
theorem economical_new_bin (sound : Sound arena heap layout entries)
    (small : ∀ header, header ∈ entries → heap.largechunkSize header < units)
    (wide : 3 ≤ units) (min : 3 ≤ arena.minChunkSize) (room : units + 3 ≤ arena.binsize - 1)
    {coalesced : Heap} {renewed : Layout Status} {nodes : List Int}
    (soundAfter : Sound arena coalesced renewed nodes) (binned : Binned arena coalesced renewed)
    (fresh : FreshBin arena coalesced units supply) :
    Economical arena heap supply units (split arena units (newBin arena supply coalesced) supply.bin).1
      (split arena units (newBin arena supply coalesced) supply.bin).2 := by
  have unused := fresh_unused binned fresh
  have chunkWide : 3 ≤ arena.binsize - 1 := by omega
  obtain ⟨soundBin, owned⟩ := new_bin_sound soundAfter fresh.1 chunkWide unused
  have atBin := with_bin_chunk chunkWide unused
  have sized := (soundBin.tagged.sized supply.bin _ atBin (listed_chunk (Or.inr rfl))).2
  obtain ⟨pointer, high, low⟩ := split_sizes arena sized wide (by dsimp only; omega)
  obtain ⟨_, soundNew, _⟩ := split_hands_out soundBin atBin (Or.inr rfl) owned wide
    (by dsimp only; omega) (with_bin_stop chunkWide unused) nofun
  dsimp only at pointer high low
  have returned : (split arena units (newBin arena supply coalesced) supply.bin).1 - 2 =
      supply.bin + (arena.binsize - 1 - units) := by omega
  refine ⟨?_, ?_, ?_⟩
  · rw [returned, high]
  · rw [returned, high]
    omega
  · rw [returned]
    rintro header total (⟨others, linked, member, isTotal⟩ | ⟨rfl, rfl⟩) large _ _
    · rw [← linked_unique sound.listed.linked linked] at member
      have few := small header member
      omega
    · exact ⟨high, low, _, soundNew.listed.linked, List.mem_cons_self ..⟩

theorem snug_of_large (sound : Sound arena heap layout entries) {header : Int}
    (member : header ∈ entries) (enough : units ≤ heap.largechunkSize header) :
    Snug arena heap units := by
  intro others linked
  rw [← linked_unique sound.listed.linked linked]
  exact Or.inl ⟨header, member, enough⟩

/-- If no entry is large enough, the chunk that coalescing comes to decides. -/
theorem snug_iff_of_small (sound : Sound arena heap layout entries)
    (small : ∀ header, header ∈ entries → heap.largechunkSize header < units) :
    Snug arena heap units ↔ ∀ low high, FirstMelted heap entries units low high →
      high - low < units + arena.minChunkSize := by
  constructor
  · intro snug
    rcases snug entries sound.listed.linked with ⟨header, member, enough⟩ | fits
    · exact absurd enough (not_le.mpr (small header member))
    · exact fits
  · intro fits others linked
    rw [← linked_unique sound.listed.linked linked]
    exact Or.inr fits

/-- A melted chunk that reaches the request is handed out whole. -/
theorem melted_economical_iff (sound : Sound arena heap layout entries)
    (binned : Binned arena heap layout) (fresh : FreshBin arena heap units supply)
    (wide : 3 ≤ units)
    (small : ∀ header, header ∈ entries → heap.largechunkSize header < units)
    {coalesced : Heap} {low high lastp : Int} (first : FirstMelted heap entries units low high)
    (sized : coalesced.largechunkSize low = high - low) :
    Economical arena heap supply units (exactFit coalesced lastp low).1
        (exactFit coalesced lastp low).2 ↔ Snug arena heap units := by
  obtain ⟨passed, freep, rest, whole, melts, enough, earlier⟩ := first
  have size := exact_fit_size lastp sized (by omega)
  have pointer : (exactFit coalesced lastp low).1 = low + 2 := rfl
  rw [snug_iff_of_small sound small, pointer]
  constructor
  · intro economical low' high' other
    have below := economical.below
    rw [show low + 2 - 2 = low by omega, size] at below
    obtain ⟨rfl, rfl⟩ := first_melted_unique (entries_disjoint sound binned)
      ⟨passed, freep, rest, whole, melts, enough, earlier⟩ other
    exact below
  · intro fits
    have below := fits low high ⟨passed, freep, rest, whole, melts, enough, earlier⟩
    have few := small low melts.listed
    exact economical_whole sound binned fresh melts.listed (by omega) (by omega) (by omega)

theorem after_search_economical_iff (large : IsLarge arena)
    (sound : Sound arena heap layout entries) (binned : Binned arena heap layout)
    (fresh : FreshBin arena heap units supply) (wide : 3 ≤ units)
    (room : units + 3 ≤ arena.binsize - 1)
    (small : ∀ header, header ∈ entries → heap.largechunkSize header < units) {fuel : Nat}
    {result : Int × Heap} (returned : afterSearch arena supply fuel units heap = some result) :
    Economical arena heap supply units result.1 result.2 ↔ Snug arena heap units := by
  have min := large.min
  have noWilderness : ¬ heap.largechunkSize (heap.wilderness arena.num) ≥ units + 3 := by
    rw [binned.wilderness, sound.tagged.idle.1]
    omega
  have soundList : Sound arena heap layout ([] ++ entries) := sound
  have spec : ∀ coalescing, coalesceFreeList arena units fuel heap arena.freelist
      (heap.largechunkNextfree arena.freelist) = some coalescing →
      Coalesced arena units entries.length heap layout coalescing :=
    (coalesce_spec [] fuel soundList (binned_not_retired binned)
      (coalescing_avoids_none units fuel heap _ _)).1
  simp only [afterSearch, if_neg noWilderness] at returned
  cases found : coalesceFreeList arena units fuel heap arena.freelist
      (heap.largechunkNextfree arena.freelist) with
  | none =>
      rw [found] at returned
      cases returned
  | some coalescing =>
      have foreseen := coalesce_foreseen (entries_disjoint sound binned) sound.listed.distinct min
        fuel soundList (fun header chunk atHeader isRetired =>
          absurd (binned_not_retired binned header chunk atHeader isRetired) List.not_mem_nil)
        rfl (nothing_passed sound small) found
      have coalesced := spec coalescing found
      rw [found] at returned
      cases coalescing with
      | split coalesced bestp => exact foreseen.elim
      | exactFit coalesced low =>
          obtain ⟨high, first, sized⟩ := foreseen
          dsimp only at returned
          split at returned
          · cases returned
          · cases returned
            exact melted_economical_iff sound binned fresh wide small first sized
      | exhausted coalesced' =>
          obtain ⟨renewed, ⟨nodes, soundAfter, _⟩, rearranges, _, records⟩ := coalesced
          have binnedAfter := binned_rearranged binned rearranges records
          have freshAfter : FreshBin arena coalesced' units supply := by
            rw [FreshBin, records.1]
            exact fresh
          simp only [after_coalescing_extends large soundAfter binnedAfter,
            Option.some.injEq] at returned
          subst returned
          refine iff_of_true (economical_new_bin sound small wide min room soundAfter binnedAfter
            freshAfter) ((snug_iff_of_small sound small).mpr ?_)
          exact fun low high first => absurd first (foreseen low high)

/-- Of the four ways to serve a request only the one by coalescing depends on the condition. -/
theorem malloc_economical_iff (large : IsLarge arena) (sound : Sound arena heap layout entries)
    (binned : Binned arena heap layout) (fresh : FreshBin arena heap units supply)
    (wide : 3 ≤ units) (room : units + 3 ≤ arena.binsize - 1) {fuel : Nat} {result : Int × Heap}
    (returned : mallocLargeChunk arena supply fuel units heap = some result) :
    Economical arena heap supply units result.1 result.2 ↔ Snug arena heap units := by
  have min := large.min
  rw [mallocLargeChunk] at returned
  cases found : searchFreeList arena units heap fuel arena.freelist
      (heap.largechunkNextfree arena.freelist) 0 with
  | none =>
      rw [found] at returned
      cases returned
  | some search =>
      have isFound := search_found fuel sound.listed.linked found
      rw [found] at returned
      cases search with
      | exactFit lastp freep =>
          cases returned
          obtain ⟨front, back, rfl, _, enough, below⟩ := isFound
          have member : freep ∈ front ++ freep :: back :=
            List.mem_append.mpr (Or.inr (List.mem_cons_self ..))
          obtain ⟨chunk, _, _, chunkWide, sized⟩ := entry_chunk sound binned member
          have size := exact_fit_size lastp sized chunkWide
          refine iff_of_true ?_ (snug_of_large sound member enough)
          exact economical_whole sound binned fresh member below (by omega) (by omega)
      | exhausted bestp =>
          dsimp only at returned
          rcases isFound with ⟨rfl, small⟩ | ⟨member, enough⟩
          · rw [if_neg (by simp)] at returned
            exact after_search_economical_iff large sound binned fresh wide room small returned
          · obtain ⟨chunk, atBest, _⟩ := entry_chunk sound binned member
            have placed := sound.tagged.placed bestp chunk atBest
            rw [if_pos (by omega)] at returned
            cases returned
            exact iff_of_true (economical_split sound binned fresh member wide min enough)
              (snug_of_large sound member (by omega))

end Requests

section Runs

/-- The requests of at least `min_chunk_size` units that a bin has room for. -/
def Serviceable (arena : Arena) (units : Int) : Prop :=
  arena.minChunkSize ≤ units ∧ units + 3 ≤ arena.binsize - 1

/-- In every reachable state a request is served without waste if and only if the free list does
not make the loop melt too large a chunk for it. -/
theorem large_chunks_economical (arena : Arena) (large : IsLarge arena) (arenaAt : Int → Arena)
    (start state : State) (labels : List Label) (initial : DummyOnly arena start)
    (run : Run (Step arena arenaAt (Serviceable arena) (FreshBin arena)) start labels state)
    (units : Int) (serviceable : Serviceable arena units) (supply : Supply)
    (fresh : FreshBin arena state.heap units supply) (fuel : Nat) (pointer : Int) (after : Heap)
    (returned : mallocLargeChunk arena supply fuel units state.heap = some (pointer, after)) :
    Economical arena state.heap supply units pointer after ↔ Snug arena state.heap units := by
  have min := large.min
  have served : ∀ units, Serviceable arena units → 3 ≤ units ∧ units + 3 ≤ arena.binsize - 1 :=
    fun units fits => ⟨le_trans min fits.1, fits.2⟩
  obtain ⟨layout, chain, sound, binned, _⟩ :=
    run.invariant (BinOrder.Valid arena) (BinOrder.valid_step large arenaAt served)
      (BinOrder.dummy_only_valid initial)
  obtain ⟨wide, room⟩ := served units serviceable
  exact malloc_economical_iff large sound binned fresh wide room returned

end Runs

section Example

def arena7 : Arena := ⟨7, 4096, 16, 32768, 1025⟩

theorem arena7_is_large : IsLarge arena7 :=
  ⟨Or.inr (Or.inr rfl), rfl, rfl, by decide⟩

theorem set_up_dummy_only7 : DummyOnly arena7 BinOrder.setUp :=
  ⟨by decide, rfl, rfl, rfl, rfl, rfl, rfl, rfl⟩

def firstBin : Supply := ⟨100, 0, 0⟩

def nextBin : Supply := ⟨40000, 0, 0⟩

theorem first_bin_free {heap : Heap} (none : heap.obtained = []) (units : Int) :
    FreshBin arena7 heap units firstBin := by
  refine ⟨by decide, ?_⟩
  rintro unit above below (⟨segment, member, _⟩ | ⟨_, dummy⟩)
  · rw [none] at member
    exact absurd member List.not_mem_nil
  · have high : unit < 19 := dummy
    have low : 100 ≤ unit := above
    omega

theorem next_bin_free {heap : Heap} (one : heap.obtained = [(100, 32768)]) (units : Int) :
    FreshBin arena7 heap units nextBin := by
  refine ⟨by decide, ?_⟩
  rintro unit above below (⟨segment, member, _, inside⟩ | ⟨_, dummy⟩)
  · rw [one, List.mem_singleton] at member
    subst member
    have low : 40000 ≤ unit := above
    have high : unit < 100 + 32768 := inside
    omega
  · have high : unit < 19 := dummy
    have low : 40000 ≤ unit := above
    omega

theorem large_chunks_economical_first_chunk : ∃ after,
    mallocLargeChunk arena7 firstBin 1 8000 BinOrder.setUp.heap = some (24869, after) ∧
      Economical arena7 BinOrder.setUp.heap firstBin 8000 24869 after := by
  obtain ⟨after, returned⟩ : ∃ after, mallocLargeChunk arena7 firstBin 1 8000
      BinOrder.setUp.heap = some (24869, after) := ⟨_, rfl⟩
  refine ⟨after, returned, (large_chunks_economical arena7 arena7_is_large (fun _ => arena7)
    BinOrder.setUp BinOrder.setUp [] set_up_dummy_only7 (Run.refl _) 8000 ⟨by decide, by decide⟩
    firstBin (first_bin_free rfl 8000) 1 24869 after returned).mpr ?_⟩
  intro entries linked
  have none : entries = [] := linked_unique linked rfl
  right
  rintro low high ⟨passed, freep, rest, whole, _⟩
  rw [none] at whole
  exact absurd whole.symm (by simp)

/-- Four chunks of arena 7 fill a bin. When the upper two, of 8000 units each, are free again, a
request for 8100 units gets both of them. -/
theorem neighbours_handed_out_whole : ∃ labels state after,
    Run (Step arena7 (fun _ => arena7) (Serviceable arena7) (FreshBin arena7)) BinOrder.setUp
        labels state ∧
      FreshBin arena7 state.heap 8100 nextBin ∧
      mallocLargeChunk arena7 nextBin 4 8100 state.heap = some (16869, after) ∧
      after.largechunkSize 16867 = 16000 ∧
      ¬ Economical arena7 state.heap nextBin 8100 16869 after := by
  obtain ⟨labels, state, run, one, after, returned, size⟩ : ∃ labels state,
      Run (Step arena7 (fun _ => arena7) (Serviceable arena7) (FreshBin arena7)) BinOrder.setUp
          labels state ∧
        state.heap.obtained = [(100, 32768)] ∧
        ∃ after, mallocLargeChunk arena7 nextBin 4 8100 state.heap = some (16869, after) ∧
          after.largechunkSize 16867 = 16000 :=
    ⟨_, _, Run.next (Step.malloc BinOrder.setUp 8000 _ firstBin 4 _ ⟨by decide, by decide⟩
        (first_bin_free rfl 8000) rfl)
      (Run.next (Step.malloc _ 8000 _ nextBin 4 _ ⟨by decide, by decide⟩
        (next_bin_free rfl 8000) rfl)
      (Run.next (Step.malloc _ 8192 _ nextBin 4 _ ⟨by decide, by decide⟩
        (next_bin_free rfl 8192) rfl)
      (Run.next (Step.malloc _ 8192 _ nextBin 4 _ ⟨by decide, by decide⟩
        (next_bin_free rfl 8192) rfl)
      (Run.next (Step.free _ 24869 (by decide))
      (Run.next (Step.free _ 16869 (by decide)) (Run.refl _)))))), rfl, _, rfl, by decide⟩
  refine ⟨labels, state, after, run, next_bin_free one 8100, returned, size, ?_⟩
  intro economical
  have below := economical.below
  rw [show (16869 : Int) - 2 = 16867 by decide, size] at below
  exact absurd below (by decide)

end Example

end Sac2c.Fragmentation
