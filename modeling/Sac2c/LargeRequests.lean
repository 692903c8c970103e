import Sac2c.FreeListWalks
import Sac2c.Trace

/-!
`SAC_HM_MallocLargeChunk` up to the point where the free list has been coalesced
in vain, for large-chunk arenas and the top arena alike. What an arena keeps
besides the order of its header words is a parameter; it has to survive whatever
the steps on the free list do to the layout.
-/

namespace Sac2c.LargeRequests

open Headers LargeChunks Blocks Links BoundaryTags FreeList FreeListWalks Trace

/-- The chunk behind the pointer was handed out and the arena is in order. -/
def Delivers (kept : Heap → Layout Status → Prop) (arena : Arena) (units : Int)
    (layout : Layout Status) (result : Int × Heap) : Prop :=
  ∃ renewed chain, Sound arena result.2 renewed chain ∧ kept result.2 renewed ∧
    Serves layout renewed (result.1 - 2) units

/-- `kept` does not depend on what only rearranges live and free chunks. -/
def Stable (kept : Heap → Layout Status → Prop) : Prop :=
  ∀ heap after layout renewed, kept heap layout → Rearranges layout renewed →
    SameRecords heap after → kept after renewed

section Requests

variable {kept : Heap → Layout Status → Prop} {arena : Arena} {heap : Heap}
  {layout : Layout Status} {chain : List Int} {units : Int} {supply : Supply}
  {avoided : List Int} {ended : Prop}

theorem delivers_of_hands_out (stable : Stable kept) (keeps : kept heap layout)
    {result : Int × Heap} (handsOut : HandsOut arena units heap layout result) :
    Delivers kept arena units layout result := by
  obtain ⟨renewed, nodes, sound, rearranges, serves, records⟩ := handsOut
  exact ⟨renewed, nodes, sound, stable heap result.2 layout renewed keeps rearranges records,
    serves⟩

theorem delivers_after {before after : Layout Status} (keeps : KeepsLive before after)
    {result : Int × Heap} (delivers : Delivers kept arena units after result) :
    Delivers kept arena units before result := by
  obtain ⟨renewed, nodes, sound, order, serves⟩ := delivers
  exact ⟨renewed, nodes, sound, order, keeps.serves serves⟩

theorem after_search_outcome (stable : Stable kept) (sound : Sound arena heap layout chain)
    (keeps : kept heap layout) (wide : 3 ≤ units) (min : 3 ≤ arena.minChunkSize)
    (retired : ∀ header chunk, layout.block header = some chunk → chunk.state = .retired →
      header ∈ avoided) {fuel : Nat}
    (wilderness : heap.largechunkSize (heap.wilderness arena.num) ≥ units + 3 →
      Delivers kept arena units layout
        (splitWilderness arena units heap (heap.wilderness arena.num)))
    (avoids : heap.largechunkSize (heap.wilderness arena.num) < units + 3 →
      CoalescingAvoids avoided units fuel heap arena.freelist
        (heap.largechunkNextfree arena.freelist))
    (rest : ∀ after renewed nodes,
      heap.largechunkSize (heap.wilderness arena.num) < units + 3 →
      coalesceFreeList arena units fuel heap arena.freelist
        (heap.largechunkNextfree arena.freelist) = some (.exhausted after) →
      Sound arena after renewed nodes → kept after renewed → Rearranges layout renewed →
      SameRecords heap after →
      Outcome (Delivers kept arena units renewed) (nodes.length < fuel) ended
        (afterCoalescing arena supply fuel units after)) :
    Outcome (Delivers kept arena units layout) (chain.length < fuel) ended
      (afterSearch arena supply fuel units heap) := by
  simp only [afterSearch]
  by_cases large : heap.largechunkSize (heap.wilderness arena.num) ≥ units + 3
  · rw [if_pos large]
    exact wilderness large
  · rw [if_neg large]
    have soundList : Sound arena heap layout ([] ++ chain) := sound
    obtain ⟨coalesced, ends⟩ := coalesce_spec avoided fuel soundList retired
      (avoids (not_le.mp large))
    simp only [lastEntry] at coalesced ends
    cases found : coalesceFreeList arena units fuel heap arena.freelist
        (heap.largechunkNextfree arena.freelist) with
    | none =>
        intro enough
        obtain ⟨coalescing, some⟩ := ends enough
        rw [found] at some
        exact nomatch some
    | some coalescing =>
        have result := coalesced coalescing found
        cases coalescing with
        | split after bestp =>
            exact delivers_of_hands_out stable keeps (coalesced_split_hands_out wide min result)
        | exactFit after freep =>
            obtain ⟨handsOut, walks⟩ := coalesced_exact_fit_hands_out result fuel
            dsimp only
            cases walked : findPredecessor after freep fuel arena.freelist with
            | none =>
                intro enough
                obtain ⟨lastp, some⟩ := walks enough
                rw [walked] at some
                exact nomatch some
            | some lastp =>
                exact delivers_of_hands_out stable keeps (handsOut lastp walked)
        | exhausted after =>
            obtain ⟨renewed, ⟨nodes, soundAfter, short⟩, rearranges, live, records⟩ := result
            have outcome := rest after renewed nodes (not_le.mp large) found soundAfter
              (stable heap after layout renewed keeps rearranges records) rearranges records
            exact outcome.imp (fun _ => delivers_after live)
              (fun enough => Nat.lt_of_le_of_lt short enough) id

/-- Every way to serve a request from the free list keeps the arena in order. -/
theorem malloc_outcome (stable : Stable kept) (sound : Sound arena heap layout chain)
    (keeps : kept heap layout) (wide : 3 ≤ units) (min : 3 ≤ arena.minChunkSize)
    (retired : ∀ header chunk, layout.block header = some chunk → chunk.state = .retired →
      header ∈ avoided) {fuel : Nat}
    (avoids : ∀ found, searchFreeList arena units heap fuel arena.freelist
      (heap.largechunkNextfree arena.freelist) 0 = some found → SearchAvoids avoided found)
    (rest : searchFreeList arena units heap fuel arena.freelist
        (heap.largechunkNextfree arena.freelist) 0 = some (.exhausted 0) →
      Outcome (Delivers kept arena units layout) (chain.length < fuel) ended
        (afterSearch arena supply fuel units heap)) :
    Outcome (Delivers kept arena units layout) (chain.length < fuel) ended
      (mallocLargeChunk arena supply fuel units heap) := by
  simp only [mallocLargeChunk]
  cases found : searchFreeList arena units heap fuel arena.freelist
      (heap.largechunkNextfree arena.freelist) 0 with
  | none =>
      intro enough
      obtain ⟨search, some⟩ := search_returns fuel sound.listed.linked enough
      rw [found] at some
      exact nomatch some
  | some search =>
      obtain ⟨exact, splitting⟩ := search_hands_out sound wide min retired found
        (avoids search found)
      cases search with
      | exactFit lastp freep =>
          exact delivers_of_hands_out stable keeps (exact lastp freep rfl)
      | exhausted bestp =>
          by_cases nonnull : bestp ≠ 0
          · simp only [if_pos nonnull]
            exact delivers_of_hands_out stable keeps (splitting bestp rfl nonnull)
          · simp only [if_neg nonnull]
            exact rest (by rw [found, not_not.mp nonnull])

end Requests

end Sac2c.LargeRequests
