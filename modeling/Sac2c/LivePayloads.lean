import Sac2c.MeltedChunks
import Sac2c.LargeArenas

/-!
What a request to an arena of large chunks leaves alone. The first unit of a chunk has the
PREVSIZE word, which tells about the chunk before; the units behind it, with the SIZE and ARENA
words and the payload, stay as they are as long as the chunk is live, whatever the allocator
does to find memory.
-/

namespace Sac2c.LivePayloads

open Headers LargeChunks Blocks Links BoundaryTags FreeList FreeListWalks MeltedChunks LargeArenas

/-- No live chunk has the unit behind its first one. -/
def Apart (layout : Layout Status) (unit : Int) : Prop :=
  ∀ start block, layout.block start = some block → block.state = .live →
    unit ≤ start ∨ start + block.size ≤ unit

/-- The units behind the first one of each live chunk are the same. -/
def Untouched (layout : Layout Status) (heap after : Heap) : Prop :=
  ∀ start block, layout.block start = some block → block.state = .live →
    ∀ unit, start < unit → unit < start + block.size →
      after.first unit = heap.first unit ∧ after.second unit = heap.second unit

section Units

variable {layout renewed : Layout Status} {start unit : Int} {block : Block Status}

theorem apart_start (atStart : layout.block start = some block) : Apart layout start := by
  intro other live atOther _
  have size := layout.nonempty start block atStart
  by_cases same : start = other
  · exact Or.inl (le_of_eq same)
  · rcases layout.apart_or atStart atOther same with before | after
    · exact Or.inl (by omega)
    · exact Or.inr after

theorem apart_within (atStart : layout.block start = some block) (notLive : block.state ≠ .live)
    (above : start ≤ unit) (below : unit < start + block.size) : Apart layout unit := by
  intro other live atOther isLive
  by_cases same : start = other
  · subst same
    rw [atStart] at atOther
    cases atOther
    exact absurd isLive notLive
  · rcases layout.apart_or atStart atOther same with before | after
    · exact Or.inl (by omega)
    · exact Or.inr (by omega)

theorem apart_uncovered (uncovered : ¬ layout.Covers unit) : Apart layout unit := by
  intro other live atOther _
  by_contra inside
  exact uncovered ⟨other, live, atOther, by omega, by omega⟩

/-- The dummy entry and the free chunks have their links where no live chunk is. -/
theorem apart_link {arena : Arena} {heap : Heap} {chain : List Int} {entry : Int}
    (sound : Sound arena heap layout chain) (isEntry : entry = arena.freelist ∨ entry ∈ chain) :
    Apart layout (entry + 2) := by
  rcases isEntry with rfl | member
  · exact apart_within sound.tagged.dummy (by decide) (by omega) (by dsimp only; omega)
  · obtain ⟨chunk, atEntry, isListed⟩ := (sound.listed.listed entry).mp member
    have wide := sound.tagged.wide atEntry (listed_chunk isListed)
    refine apart_within atEntry ?_ (by omega) (by omega)
    intro isLive
    rw [isLive] at isListed
    exact live_not_listed isListed

variable {first second third : Heap}

theorem Untouched.refl (layout : Layout Status) (heap : Heap) : Untouched layout heap heap :=
  fun _ _ _ _ _ _ _ => ⟨rfl, rfl⟩

theorem Untouched.trans (earlier : Untouched layout first second)
    (keeps : KeepsLive layout renewed) (later : Untouched renewed second third) :
    Untouched layout first third := by
  intro start block atStart isLive unit above below
  have old := earlier start block atStart isLive unit above below
  have new := later start block ((keeps start block isLive).mpr atStart) isLive unit above below
  exact ⟨new.1.trans old.1, new.2.trans old.2⟩

/-- Writing elsewhere leaves the live chunks alone. -/
theorem untouched_of_writes {heap after : Heap} (units : List Int)
    (same : ∀ unit, unit ∉ units →
      after.first unit = heap.first unit ∧ after.second unit = heap.second unit)
    (apart : ∀ unit, unit ∈ units → Apart layout unit) : Untouched layout heap after := by
  intro start block atStart isLive unit above below
  refine same unit ?_
  intro written
  rcases apart unit written start block atStart isLive with before | behind
  · omega
  · omega

end Units

section Steps

variable {arena : Arena} {heap : Heap} {layout : Layout Status} {chain : List Int} {units : Int}

theorem exact_fit_untouched {front back : List Int} {freep : Int} {chunk : Block Status}
    (sound : Sound arena heap layout (front ++ freep :: back))
    (atFree : layout.block freep = some chunk) (isFree : chunk.state = .free) :
    Untouched layout heap (exactFit heap (lastEntry arena.freelist front) freep).2 := by
  have sized := (sound.tagged.sized freep chunk atFree (Or.inl (Or.inr isFree))).2
  obtain ⟨_, follower, atEnd, _⟩ := sound.tagged.ended freep chunk atFree (Or.inr isFree)
  refine untouched_of_writes [lastEntry arena.freelist front + 2, freep + chunk.size] ?_ ?_
  · intro unit elsewhere
    simp only [List.mem_cons, List.not_mem_nil, or_false, not_or] at elsewhere
    simp only [exactFit, Heap.size_set_nextfree, sized, Heap.first_set_prevsize,
      Heap.first_set_nextfree, Heap.second_set_prevsize, Heap.second_set_nextfree,
      if_neg elsewhere.1, if_neg elsewhere.2, and_self]
  · intro unit member
    simp only [List.mem_cons, List.not_mem_nil, or_false] at member
    rcases member with rfl | rfl
    · exact apart_link sound (last_entry_of front back freep arena.freelist)
    · exact apart_start atEnd

theorem split_untouched {bestp : Int} {chunk follower : Block Status}
    (sound : Sound arena heap layout chain) (atBest : layout.block bestp = some chunk)
    (isListed : chunk.state.IsListed) (wide : 3 ≤ units) (rest : 3 ≤ chunk.size - units)
    (atEnd : layout.block (bestp + chunk.size) = some follower) :
    Untouched layout heap (split arena units heap bestp).2 := by
  have sized := (sound.tagged.sized bestp chunk atBest (listed_chunk isListed)).2
  have notLive : chunk.state ≠ .live := by
    intro isLive
    rw [isLive] at isListed
    exact live_not_listed isListed
  refine untouched_of_writes [bestp + 1, bestp + (chunk.size - units),
    bestp + (chunk.size - units) + 1, bestp + chunk.size] ?_ ?_
  · intro unit elsewhere
    simp only [List.mem_cons, List.not_mem_nil, or_false, not_or] at elsewhere
    obtain ⟨size, high, highSize, stop⟩ := elsewhere
    rw [split_writes sized rest]
    simp only [Heap.first_set_prevsize, Heap.first_set_arena, Heap.first_set_size,
      Heap.second_set_prevsize, Heap.second_set_arena, Heap.second_set_size, if_neg size,
      if_neg high, if_neg highSize, if_neg stop, and_self]
  · intro unit member
    simp only [List.mem_cons, List.not_mem_nil, or_false] at member
    rcases member with rfl | rfl | rfl | rfl
    · exact apart_within atBest notLive (by omega) (by omega)
    · exact apart_within atBest notLive (by omega) (by omega)
    · exact apart_within atBest notLive (by omega) (by omega)
    · exact apart_start atEnd

theorem coalesce_previous_untouched {front back : List Int} {freep : Int} {chunk : Block Status}
    (sound : Sound arena heap layout (front ++ freep :: back))
    (atFree : layout.block freep = some chunk) (isFree : chunk.state = .free)
    (adjacent : heap.largechunkPrevsize freep > 0) :
    Untouched layout heap (coalescePrevious heap (lastEntry arena.freelist front) freep) := by
  obtain ⟨previous, atPrev, prevFree, meets⟩ :=
    previous_chunk sound.tagged atFree isFree adjacent
  have sized := (sound.tagged.sized freep chunk atFree (Or.inl (Or.inr isFree))).2
  obtain ⟨prevWide, prevSized⟩ := sound.tagged.sized _ previous atPrev (Or.inl (Or.inr prevFree))
  obtain ⟨_, follower, atEnd, _⟩ := sound.tagged.ended freep chunk atFree (Or.inr isFree)
  refine untouched_of_writes [freep - heap.largechunkPrevsize freep + 1, freep + chunk.size,
    lastEntry arena.freelist front + 2] ?_ ?_
  · intro unit elsewhere
    simp only [List.mem_cons, List.not_mem_nil, or_false, not_or] at elsewhere
    obtain ⟨size, stop, link⟩ := elsewhere
    rw [coalesce_writes rfl prevSized sized (by omega)]
    simp only [Heap.first_set_nextfree, Heap.first_set_prevsize, Heap.first_set_size,
      Heap.second_set_nextfree, Heap.second_set_prevsize, Heap.second_set_size, if_neg size,
      if_neg stop, if_neg link, and_self]
  · intro unit member
    simp only [List.mem_cons, List.not_mem_nil, or_false] at member
    rcases member with rfl | rfl | rfl
    · refine apart_within atPrev ?_ (by omega) (by omega)
      rw [prevFree]
      decide
    · exact apart_start atEnd
    · exact apart_link sound (last_entry_of front back freep arena.freelist)

/-- The heap the coalescing loop leaves behind. -/
def coalescedHeap : Coalescing → Heap
  | .split after _ => after
  | .exactFit after _ => after
  | .exhausted after => after

theorem coalesce_untouched (fuel : Nat) {heap : Heap} {layout : Layout Status}
    {front back : List Int} (sound : Sound arena heap layout (front ++ back))
    (standing : ∀ header chunk, layout.block header = some chunk → chunk.state ≠ .retired)
    {coalescing : Coalescing} (result : coalesceFreeList arena units fuel heap
      (lastEntry arena.freelist front)
      (heap.largechunkNextfree (lastEntry arena.freelist front)) = some coalescing) :
    Untouched layout heap (coalescedHeap coalescing) := by
  -- the loop stands behind `front`; each round writes between free chunks of its own layout
  induction fuel generalizing heap layout front back with
  | zero => exact nomatch result
  | succ fuel ih =>
      cases back with
      | nil =>
          rw [List.append_nil] at sound
          have ended : heap.largechunkNextfree (lastEntry arena.freelist front) = 0 :=
            reaches_last _ sound.listed.linked
          rw [coalesceFreeList, if_pos ended] at result
          cases result
          exact Untouched.refl layout heap
      | cons freep back =>
          obtain ⟨isFreep, nonnull, chunk, atFree, isListed⟩ := at_entry sound
          have isFree : chunk.state = .free := isListed.resolve_right (standing freep chunk atFree)
          rw [isFreep, coalesceFreeList, if_neg nonnull] at result
          by_cases adjacent : heap.largechunkPrevsize freep > 0
          · obtain ⟨renewed, whole, soundNew, moved, kept, _, _, _, _, linkKept⟩ :=
              coalesce_entry sound adjacent atFree isFree
            have now := coalesce_previous_untouched sound atFree isFree adjacent
            simp only [if_pos adjacent] at result
            split_ifs at result with enough large
            -- the loop ends with a chunk to split or to hand out whole
            · cases result
              exact now
            · cases result
              exact now
            · rw [linkKept, ← coalesce_resumes heap (lastEntry arena.freelist front) freep] at result
              refine now.trans kept (ih soundNew ?_ result)
              intro header block atHeader isRetired
              exact standing header block (retired_before moved atHeader isRetired) isRetired
          · rw [if_neg adjacent] at result
            have shifted : front ++ freep :: back = (front ++ [freep]) ++ back := by simp
            rw [shifted] at sound
            refine ih sound standing ?_
            rw [last_entry_append]
            exact result

end Steps

section Requests

variable {arena : Arena} {heap : Heap} {layout : Layout Status} {chain : List Int} {units : Int}
  {supply : Supply} {result : Int × Heap}

/-- The new bin lies where no chunk is, and so does the dummy entry that links to it. -/
theorem new_bin_untouched (sound : Sound arena heap layout chain) (wide : 3 ≤ arena.binsize - 1)
    (unused : ∀ unit, supply.bin ≤ unit → unit < supply.bin + arena.binsize →
      ¬ layout.Covers unit) : Untouched layout heap (newBin arena supply heap) := by
  have dummyLink := covered_apart unused
    (covers_header sound.tagged.dummy (le_refl 3) 2 (by decide) (by decide))
  rw [new_bin_writes (by omega)]
  refine untouched_of_writes [supply.bin, supply.bin + 1, supply.bin + 2, arena.freelist + 2] ?_ ?_
  · intro unit elsewhere
    simp only [List.mem_cons, List.not_mem_nil, or_false, not_or] at elsewhere
    obtain ⟨bin, owner, link, dummy⟩ := elsewhere
    simp only [Heap.first_set_nextfree, Heap.first_set_arena, Heap.first_set_prevsize,
      Heap.first_set_size, Heap.second_set_nextfree, Heap.second_set_arena,
      Heap.second_set_prevsize, Heap.second_set_size, if_neg bin, if_neg owner, if_neg link,
      if_neg dummy]
    exact ⟨rfl, rfl⟩
  · intro unit member
    simp only [List.mem_cons, List.not_mem_nil, or_false] at member
    rcases member with rfl | rfl | rfl | rfl
    · exact apart_uncovered (unused _ (by omega) (by omega))
    · exact apart_uncovered (unused _ (by omega) (by omega))
    · exact apart_uncovered (unused _ (by omega) (by omega))
    · exact apart_link sound (Or.inl rfl)

/-- The request is cut from the top of a new bin. -/
theorem extended_untouched (sound : Sound arena heap layout chain)
    (binned : Binned arena heap layout) (wide : 3 ≤ units) (room : units + 3 ≤ arena.binsize - 1)
    (fresh : FreshBin arena heap units supply) :
    Untouched layout heap (split arena units (newBin arena supply heap) supply.bin).2 := by
  have unused := fresh_unused binned fresh
  have chunkWide : 3 ≤ arena.binsize - 1 := by omega
  obtain ⟨soundBin, _⟩ := new_bin_sound sound fresh.1 chunkWide unused
  exact (new_bin_untouched sound chunkWide unused).trans (with_bin_keeps_live chunkWide unused)
    (split_untouched soundBin (with_bin_chunk chunkWide unused) (Or.inr rfl) wide
      (by dsimp only; omega) (with_bin_stop chunkWide unused))

/-- A free chunk is handed out in part. -/
theorem split_free_untouched (sound : Sound arena heap layout chain) {bestp : Int}
    {chunk : Block Status} (atBest : layout.block bestp = some chunk)
    (isFree : chunk.state = .free) (wide : 3 ≤ units) (rest : 3 ≤ chunk.size - units) :
    Untouched layout heap (split arena units heap bestp).2 := by
  obtain ⟨_, follower, atEnd, _⟩ := sound.tagged.ended bestp chunk atBest (Or.inr isFree)
  exact split_untouched sound atBest (Or.inl isFree) wide rest atEnd

theorem after_search_untouched (large : IsLarge arena) (sound : Sound arena heap layout chain)
    (binned : Binned arena heap layout) (wide : 3 ≤ units) (room : units + 3 ≤ arena.binsize - 1)
    (fresh : FreshBin arena heap units supply) {fuel : Nat}
    (returned : afterSearch arena supply fuel units heap = some result) :
    Untouched layout heap result.2 := by
  have min := large.min
  have noWilderness : ¬ heap.largechunkSize (heap.wilderness arena.num) ≥ units + 3 := by
    rw [binned.wilderness, sound.tagged.idle.1]
    omega
  have soundList : Sound arena heap layout ([] ++ chain) := sound
  have spec : ∀ coalescing, coalesceFreeList arena units fuel heap arena.freelist
      (heap.largechunkNextfree arena.freelist) = some coalescing →
      Coalesced arena units chain.length heap layout coalescing :=
    (coalesce_spec [] fuel soundList (binned_not_retired binned)
      (coalescing_avoids_none units fuel heap _ _)).1
  simp only [afterSearch, if_neg noWilderness] at returned
  cases found : coalesceFreeList arena units fuel heap arena.freelist
      (heap.largechunkNextfree arena.freelist) with
  | none =>
      rw [found] at returned
      cases returned
  | some coalescing =>
      have earlier := coalesce_untouched fuel soundList (fun header chunk atHeader isRetired =>
        absurd (binned_not_retired binned header chunk atHeader isRetired) List.not_mem_nil) found
      have coalesced := spec coalescing found
      rw [found] at returned
      cases coalescing with
      | split after bestp =>
          cases returned
          obtain ⟨renewed, chunk, ⟨⟨nodes, soundAfter, _⟩, _, keeps, _⟩, atBest, isFree, enough⟩ :=
            coalesced
          exact earlier.trans keeps
            (split_free_untouched soundAfter atBest isFree wide (by omega))
      | exactFit after freep =>
          obtain ⟨renewed, chunk, ⟨⟨nodes, soundAfter, _⟩, _, keeps, _⟩, atFree, isFree, _⟩ :=
            coalesced
          have member : freep ∈ nodes :=
            (soundAfter.listed.listed freep).mpr ⟨chunk, atFree, Or.inl isFree⟩
          cases walked : findPredecessor after freep fuel arena.freelist with
          | none =>
              simp only [walked] at returned
              cases returned
          | some lastp =>
              simp only [walked, Option.some.injEq] at returned
              subst returned
              obtain ⟨front, back, rfl, rfl⟩ :=
                predecessor_found fuel soundAfter.listed.linked member walked
              exact earlier.trans keeps (exact_fit_untouched soundAfter atFree isFree)
      | exhausted after =>
          -- nothing was large enough, and the new bin has to be fresh after coalescing as well
          obtain ⟨renewed, ⟨nodes, soundAfter, _⟩, rearranges, keeps, records⟩ := coalesced
          have binnedAfter := binned_rearranged binned rearranges records
          have freshAfter : FreshBin arena after units supply := by
            rw [FreshBin, records.1]
            exact fresh
          simp only [after_coalescing_extends large soundAfter binnedAfter,
            Option.some.injEq] at returned
          subst returned
          exact earlier.trans keeps (extended_untouched soundAfter binnedAfter wide room freshAfter)

/-- However a request is served, no live chunk is written into. -/
theorem large_malloc_untouched (large : IsLarge arena) (sound : Sound arena heap layout chain)
    (binned : Binned arena heap layout) (wide : 3 ≤ units) (room : units + 3 ≤ arena.binsize - 1)
    (fresh : FreshBin arena heap units supply) {fuel : Nat}
    (returned : mallocLargeChunk arena supply fuel units heap = some result) :
    Untouched layout heap result.2 := by
  have min := large.min
  rw [mallocLargeChunk] at returned
  cases found : searchFreeList arena units heap fuel arena.freelist
      (heap.largechunkNextfree arena.freelist) 0 with
  | none =>
      rw [found] at returned
      cases returned
  | some search =>
      have isFound := search_found fuel sound.listed.linked found
      rw [found] at returned
      cases search with
      | exactFit lastp freep =>
          cases returned
          obtain ⟨front, back, rfl, rfl, _⟩ := isFound
          obtain ⟨chunk, atFree, isFree, _⟩ := listed_free sound (binned_not_retired binned)
            (List.mem_append.mpr (Or.inr (List.mem_cons_self ..))) List.not_mem_nil
          exact exact_fit_untouched sound atFree isFree
      | exhausted bestp =>
          dsimp only at returned
          by_cases nonnull : bestp ≠ 0
          · rw [if_pos nonnull] at returned
            cases returned
            obtain ⟨member, enough⟩ := isFound.resolve_left fun isNull => nonnull isNull.1
            obtain ⟨chunk, atBest, isFree, sized⟩ :=
              listed_free sound (binned_not_retired binned) member List.not_mem_nil
            exact split_free_untouched sound atBest isFree wide (by omega)
          · rw [if_neg nonnull] at returned
            exact after_search_untouched large sound binned wide room fresh returned

end Requests

end Sac2c.LivePayloads
