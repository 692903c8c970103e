import Sac2c.FreeListWalks

/-!
The wilderness of the top arena: chunks are cut from its bottom, free memory
before it melts into it, and it grows when the operating system answers with
contiguous memory. Otherwise it is put on the free list as it is, without a tag
behind it, and the fresh memory becomes the new wilderness.
-/

namespace Sac2c.Wilderness

open Headers LargeChunks Blocks Links BoundaryTags FreeList FreeListWalks

section Steps

variable {arena : Arena} {heap : Heap} {layout : Layout Status} {chain : List Int}

/-- Entries of the list keep clear of a block that is not on it. -/
theorem entry_clear (sound : Sound arena heap layout chain) {start entry : Int}
    {block : Block Status} (atStart : layout.block start = some block)
    (isWild : block.state = .wild) (isEntry : entry = arena.freelist ∨ entry ∈ chain) :
    entry + 3 ≤ start ∨ start + block.size ≤ entry := by
  obtain ⟨other, atEntry, wide⟩ := sound.entry isEntry
  have differ : entry ≠ start := by
    rintro rfl
    rcases isEntry with rfl | member
    · rw [sound.tagged.dummy] at atStart
      cases atStart
      exact nomatch isWild
    · obtain ⟨chunk, atChunk, isListed⟩ := (sound.listed.listed entry).mp member
      rw [atStart] at atChunk
      cases atChunk
      exact wild_not_listed (isWild ▸ isListed)
  rcases layout.apart_or atEntry atStart differ with before | after
  · exact Or.inl (by omega)
  · exact Or.inr after

/-- The request is cut from the bottom of the wilderness. -/
theorem sound_split_wilderness {wilderness units : Int} {chunk : Block Status}
    (sound : Sound arena heap layout chain) (atWild : layout.block wilderness = some chunk)
    (isWild : chunk.state = .wild) (wide : 3 ≤ units) (rest : 3 ≤ chunk.size - units)
    (lowSize : 0 < units) (highSize : 0 < chunk.size - units)
    (sum : units + (chunk.size - units) = chunk.size) :
    Sound arena (splitWilderness arena units heap wilderness).2
      (layout.split wilderness chunk atWild ⟨units, .live⟩ ⟨chunk.size - units, .wild⟩
        lowSize highSize sum) chain := by
  have sized := (sound.tagged.sized wilderness chunk atWild (Or.inr (Or.inr isWild))).2
  have tagged := tagged_split_wilderness sound.tagged atWild isWild wide rest lowSize highSize sum
  refine ⟨tagged, ⟨?_, sound.listed.distinct, ?_⟩, ?_⟩
  · refine reaches_congr sound.listed.linked ?_
    intro entry isEntry
    have clear := entry_clear sound atWild isWild isEntry
    rw [split_wilderness_writes sized]
    simp only [Heap.nextfree_set_arena, Heap.nextfree_set_size, Heap.nextfree_set_wilderness,
      Heap.nextfree_set_prevsize]
    rw [if_neg (by omega)]
  · intro header
    rw [sound.listed.listed, on_list_split _ _ atWild
      (iff_of_false live_not_listed (isWild ▸ wild_not_listed)) wild_not_listed]
  · intro unit written
    rw [layout.covers_split]
    rw [split_wilderness_writes sized] at written
    simp only [Heap.written_set_arena, Heap.written_set_size, Heap.written_set_wilderness,
      Heap.written_set_prevsize, List.mem_cons] at written
    have within : ∀ other, wilderness ≤ other → other < wilderness + chunk.size →
        layout.Covers other :=
      fun other above below => ⟨wilderness, chunk, atWild, above, below⟩
    rcases written with rfl | rfl | rfl | rfl | old
    · exact within _ (by omega) (by omega)
    · exact within _ (by omega) (by omega)
    · exact within _ (by omega) (by omega)
    · exact within _ (by omega) (by omega)
    · exact sound.inside unit old

/-- The free chunk before the wilderness melts into it and leaves the list. -/
theorem sound_merge_wilderness {front back : List Int} {prevp wilderness : Int}
    {previous chunk : Block Status}
    (sound : Sound arena heap layout (front ++ prevp :: back))
    (atPrev : layout.block prevp = some previous) (prevFree : previous.state = .free)
    (atWild : layout.block wilderness = some chunk) (isWild : chunk.state = .wild)
    (adjacent : prevp + previous.size = wilderness) :
    Sound arena ((heap.setLargechunkSize prevp
        (previous.size + chunk.size)).setLargechunkNextfree (lastEntry arena.freelist front)
        (heap.largechunkNextfree prevp))
      (layout.merge prevp wilderness previous chunk atPrev atWild adjacent .wild)
      (front ++ back) := by
  have prevWide := sound.tagged.wide atPrev (Or.inl (Or.inr prevFree))
  have entry := last_entry_of front back prevp arena.freelist
  obtain ⟨last, atLast, lastWide⟩ := sound.entry entry
  have merged := tagged_merge_wilderness sound.tagged atPrev prevFree atWild isWild adjacent
  have notPrev : lastEntry arena.freelist front ≠ prevp := by
    intro same
    rcases last_entry_mem arena.freelist front with isDummy | member
    · exact sound.dummy_unlisted
        (List.mem_append.mpr (Or.inr (List.mem_cons.mpr (Or.inl (isDummy.symm.trans same)))))
    · exact ((mem_without sound.listed.distinct prevp).mp
        (List.mem_append.mpr (Or.inl (same ▸ member)))).2 rfl
  have notWild : lastEntry arena.freelist front ≠ wilderness := by
    intro same
    have clear := entry_clear sound atWild isWild entry
    have size := layout.nonempty wilderness chunk atWild
    omega
  have atEntry := (layout.merge_other atPrev atWild adjacent Status.wild notPrev notWild).trans
    atLast
  have unlinked := sound_unlink sound
  refine ⟨tagged_set_nextfree merged atEntry lastWide _,
    ⟨unlinked, nodup_without sound.listed.distinct, ?_⟩, ?_⟩
  · intro header
    rw [mem_without sound.listed.distinct, sound.listed.listed]
    by_cases isPrev : header = prevp
    · subst isPrev
      simp [OnList, layout.merge_low, Status.IsListed]
    · by_cases isWilderness : header = wilderness
      · subst isWilderness
        simp [OnList, layout.merge_high, atWild, isWild, Status.IsListed]
      · simp [OnList, layout.merge_other atPrev atWild adjacent .wild isPrev isWilderness, isPrev]
  · intro unit written
    rw [layout.covers_merge]
    simp only [Heap.written_set_nextfree, Heap.written_set_size, List.mem_cons] at written
    rcases written with rfl | rfl | old
    · exact header_covered atLast lastWide (by omega) (by omega)
    · exact header_covered atPrev prevWide (by omega) (by omega)
    · exact sound.inside unit old

/-- The wilderness takes in contiguous memory. -/
theorem sound_grow {wilderness more : Int} {chunk : Block Status}
    (sound : Sound arena heap layout chain) (atWild : layout.block wilderness = some chunk)
    (isWild : chunk.state = .wild) (positive : 0 < more)
    (unused : ∀ unit, wilderness + chunk.size ≤ unit → unit < wilderness + chunk.size + more →
      ¬ layout.Covers unit) :
    Sound arena (heap.setLargechunkSize wilderness (chunk.size + more))
      (layout.grow wilderness chunk atWild more positive unused) chain := by
  have isChunk : chunk.state.IsChunk := Or.inr (Or.inr isWild)
  have wide := sound.tagged.wide atWild isChunk
  have atNew := layout.grow_self atWild positive unused
  have outside : ∀ start, start < wilderness ∨ wilderness + chunk.size + more ≤ start →
      (layout.grow wilderness chunk atWild more positive unused).block start =
        layout.block start :=
    fun start out => layout.grow_other atWild positive unused (by omega)
  have rewrite : Rewrite heap (heap.setLargechunkSize wilderness (chunk.size + more)) layout
      (layout.grow wilderness chunk atWild more positive unused) wilderness
      (wilderness + chunk.size + more) := by
    refine rewrite_region atWild isChunk (by omega) ?_ outside ?_ (fun _ _ => rfl) ?_ ?_
    · intro start block atStart above below
      by_cases same : start = wilderness
      · subst same
        rw [atWild] at atStart
        cases atStart
        exact ⟨by omega, isChunk⟩
      · rw [layout.grow_empty atWild unused (by omega) below] at atStart
        exact nomatch atStart
    · intro start out
      rw [Heap.size_set_size, if_neg (by omega)]
    · intro start out
      rw [Heap.prevsize_set_size, if_neg (by omega)]
    · intro block _ _
      rw [Heap.prevsize_set_size, if_neg (by omega)]
  refine ⟨tagged_rewrite sound.tagged rewrite ⟨_, atNew, isChunk⟩ ?_ ?_ ?_ ?_,
    ⟨sound.listed.linked, sound.listed.distinct, ?_⟩, ?_⟩
  · intro start block above below atStart
    obtain ⟨rfl, rfl⟩ := layout.grow_inside atWild positive unused above below atStart
    refine ⟨isChunk, by dsimp only; omega, ?_⟩
    rw [Heap.size_set_size, if_pos rfl]
  · intro start block above below atStart isClosed
    obtain ⟨rfl, rfl⟩ := layout.grow_inside atWild positive unused above below atStart
    rw [isWild] at isClosed
    exact absurd isClosed wild_not_closed
  · intro start block above below atStart
    obtain ⟨same, _⟩ :=
      layout.grow_inside atWild positive unused (le_of_lt above) below atStart
    omega
  · intro block atStop stopChunk
    -- the chunk before is the wilderness, which is not free
    refine begun_behind sound.tagged outside ?_ ?_ atStop stopChunk
    · rw [Heap.prevsize_set_size, if_neg (by omega)]
    · intro start before atStart above meets
      have size := layout.nonempty start before atStart
      by_cases same : start = wilderness
      · subst same
        rw [atWild] at atStart
        cases atStart
        rw [isWild]
        exact nofun
      · rw [layout.grow_empty atWild unused (by omega) (by omega)] at atStart
        exact nomatch atStart
  · intro header
    rw [sound.listed.listed]
    by_cases same : header = wilderness
    · subst same
      simp [OnList, atNew, atWild]
    · rw [OnList, OnList, layout.grow_other atWild positive unused same]
  · intro unit written
    rw [layout.covers_grow]
    simp only [Heap.written_set_size, List.mem_cons] at written
    rcases written with rfl | old
    · exact Or.inl (header_covered atWild wide (by omega) (by omega))
    · exact Or.inl (sound.inside unit old)

/-- The old wilderness goes on the free list as it is. -/
theorem sound_retire {wilderness : Int} {chunk : Block Status}
    (sound : Sound arena heap layout chain) (atWild : layout.block wilderness = some chunk)
    (isWild : chunk.state = .wild) :
    Sound arena ((heap.setLargechunkNextfree wilderness
        (heap.largechunkNextfree arena.freelist)).setLargechunkNextfree arena.freelist wilderness)
      (layout.retag wilderness chunk atWild .retired) (wilderness :: chain) := by
  have isChunk : chunk.state.IsChunk := Or.inr (Or.inr isWild)
  have newChunk : Status.retired.IsChunk := Or.inr (Or.inl rfl)
  obtain ⟨wide, sized⟩ := sound.tagged.sized wilderness chunk atWild isChunk
  have atNew := layout.retag_self atWild Status.retired
  have rewrite : Rewrite heap heap layout (layout.retag wilderness chunk atWild .retired) wilderness
      (wilderness + chunk.size) :=
    rewrite_region atWild isChunk (le_refl _) (within_one atWild isChunk)
      (fun other out => layout.retag_other atWild .retired (by omega)) (fun _ _ => rfl)
      (fun _ _ => rfl) (fun _ _ => rfl) (fun _ _ _ => rfl)
  have tagged : Tagged arena heap (layout.retag wilderness chunk atWild .retired) := by
    refine tagged_rewrite sound.tagged rewrite ⟨_, atNew, newChunk⟩ ?_ ?_ ?_ ?_
    · intro start block above below atStart
      obtain ⟨rfl, rfl⟩ := layout.retag_inside atWild .retired above below atStart
      exact ⟨newChunk, wide, sized⟩
    · intro start block above below atStart isClosed
      obtain ⟨rfl, rfl⟩ := layout.retag_inside atWild .retired above below atStart
      exact absurd isClosed retired_not_closed
    · intro start block above below atStart
      obtain ⟨same, _⟩ := layout.retag_inside atWild .retired (le_of_lt above) below atStart
      omega
    · intro block atStop stopChunk
      exact begun_behind sound.tagged rewrite.outside rfl
        (fun start before atStart _ => wild_end_not_free atWild isWild atStart) atStop stopChunk
  have differ : arena.freelist ≠ wilderness := by
    rintro rfl
    rw [sound.tagged.dummy] at atWild
    cases atWild
    exact nomatch isWild
  -- as a wilderness it was not on the list
  have absent : wilderness ∉ chain := by
    intro member
    obtain ⟨other, atOther, isListed⟩ := (sound.listed.listed wilderness).mp member
    rw [atWild] at atOther
    cases atOther
    exact wild_not_listed (isWild ▸ isListed)
  have atDummy := (layout.retag_other atWild Status.retired differ).trans sound.tagged.dummy
  refine ⟨tagged_set_nextfree (tagged_set_nextfree tagged atNew wide _) atDummy (le_refl 3) _,
    ⟨?_, List.nodup_cons.mpr ⟨absent, sound.listed.distinct⟩, ?_⟩, ?_⟩
  · have positive := sound.tagged.placed wilderness chunk atWild
    refine linked_push sound.listed.linked (by omega) ?_ ?_ ?_
    · rw [Heap.nextfree_set_nextfree, if_pos rfl]
    · rw [Heap.nextfree_set_nextfree, if_neg differ.symm, Heap.nextfree_set_nextfree, if_pos rfl]
    · intro entry member
      have notDummy : entry ≠ arena.freelist := fun same => sound.dummy_unlisted (same ▸ member)
      have notWild : entry ≠ wilderness := fun same => absent (same ▸ member)
      rw [Heap.nextfree_set_nextfree, if_neg notDummy, Heap.nextfree_set_nextfree, if_neg notWild]
  · intro header
    rw [List.mem_cons, sound.listed.listed]
    by_cases same : header = wilderness
    · subst same
      simp [OnList, layout.retag_self, Status.IsListed]
    · simp [OnList, layout.retag_other atWild .retired same, same]
  · intro unit written
    rw [layout.covers_retag]
    simp only [Heap.written_set_nextfree, List.mem_cons] at written
    rcases written with rfl | rfl | old
    · exact header_covered sound.tagged.dummy (le_refl 3) (by omega) (by omega)
    · exact header_covered atWild wide (by omega) (by omega)
    · exact sound.inside unit old

/-- Fresh memory becomes the wilderness. -/
theorem sound_new_wilderness {mem size : Int} (sound : Sound arena heap layout chain)
    (positive : 0 < mem) (wide : 3 ≤ size) (nonempty : 0 < size)
    (unused : ∀ unit, mem ≤ unit → unit < mem + size → ¬ layout.Covers unit) :
    Sound arena ((heap.setLargechunkSize mem size).setLargechunkPrevsize mem (-1))
      (layout.insert mem ⟨size, .wild⟩ nonempty unused) chain := by
  have apart : ∀ unit, layout.Covers unit → unit < mem ∨ mem + size ≤ unit := by
    intro unit covered
    by_contra inside
    exact unused unit (by omega) (by omega) covered
  refine ⟨tagged_insert sound.tagged nonempty unused positive ?_ nofun ?_ (fun _ _ => rfl) ?_,
    ⟨sound.listed.linked, sound.listed.distinct, ?_⟩, ?_⟩
  · exact wild_not_closed
  · intro unit covered
    have clear := apart unit covered
    rw [Heap.first_set_prevsize, Heap.first_set_size, if_neg (by omega), if_neg (by omega)]
  · intro _
    refine ⟨wide, ?_, ?_⟩
    · rw [Heap.size_set_prevsize, Heap.size_set_size, if_neg (by omega), if_pos rfl]
    · rw [Heap.prevsize_set_prevsize, if_pos rfl]
  · intro header
    rw [sound.listed.listed]
    by_cases same : header = mem
    · subst same
      have absent : layout.block header = none := by
        cases atStart : layout.block header with
        | none => rfl
        | some block =>
            exact absurd (layout.covers_start atStart) (unused header (le_refl _) (by omega))
      simp [OnList, layout.insert_block, absent, Status.IsListed]
    · rw [OnList, OnList, layout.insert_block, if_neg same]
  · intro unit written
    rw [layout.covers_insert]
    simp only [Heap.written_set_prevsize, Heap.written_set_size, List.mem_cons] at written
    rcases written with rfl | rfl | old
    · exact Or.inr ⟨le_refl _, by dsimp only; omega⟩
    · exact Or.inr ⟨by omega, by dsimp only; omega⟩
    · exact Or.inl (sound.inside unit old)

end Steps

end Sac2c.Wilderness
