import Sac2c.AdjacentRows
import Sac2c.FreeListWalks

/-!
What the loop of `SAC_HM_MallocLargeChunk` that coalesces free chunks comes to, told from the
heap before the request. It walks along the free list and melts each entry with a free
predecessor into it, until a chunk reaches the request. The chunk an entry becomes part of is
the row of neighbours around it that are entries passed before.
-/

namespace Sac2c.MeltedChunks

open Headers LargeChunks Blocks Links BoundaryTags FreeList FreeListWalks AdjacentRows

section Model

/-- The entries the loop has melted into their predecessors when it is behind `passed`. -/
def Absorbed (heap : Heap) (passed : List Int) (header : Int) : Prop :=
  header ∈ passed ∧ heap.largechunkPrevsize header > 0

/-- The chunk from `low` to `high` that the entry `freep` of the free list becomes part of when
the loop comes to it. -/
structure Melts (heap : Heap) (entries passed : List Int) (freep low high : Int) : Prop where
  coalescable : heap.largechunkPrevsize freep > 0
  listed : low ∈ entries
  around : low ≤ freep ∧ freep < high
  maximal : Maximal heap.largechunkSize (Absorbed heap (passed ++ [freep])) low high

/-- The first one that is large enough. -/
def FirstMelted (heap : Heap) (entries : List Int) (units low high : Int) : Prop :=
  ∃ passed freep rest, entries = passed ++ freep :: rest ∧
    Melts heap entries passed freep low high ∧ units ≤ high - low ∧
    ∀ before other between, passed = before ++ other :: between →
      ∀ low' high', Melts heap entries before other low' high' → high' - low' < units

end Model

section Melting

variable {arena : Arena} {start heap : Heap} {entries passed : List Int} {layout : Layout Status}
  {units : Int}

/-- The loop behind `passed`: the free chunks are the rows of absorbed entries, none of them
large enough, and the entries to come are tagged as they were. -/
structure Passed (start : Heap) (entries : List Int) (units : Int) (passed : List Int)
    (heap : Heap) (layout : Layout Status) : Prop where
  rows : ∀ header chunk, layout.block header = some chunk → chunk.state = .free →
    header ∈ entries ∧
      Maximal start.largechunkSize (Absorbed start passed) header (header + chunk.size) ∧
      chunk.size < units
  tags : ∀ entry, entry ∈ entries → entry ∉ passed →
    (heap.largechunkPrevsize entry > 0 ↔ start.largechunkPrevsize entry > 0)
  small : ∀ before other between, passed = before ++ other :: between →
    ∀ low high, Melts start entries before other low high → high - low < units

theorem absorbed_more {freep header : Int} (absorbed : Absorbed start passed header) :
    Absorbed start (passed ++ [freep]) header :=
  ⟨List.mem_append.mpr (Or.inl absorbed.1), absorbed.2⟩

theorem absorbed_cases {freep header : Int} (absorbed : Absorbed start (passed ++ [freep]) header) :
    Absorbed start passed header ∨ header = freep := by
  rcases List.mem_append.mp absorbed.1 with earlier | now
  · exact Or.inl ⟨earlier, absorbed.2⟩
  · exact Or.inr (List.mem_singleton.mp now)

/-- An entry is the last one passed or one passed before. -/
theorem passed_splits {freep other : Int} {before between : List Int}
    (split : passed ++ [freep] = before ++ other :: between) :
    (before = passed ∧ other = freep) ∨ ∃ rest, passed = before ++ other :: rest := by
  rcases List.eq_nil_or_concat between with rfl | ⟨rest, last, rfl⟩
  · obtain ⟨same, rfl⟩ := List.append_singleton_inj.mp split
    exact Or.inl ⟨same.symm, rfl⟩
  · rw [List.concat_eq_append, ← List.cons_append, ← List.append_assoc] at split
    exact Or.inr ⟨rest, (List.append_singleton_inj.mp split).1⟩

/-- The free chunk a tag points to. -/
theorem previous_chunk (tagged : Tagged arena heap layout) {freep : Int} {chunk : Block Status}
    (atFree : layout.block freep = some chunk) (isFree : chunk.state = .free)
    (adjacent : heap.largechunkPrevsize freep > 0) :
    ∃ previous, layout.block (freep - heap.largechunkPrevsize freep) = some previous ∧
      previous.state = .free ∧ freep - heap.largechunkPrevsize freep + previous.size = freep := by
  rcases tagged.begun freep chunk atFree (Or.inl (Or.inr isFree)) with untagged | ⟨prevp,
    previous, atPrev, prevFree, meets⟩
  · omega
  · have tag := (tagged.ended prevp previous atPrev (Or.inr prevFree)).1
    rw [meets, prevFree, tag_free] at tag
    have isPrev : freep - heap.largechunkPrevsize freep = prevp := by omega
    rw [isPrev]
    exact ⟨previous, atPrev, prevFree, meets⟩

/-- The chunk that an entry melts into now is the one foreseen from the start. -/
theorem melts_now (behind : Passed start entries units passed heap layout) {freep prevp : Int}
    {previous chunk : Block Status} (atPrev : layout.block prevp = some previous)
    (prevFree : previous.state = .free) (atFree : layout.block freep = some chunk)
    (isFree : chunk.state = .free) (meets : prevp + previous.size = freep)
    (coalescable : start.largechunkPrevsize freep > 0) :
    Melts start entries passed freep prevp (freep + chunk.size) := by
  obtain ⟨listed, low, _⟩ := behind.rows prevp previous atPrev prevFree
  obtain ⟨_, high, _⟩ := behind.rows freep chunk atFree isFree
  have prevSize := layout.nonempty prevp previous atPrev
  have size := layout.nonempty freep chunk atFree
  have front := low.row
  rw [meets] at front
  refine ⟨coalescable, listed, by omega, ?_, ?_, ?_⟩
  · exact (front.mono fun _ => absorbed_more).append
      ⟨List.mem_append.mpr (Or.inr (List.mem_singleton.mpr rfl)), coalescable⟩
      (high.row.mono fun _ => absorbed_more)
  · intro absorbed
    rcases absorbed_cases absorbed with earlier | same
    · exact low.lowOuter earlier
    · omega
  · intro absorbed
    rcases absorbed_cases absorbed with earlier | same
    · exact high.highOuter earlier
    · omega

theorem melts_unique (disjoint : Disjoint start.largechunkSize (· ∈ entries)) {rest : List Int}
    {freep low high low' high' : Int} (whole : entries = passed ++ freep :: rest)
    (melts : Melts start entries passed freep low high)
    (other : Melts start entries passed freep low' high') : low = low' ∧ high = high' := by
  refine melts.maximal.unique disjoint ?_ other.maximal melts.listed other.listed melts.around
    other.around
  intro header absorbed
  rw [whole]
  rcases absorbed_cases absorbed with earlier | rfl
  · exact List.mem_append.mpr (Or.inl earlier.1)
  · exact List.mem_append.mpr (Or.inr (List.mem_cons_self ..))

/-- An entry without a free predecessor is left where it is. -/
theorem passed_skip (behind : Passed start entries units passed heap layout) {freep : Int}
    {rest : List Int} (whole : entries = passed ++ freep :: rest) (distinct : entries.Nodup)
    (alone : ¬ heap.largechunkPrevsize freep > 0) :
    Passed start entries units (passed ++ [freep]) heap layout := by
  have isEntry : freep ∈ entries := by
    rw [whole]
    exact List.mem_append.mpr (Or.inr (List.mem_cons_self ..))
  have unpassed : freep ∉ passed := by
    rw [whole, List.nodup_append] at distinct
    exact fun earlier => distinct.2.2 freep earlier freep (List.mem_cons_self ..) rfl
  have untagged : ¬ start.largechunkPrevsize freep > 0 :=
    fun positive => alone ((behind.tags freep isEntry unpassed).mpr positive)
  have same : ∀ header, Absorbed start (passed ++ [freep]) header → Absorbed start passed header := by
    intro header absorbed
    rcases absorbed_cases absorbed with earlier | rfl
    · exact earlier
    · exact absurd absorbed.2 untagged
  constructor
  case rows =>
    intro header chunk atHeader isFree
    obtain ⟨listed, maximal, fits⟩ := behind.rows header chunk atHeader isFree
    exact ⟨listed, ⟨maximal.row.mono fun _ => absorbed_more,
      fun absorbed => maximal.lowOuter (same _ absorbed),
      fun absorbed => maximal.highOuter (same _ absorbed)⟩, fits⟩
  case tags =>
    intro entry listed later
    exact behind.tags entry listed fun earlier => later (List.mem_append.mpr (Or.inl earlier))
  case small =>
    intro before other between split low high melts
    rcases passed_splits split with ⟨rfl, rfl⟩ | ⟨rest, earlier⟩
    · exact absurd melts.coalescable untagged
    · exact behind.small before other rest earlier low high melts

/-- An entry melts into its predecessor, and the two are not large enough. -/
theorem passed_melt (tagged : Tagged arena heap layout)
    (behind : Passed start entries units passed heap layout)
    (disjoint : Disjoint start.largechunkSize (· ∈ entries)) {freep prevp lastp : Int}
    {rest : List Int} (whole : entries = passed ++ freep :: rest)
    {previous chunk : Block Status} (atPrev : layout.block prevp = some previous)
    (prevFree : previous.state = .free) (atFree : layout.block freep = some chunk)
    (isFree : chunk.state = .free) (meets : prevp + previous.size = freep)
    (isPrev : freep - heap.largechunkPrevsize freep = prevp)
    (coalescable : start.largechunkPrevsize freep > 0)
    (starts : ∀ entry, entry ∈ rest → ∃ block, layout.block entry = some block)
    (few : previous.size + chunk.size < units) :
    Passed start entries units (passed ++ [freep]) (coalescePrevious heap lastp freep)
      (layout.merge prevp freep previous chunk atPrev atFree meets .free) := by
  have melts := melts_now behind atPrev prevFree atFree isFree meets coalescable
  have prevSize := layout.nonempty prevp previous atPrev
  have size := layout.nonempty freep chunk atFree
  obtain ⟨wide, sized⟩ := tagged.sized freep chunk atFree (Or.inl (Or.inr isFree))
  obtain ⟨prevWide, prevSized⟩ := tagged.sized prevp previous atPrev (Or.inl (Or.inr prevFree))
  constructor
  case rows =>
    intro header block atHeader blockFree
    by_cases isLow : header = prevp
    · subst isLow
      rw [layout.merge_low atPrev atFree meets] at atHeader
      cases atHeader
      have ends : header + (previous.size + chunk.size) = freep + chunk.size := by omega
      dsimp only
      rw [ends]
      exact ⟨melts.listed, melts.maximal, few⟩
    · by_cases isHigh : header = freep
      · subst isHigh
        rw [layout.merge_high atPrev atFree meets] at atHeader
        exact nomatch atHeader
      · rw [layout.merge_other atPrev atFree meets .free isLow isHigh] at atHeader
        obtain ⟨listed, maximal, fits⟩ := behind.rows header block atHeader blockFree
        have blockSize := layout.nonempty header block atHeader
        refine ⟨listed, ⟨maximal.row.mono fun _ => absorbed_more, ?_, ?_⟩, fits⟩
        · intro absorbed
          rcases absorbed_cases absorbed with earlier | same
          · exact maximal.lowOuter earlier
          · exact isHigh same
        · intro absorbed
          rcases absorbed_cases absorbed with earlier | same
          · exact maximal.highOuter earlier
          · -- no two chunks end at the entry
            rcases layout.apart_or atHeader atPrev isLow with below | above
            · omega
            · omega
  -- an entry right behind the chunk is tagged by a free chunk before and after; no entry starts
  -- inside a header
  case tags =>
    intro entry listed later
    have unpassed : entry ∉ passed :=
      fun earlier => later (List.mem_append.mpr (Or.inl earlier))
    have inRest : entry ∈ rest := by
      rw [whole] at listed
      rcases List.mem_append.mp listed with earlier | behind
      · exact absurd earlier unpassed
      · rcases List.mem_cons.mp behind with rfl | inRest
        · exact absurd (List.mem_append.mpr (Or.inr (List.mem_singleton.mpr rfl))) later
        · exact inRest
    obtain ⟨block, atEntry⟩ := starts entry inRest
    rw [← behind.tags entry listed unpassed,
      coalesce_writes isPrev prevSized sized (by omega), Heap.prevsize_set_nextfree,
      Heap.prevsize_set_prevsize, Heap.prevsize_set_size]
    split_ifs with isEnd inHeader
    · have tag := (tagged.ended freep chunk atFree (Or.inr isFree)).1
      rw [isFree, tag_free, ← isEnd] at tag
      exact iff_of_true (by omega) (by omega)
    · rw [inHeader, header_units_free atPrev prevWide (by omega) (by omega)] at atEntry
      exact nomatch atEntry
    · exact Iff.rfl
  -- the entry melts in one way only, and what it melts to is too small
  case small =>
    intro before other between split low high other'
    rcases passed_splits split with ⟨rfl, rfl⟩ | ⟨earlierRest, earlier⟩
    · obtain ⟨rfl, rfl⟩ := melts_unique disjoint whole melts other'
      omega
    · exact behind.small before other earlierRest earlier low high other'

end Melting

section Coalescing

variable {arena : Arena} {start : Heap} {entries : List Int} {units : Int}

/-- What the coalescing loop comes to. -/
def Foreseen (start : Heap) (entries : List Int) (units : Int) : Coalescing → Prop
  | .split _ _ => False
  | .exactFit after low => ∃ high, FirstMelted start entries units low high ∧
      after.largechunkSize low = high - low
  | .exhausted _ => ∀ low high, ¬ FirstMelted start entries units low high

/-- What is read after a chunk has melted into the one before. -/
theorem coalesced_words {heap : Heap} (lastp : Int) {freep prevp low high : Int}
    (prev : freep - heap.largechunkPrevsize freep = prevp)
    (prevSized : heap.largechunkSize prevp = low) (sized : heap.largechunkSize freep = high)
    (meets : prevp + low = freep) (lowWide : 3 ≤ low) (wide : 3 ≤ high) :
    (coalescePrevious heap lastp freep).largechunkSize prevp = low + high ∧
      (coalescePrevious heap lastp freep).largechunkSize freep = high ∧
      (coalescePrevious heap lastp freep).largechunkNextfree freep =
        (coalescePrevious heap lastp freep).largechunkNextfree lastp := by
  rw [coalesce_writes prev prevSized sized (by omega)]
  simp only [Heap.size_set_nextfree, Heap.size_set_prevsize, Heap.size_set_size,
    Heap.nextfree_set_nextfree, Heap.nextfree_set_prevsize, Heap.nextfree_set_size, if_true]
  refine ⟨?_, ?_, ?_⟩
  · rw [if_neg (by omega)]
  · rw [if_neg (by omega), if_neg (by omega), sized]
  · split_ifs <;> rfl

theorem coalesce_foreseen (disjoint : Disjoint start.largechunkSize (· ∈ entries))
    (distinct : entries.Nodup) (min : 3 ≤ arena.minChunkSize) (fuel : Nat) {heap : Heap}
    {layout : Layout Status} {front back passed : List Int}
    (sound : Sound arena heap layout (front ++ back))
    (standing : ∀ header chunk, layout.block header = some chunk → chunk.state ≠ .retired)
    (whole : entries = passed ++ back) (behind : Passed start entries units passed heap layout)
    {coalescing : Coalescing} (result : coalesceFreeList arena units fuel heap
      (lastEntry arena.freelist front)
      (heap.largechunkNextfree (lastEntry arena.freelist front)) = some coalescing) :
    Foreseen start entries units coalescing := by
  -- `passed` are the entries that the loop has seen, melted or not
  induction fuel generalizing heap layout front back passed with
  | zero => exact nomatch result
  | succ fuel ih =>
      cases back with
      | nil =>
          rw [List.append_nil] at sound whole
          have ended : heap.largechunkNextfree (lastEntry arena.freelist front) = 0 :=
            reaches_last _ sound.listed.linked
          rw [coalesceFreeList, if_pos ended] at result
          cases result
          -- at the end of the list all that has melted was too small
          rintro low high ⟨before, freep, rest, split, melts, enough, _⟩
          have few := behind.small before freep rest (whole.symm.trans split) low high melts
          omega
      | cons freep back =>
          obtain ⟨isFreep, nonnull, _⟩ := at_entry sound
          have onList : ∀ entry, entry ∈ freep :: back → ∃ chunk,
              layout.block entry = some chunk ∧ chunk.state = .free := by
            intro entry member
            obtain ⟨chunk, atEntry, isListed⟩ := (sound.listed.listed entry).mp
              (List.mem_append.mpr (Or.inr member))
            exact ⟨chunk, atEntry, isListed.resolve_right (standing entry chunk atEntry)⟩
          obtain ⟨chunk, atFree, isFree⟩ := onList freep (List.mem_cons_self ..)
          have wholeNext : entries = (passed ++ [freep]) ++ back := by
            rw [whole]
            simp
          rw [isFreep, coalesceFreeList, if_neg nonnull] at result
          by_cases adjacent : heap.largechunkPrevsize freep > 0
          · obtain ⟨previous, atPrev, prevFree, meets⟩ :=
              previous_chunk sound.tagged atFree isFree adjacent
            obtain ⟨wide, sized⟩ := sound.tagged.sized freep chunk atFree (Or.inl (Or.inr isFree))
            obtain ⟨prevWide, prevSized⟩ :=
              sound.tagged.sized _ previous atPrev (Or.inl (Or.inr prevFree))
            obtain ⟨total, rest, resumed⟩ := coalesced_words (lastEntry arena.freelist front) rfl
              prevSized sized meets prevWide wide
            have unpassed : freep ∉ passed := by
              rw [whole, List.nodup_append] at distinct
              exact fun earlier => distinct.2.2 freep earlier freep (List.mem_cons_self ..) rfl
            have isEntry : freep ∈ entries := by
              rw [whole]
              exact List.mem_append.mpr (Or.inr (List.mem_cons_self ..))
            have coalescable := (behind.tags freep isEntry unpassed).mp adjacent
            have melts := melts_now behind atPrev prevFree atFree isFree meets coalescable
            have few := (behind.rows freep chunk atFree isFree).2.2
            simp only [if_pos adjacent, total, rest] at result
            by_cases enough : previous.size + chunk.size ≥ units
            · -- the entry itself is too small to be split, as all entries are
              have whole' : ¬ chunk.size ≥ units + arena.minChunkSize := by omega
              simp only [if_pos enough, if_neg whole', Option.some.injEq] at result
              cases result
              refine ⟨freep + chunk.size, ⟨passed, freep, back, whole, melts, by omega,
                behind.small⟩, ?_⟩
              rw [total]
              omega
            · simp only [if_neg enough, resumed] at result
              refine ih (sound_coalesce sound atPrev prevFree atFree isFree meets) ?_ wholeNext
                (passed_melt sound.tagged behind disjoint whole atPrev prevFree atFree isFree meets
                  rfl coalescable ?_ (not_le.mp enough)) result
              · intro header block atHeader isRetired
                have moved := rearranges_merge atPrev (Or.inr prevFree) atFree (Or.inr isFree) meets
                  status_free_closed
                exact standing header block (retired_before moved atHeader isRetired) isRetired
              · intro entry member
                obtain ⟨block, atEntry, _⟩ := onList entry (List.mem_cons_of_mem freep member)
                exact ⟨block, atEntry⟩
          · rw [if_neg adjacent] at result
            have shifted : front ++ freep :: back = (front ++ [freep]) ++ back := by simp
            rw [shifted] at sound
            refine ih sound standing wholeNext
              (passed_skip behind whole distinct adjacent) ?_
            rw [last_entry_append]
            exact result

end Coalescing

section Uniqueness

variable {heap : Heap} {entries : List Int} {units : Int}

theorem first_melted_before {low high low' high' : Int}
    (disjoint : Disjoint heap.largechunkSize (· ∈ entries))
    {passed rest before after : List Int} {freep other : Int}
    (whole : entries = passed ++ freep :: rest) (whole' : entries = before ++ other :: after)
    (melts : Melts heap entries passed freep low high) (enough : units ≤ high - low)
    (melts' : Melts heap entries before other low' high')
    (small : ∀ front node back, before = front ++ node :: back →
      ∀ start stop, Melts heap entries front node start stop → stop - start < units)
    (reached : ∃ between, before = passed ++ between) : low = low' ∧ high = high' := by
  obtain ⟨between, rfl⟩ := reached
  rw [whole', List.append_assoc] at whole
  have tail := List.append_cancel_left whole
  cases between with
  | nil =>
      obtain ⟨rfl, _⟩ := List.cons.inj tail
      rw [List.append_nil] at melts' whole'
      exact melts_unique disjoint whole' melts melts'
  | cons node back =>
      obtain ⟨rfl, _⟩ := List.cons.inj tail
      have few := small passed node back rfl low high melts
      omega

/-- There is at most one chunk that is the first to be large enough. -/
theorem first_melted_unique (disjoint : Disjoint heap.largechunkSize (· ∈ entries))
    {low high low' high' : Int} (first : FirstMelted heap entries units low high)
    (other : FirstMelted heap entries units low' high') : low = low' ∧ high = high' := by
  obtain ⟨passed, freep, rest, whole, melts, enough, small⟩ := first
  obtain ⟨before, node, after, whole', melts', enough', small'⟩ := other
  rcases List.append_eq_append_iff.mp (whole.symm.trans whole') with
    ⟨between, isBefore, _⟩ | ⟨between, isPassed, _⟩
  · exact first_melted_before disjoint whole whole' melts enough melts' small' ⟨between, isBefore⟩
  · obtain ⟨sameLow, sameHigh⟩ := first_melted_before disjoint whole' whole melts' enough' melts
      small ⟨between, isPassed⟩
    exact ⟨sameLow.symm, sameHigh.symm⟩

end Uniqueness

end Sac2c.MeltedChunks
