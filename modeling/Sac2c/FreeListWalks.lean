import Sac2c.FreeList

/-!
The three loops of `SAC_HM_MallocLargeChunk` over the free list: the search for
a chunk, the coalescing of neighbours and the walk to the entry before a chunk.
Each follows the list it is given, so it ends after at most one round more than
there are entries.
-/

namespace Sac2c.FreeListWalks

open Headers LargeChunks Blocks Links BoundaryTags FreeList

section Search

variable {arena : Arena} {heap : Heap} {units : Int}

/-- What the search found among `nodes`, the entries behind `dummy`. -/
def Found (arena : Arena) (units : Int) (heap : Heap) (dummy bestp : Int) (nodes : List Int) :
    Search → Prop
  | .exactFit lastp freep => ∃ front back, nodes = front ++ freep :: back ∧
      lastp = lastEntry dummy front ∧ units ≤ heap.largechunkSize freep ∧
      heap.largechunkSize freep < units + arena.minChunkSize
  | .exhausted best => (best = bestp ∧ ∀ node, node ∈ nodes → heap.largechunkSize node < units) ∨
      (best ∈ nodes ∧ units + arena.minChunkSize ≤ heap.largechunkSize best)

theorem found_step {dummy node bestp better : Int} {rest : List Int} {search : Search}
    (found : Found arena units heap node better rest search)
    (kept : better = bestp ∧ heap.largechunkSize node < units ∨
      better = node ∧ units + arena.minChunkSize ≤ heap.largechunkSize node) :
    Found arena units heap dummy bestp (node :: rest) search := by
  cases search with
  | exactFit lastp freep =>
      obtain ⟨front, back, rfl, rfl, fits, near⟩ := found
      exact ⟨node :: front, back, rfl, rfl, fits, near⟩
  | exhausted best =>
      rcases found with ⟨rfl, small⟩ | ⟨inside, large⟩
      · rcases kept with ⟨rfl, tooSmall⟩ | ⟨rfl, large⟩
        · refine Or.inl ⟨rfl, ?_⟩
          intro other member
          rcases List.mem_cons.mp member with rfl | later
          · exact tooSmall
          · exact small other later
        · exact Or.inr ⟨List.mem_cons_self .., large⟩
      · exact Or.inr ⟨List.mem_cons_of_mem node inside, large⟩

theorem search_found (fuel : Nat) {dummy bestp : Int} {nodes : List Int}
    (path : Linked heap.largechunkNextfree dummy nodes) {search : Search}
    (found : searchFreeList arena units heap fuel dummy (heap.largechunkNextfree dummy) bestp =
      some search) : Found arena units heap dummy bestp nodes search := by
  induction fuel generalizing dummy bestp nodes with
  | zero => exact nomatch found
  | succ fuel ih =>
      cases nodes with
      | nil =>
          have ended : heap.largechunkNextfree dummy = 0 := path
          rw [searchFreeList, if_pos ended] at found
          cases found
          exact Or.inl ⟨rfl, fun _ => nofun⟩
      | cons node rest =>
          obtain ⟨isNode, nonnull, tail⟩ := path
          rw [searchFreeList, isNode, if_neg nonnull] at found
          split_ifs at found with small large
          · exact found_step (ih tail found) (Or.inl ⟨rfl, small⟩)
          · exact found_step (ih tail found) (Or.inr ⟨rfl, large⟩)
          · cases found
            exact ⟨[], rest, rfl, rfl, not_lt.mp small, not_le.mp large⟩

theorem search_returns (fuel : Nat) {dummy bestp : Int} {nodes : List Int}
    (path : Linked heap.largechunkNextfree dummy nodes) (enough : nodes.length < fuel) :
    ∃ search, searchFreeList arena units heap fuel dummy (heap.largechunkNextfree dummy) bestp =
      some search := by
  induction fuel generalizing dummy bestp nodes with
  | zero => exact absurd enough (Nat.not_lt_zero _)
  | succ fuel ih =>
      cases nodes with
      | nil =>
          have ended : heap.largechunkNextfree dummy = 0 := path
          exact ⟨.exhausted bestp, by rw [searchFreeList, if_pos ended]⟩
      | cons node rest =>
          obtain ⟨isNode, nonnull, tail⟩ := path
          have shorter : rest.length < fuel := Nat.lt_of_succ_lt_succ enough
          rw [searchFreeList, isNode, if_neg nonnull]
          split_ifs with small large
          · exact ih tail shorter
          · exact ih tail shorter
          · exact ⟨_, rfl⟩

theorem predecessor_found (fuel : Nat) {dummy freep lastp : Int} {nodes : List Int}
    (path : Linked heap.largechunkNextfree dummy nodes) (inside : freep ∈ nodes)
    (found : findPredecessor heap freep fuel dummy = some lastp) :
    ∃ front back, nodes = front ++ freep :: back ∧ lastp = lastEntry dummy front := by
  induction fuel generalizing dummy nodes with
  | zero => exact nomatch found
  | succ fuel ih =>
      cases nodes with
      | nil => exact nomatch inside
      | cons node rest =>
          obtain ⟨isNode, nonnull, tail⟩ := path
          rw [findPredecessor, isNode] at found
          split_ifs at found with differ
          · have later : freep ∈ rest := by
              rcases List.mem_cons.mp inside with same | later
              · exact absurd same.symm differ
              · exact later
            obtain ⟨front, back, rfl, rfl⟩ := ih tail later found
            exact ⟨node :: front, back, rfl, rfl⟩
          · cases found
            have same : node = freep := not_not.mp differ
            exact ⟨[], rest, by rw [same]; rfl, rfl⟩

theorem predecessor_returns (fuel : Nat) {dummy freep : Int} {nodes : List Int}
    (path : Linked heap.largechunkNextfree dummy nodes) (inside : freep ∈ nodes)
    (enough : nodes.length < fuel) :
    ∃ lastp, findPredecessor heap freep fuel dummy = some lastp := by
  induction fuel generalizing dummy nodes with
  | zero => exact absurd enough (Nat.not_lt_zero _)
  | succ fuel ih =>
      cases nodes with
      | nil => exact nomatch inside
      | cons node rest =>
          obtain ⟨isNode, nonnull, tail⟩ := path
          rw [findPredecessor, isNode]
          split_ifs with differ
          · have later : freep ∈ rest := by
              rcases List.mem_cons.mp inside with same | later
              · exact absurd same.symm differ
              · exact later
            exact ih tail later (Nat.lt_of_succ_lt_succ enough)
          · exact ⟨dummy, rfl⟩

end Search

/-- No round of the coalescing loop melts a chunk of `avoided` into its
predecessor. -/
def CoalescingAvoids (avoided : List Int) (units : Int) : Nat → Heap → Int → Int → Prop
  | 0, _, _, _ => True
  | fuel + 1, heap, lastp, freep =>
      if freep = 0 then True
      else if heap.largechunkPrevsize freep > 0 then
        let prevp := freep - heap.largechunkPrevsize freep
        let heap := coalescePrevious heap lastp freep
        freep ∉ avoided ∧ (heap.largechunkSize prevp ≥ units ∨
          CoalescingAvoids avoided units fuel heap lastp (heap.largechunkNextfree freep))
      else CoalescingAvoids avoided units fuel heap freep (heap.largechunkNextfree freep)

theorem coalescing_avoids_none (units : Int) (fuel : Nat) (heap : Heap) (lastp freep : Int) :
    CoalescingAvoids [] units fuel heap lastp freep := by
  induction fuel generalizing heap lastp freep with
  | zero => trivial
  | succ fuel ih =>
      rw [CoalescingAvoids]
      split_ifs with isNull adjacent
      · exact ⟨List.not_mem_nil, Or.inr (ih _ _ _)⟩
      · exact ih _ _ _

section Coalescing

variable {arena : Arena} {units : Int}

/-- The heap is sound with a free list no longer than `bound`. -/
def Settled (arena : Arena) (bound : Nat) (heap : Heap) (layout : Layout Status) (after : Heap)
    (renewed : Layout Status) : Prop :=
  (∃ chain, Sound arena after renewed chain ∧ chain.length ≤ bound) ∧
    Rearranges layout renewed ∧ KeepsLive layout renewed ∧ SameRecords heap after

/-- What the coalescing loop leaves behind. -/
def Coalesced (arena : Arena) (units : Int) (bound : Nat) (heap : Heap)
    (layout : Layout Status) : Coalescing → Prop
  | .split after bestp => ∃ renewed chunk, Settled arena bound heap layout after renewed ∧
      renewed.block bestp = some chunk ∧ chunk.state = .free ∧
      units + arena.minChunkSize ≤ chunk.size
  | .exactFit after freep => ∃ renewed chunk, Settled arena bound heap layout after renewed ∧
      renewed.block freep = some chunk ∧ chunk.state = .free ∧ units ≤ chunk.size
  | .exhausted after => ∃ renewed, Settled arena bound heap layout after renewed

theorem settled_trans {first second third : Heap} {before middle after : Layout Status}
    {less bound : Nat} (shrinks : less ≤ bound) (rearranges : Rearranges before middle)
    (keeps : KeepsLive before middle) (records : SameRecords first second)
    (rest : Settled arena less second middle third after) :
    Settled arena bound first before third after := by
  obtain ⟨⟨chain, sound, short⟩, moved, kept, same⟩ := rest
  exact ⟨⟨chain, sound, Nat.le_trans short shrinks⟩, rearranges.trans moved, keeps.trans kept,
    same.1.trans records.1, same.2.1.trans records.2.1, same.2.2.trans records.2.2⟩

theorem coalesced_trans {first second : Heap} {before after : Layout Status} {less bound : Nat}
    (shrinks : less ≤ bound) (rearranges : Rearranges before after)
    (keeps : KeepsLive before after) (records : SameRecords first second) {coalescing : Coalescing}
    (rest : Coalesced arena units less second after coalescing) :
    Coalesced arena units bound first before coalescing := by
  cases coalescing with
  | split heap bestp =>
      obtain ⟨renewed, chunk, settled, fits⟩ := rest
      exact ⟨renewed, chunk, settled_trans shrinks rearranges keeps records settled, fits⟩
  | exactFit heap freep =>
      obtain ⟨renewed, chunk, settled, fits⟩ := rest
      exact ⟨renewed, chunk, settled_trans shrinks rearranges keeps records settled, fits⟩
  | exhausted heap =>
      obtain ⟨renewed, settled⟩ := rest
      exact ⟨renewed, settled_trans shrinks rearranges keeps records settled⟩

theorem keeps_live_merge {layout : Layout Status} {prevp freep : Int}
    {previous chunk : Block Status} (atPrev : layout.block prevp = some previous)
    (prevFree : previous.state = .free) (atFree : layout.block freep = some chunk)
    (notLive : chunk.state ≠ .live) (adjacent : prevp + previous.size = freep) {status : Status}
    (newNotLive : status ≠ .live) :
    KeepsLive layout (layout.merge prevp freep previous chunk atPrev atFree adjacent status) := by
  intro start block isLive
  by_cases isPrev : start = prevp
  · subst isPrev
    rw [layout.merge_low, atPrev]
    constructor
    · intro isNew
      cases isNew
      exact absurd isLive newNotLive
    · intro isOld
      cases isOld
      rw [prevFree] at isLive
      exact nomatch isLive
  · by_cases isFree : start = freep
    · subst isFree
      rw [layout.merge_high, atFree]
      constructor
      · exact nofun
      · intro isOld
        cases isOld
        exact absurd isLive notLive
    · rw [layout.merge_other atPrev atFree adjacent status isPrev isFree]

/-- One list entry with a free predecessor, melted into it. -/
theorem coalesce_entry {heap : Heap} {layout : Layout Status} {front back : List Int} {freep : Int}
    (sound : Sound arena heap layout (front ++ freep :: back))
    (tagged : heap.largechunkPrevsize freep > 0) {chunk : Block Status}
    (atFree : layout.block freep = some chunk) (isFree : chunk.state = .free) :
    ∃ (renewed : Layout Status) (whole : Block Status),
      Sound arena (coalescePrevious heap (lastEntry arena.freelist front) freep) renewed
        (front ++ back) ∧ Rearranges layout renewed ∧ KeepsLive layout renewed ∧
      renewed.block (freep - heap.largechunkPrevsize freep) = some whole ∧
      whole.state = .free ∧ chunk.size ≤ whole.size ∧
      (coalescePrevious heap (lastEntry arena.freelist front) freep).largechunkSize freep =
        chunk.size ∧
      (coalescePrevious heap (lastEntry arena.freelist front) freep).largechunkNextfree freep =
        heap.largechunkNextfree freep := by
  have isClosed : chunk.state.IsClosed := Or.inr isFree
  obtain ⟨wide, sized⟩ := sound.tagged.sized freep chunk atFree (Or.inl isClosed)
  rcases sound.tagged.begun freep chunk atFree (Or.inl isClosed) with untagged | ⟨prevp, previous,
    atPrev, prevFree, adjacent⟩
  · omega
  · have prevClosed : previous.state.IsClosed := Or.inr prevFree
    obtain ⟨prevWide, prevSized⟩ := sound.tagged.sized prevp previous atPrev (Or.inl prevClosed)
    obtain ⟨prevTag, _⟩ := sound.tagged.ended prevp previous atPrev prevClosed
    rw [adjacent, prevFree, tag_free] at prevTag
    have notLive : chunk.state ≠ .live := by
      rw [isFree]
      exact nofun
    have isPrev : freep - heap.largechunkPrevsize freep = prevp := by omega
    refine ⟨layout.merge prevp freep previous chunk atPrev atFree adjacent .free, _,
      sound_coalesce sound atPrev prevFree atFree isFree adjacent,
      rearranges_merge atPrev prevClosed atFree isClosed adjacent status_free_closed,
      keeps_live_merge atPrev prevFree atFree notLive adjacent nofun,
      by rw [isPrev]; exact layout.merge_low atPrev atFree adjacent .free, rfl,
      by dsimp only; omega, ?_, ?_⟩
    · rw [coalesce_writes (by omega) prevSized sized (by omega)]
      rw [Heap.size_set_nextfree, Heap.size_set_prevsize, Heap.size_set_size, if_neg (by omega),
        if_neg (by omega)]
      exact sized
    · rw [coalesce_writes (by omega) prevSized sized (by omega), Heap.nextfree_set_nextfree]
      split_ifs with same
      · rfl
      · rfl

/-- Where a walk over the free list stands behind `front`. -/
theorem at_entry {heap : Heap} {layout : Layout Status} {front back : List Int} {freep : Int}
    (sound : Sound arena heap layout (front ++ freep :: back)) :
    heap.largechunkNextfree (lastEntry arena.freelist front) = freep ∧ freep ≠ 0 ∧
      ∃ chunk, layout.block freep = some chunk ∧ chunk.state.IsListed := by
  obtain ⟨toFree, nonnull, _⟩ :=
    (reaches_append _ _ freep 0 front back).mp sound.listed.linked
  exact ⟨reaches_last _ toFree, nonnull, (sound.listed.listed freep).mp
    (List.mem_append.mpr (Or.inr (List.mem_cons_self ..)))⟩

/-- The loop goes on from the link of the chunk that left the list. -/
theorem coalesce_resumes (heap : Heap) (lastp freep : Int) :
    (coalescePrevious heap lastp freep).largechunkNextfree lastp =
      heap.largechunkNextfree freep := by
  simp [coalescePrevious]

/-- Melting two chunks retires none. -/
theorem retired_before {layout renewed : Layout Status} (moved : Rearranges layout renewed)
    {header : Int} {chunk : Block Status} (atHeader : renewed.block header = some chunk)
    (isRetired : chunk.state = .retired) : layout.block header = some chunk := by
  refine (moved.fixed header chunk ?_).mp atHeader
  rw [isRetired]
  exact retired_not_closed

/-- The loop keeps the heap sound as long as it melts free chunks only, and ends
with the list. -/
theorem coalesce_spec (avoided : List Int) (fuel : Nat) {heap : Heap} {layout : Layout Status}
    {front back : List Int} (sound : Sound arena heap layout (front ++ back))
    (retired : ∀ header chunk, layout.block header = some chunk → chunk.state = .retired →
      header ∈ avoided)
    (avoids : CoalescingAvoids avoided units fuel heap (lastEntry arena.freelist front)
      (heap.largechunkNextfree (lastEntry arena.freelist front))) :
    (∀ coalescing, coalesceFreeList arena units fuel heap (lastEntry arena.freelist front)
      (heap.largechunkNextfree (lastEntry arena.freelist front)) = some coalescing →
      Coalesced arena units (front ++ back).length heap layout coalescing) ∧
    (back.length < fuel → ∃ coalescing, coalesceFreeList arena units fuel heap
      (lastEntry arena.freelist front)
      (heap.largechunkNextfree (lastEntry arena.freelist front)) = some coalescing) := by
  -- `front` is the list up to `lastp`; each round melts or passes the first entry of `back`
  induction fuel generalizing heap layout front back with
  | zero => exact ⟨nofun, fun enough => absurd enough (Nat.not_lt_zero _)⟩
  | succ fuel ih =>
      cases back with
      | nil =>
          rw [List.append_nil] at sound ⊢
          have ended : heap.largechunkNextfree (lastEntry arena.freelist front) = 0 :=
            reaches_last _ sound.listed.linked
          simp only [coalesceFreeList, if_pos ended]
          refine ⟨?_, fun _ => ⟨_, rfl⟩⟩
          intro coalescing result
          cases result
          exact ⟨layout, ⟨front, sound, Nat.le_refl _⟩, Rearranges.refl layout,
            fun _ _ _ => Iff.rfl, rfl, rfl, rfl⟩
      | cons freep back =>
          obtain ⟨isFreep, nonnull, chunk, atFree, isListed⟩ := at_entry sound
          rw [isFreep] at avoids ⊢
          simp only [coalesceFreeList, CoalescingAvoids, if_neg nonnull] at avoids ⊢
          by_cases adjacent : heap.largechunkPrevsize freep > 0
          · simp only [if_pos adjacent] at avoids ⊢
            obtain ⟨spared, avoids⟩ := avoids
            -- a retired chunk would be melted as if it were free; `avoids` excludes it
            have isFree : chunk.state = .free := by
              rcases isListed with isFree | isRetired
              · exact isFree
              · exact absurd (retired freep chunk atFree isRetired) spared
            obtain ⟨renewed, whole, soundNew, moved, kept, atPrev, wholeFree, grown, sizeKept,
              linkKept⟩ := coalesce_entry sound adjacent atFree isFree
            have prevSized :=
              (soundNew.tagged.sized _ whole atPrev (Or.inl (Or.inr wholeFree))).2
            have records : SameRecords heap
                (coalescePrevious heap (lastEntry arena.freelist front) freep) := ⟨rfl, rfl, rfl⟩
            have shrinks : (front ++ back).length ≤ (front ++ freep :: back).length := by simp
            have settled : Settled arena (front ++ freep :: back).length heap layout
                (coalescePrevious heap (lastEntry arena.freelist front) freep) renewed :=
              ⟨⟨_, soundNew, shrinks⟩, moved, kept, records⟩
            rw [prevSized] at avoids ⊢
            rw [sizeKept]
            by_cases enough : whole.size ≥ units
            · simp only [if_pos enough]
              split_ifs with large
              · refine ⟨?_, fun _ => ⟨_, rfl⟩⟩
                intro coalescing result
                cases result
                exact ⟨renewed, whole, settled, atPrev, wholeFree, by omega⟩
              · refine ⟨?_, fun _ => ⟨_, rfl⟩⟩
                intro coalescing result
                cases result
                exact ⟨renewed, whole, settled, atPrev, wholeFree, enough⟩
            · simp only [if_neg enough] at avoids ⊢
              rw [linkKept, ← coalesce_resumes heap (lastEntry arena.freelist front) freep]
                at avoids ⊢
              have retiredNew : ∀ header chunk, renewed.block header = some chunk →
                  chunk.state = .retired → header ∈ avoided := fun header chunk atHeader isRetired =>
                retired header chunk (retired_before moved atHeader isRetired) isRetired
              obtain ⟨result, ends⟩ := ih soundNew retiredNew (avoids.resolve_left enough)
              exact ⟨fun coalescing equals => coalesced_trans shrinks moved kept records
                (result coalescing equals), fun shorter => ends (Nat.lt_of_succ_lt_succ shorter)⟩
          · simp only [if_neg adjacent] at avoids ⊢
            have shifted : front ++ freep :: back = (front ++ [freep]) ++ back := by simp
            rw [shifted] at sound ⊢
            have next := ih sound retired
            rw [last_entry_append] at next
            obtain ⟨result, ends⟩ := next avoids
            exact ⟨result, fun enough => ends (Nat.lt_of_succ_lt_succ enough)⟩

end Coalescing

section Served

variable {arena : Arena} {heap : Heap} {layout : Layout Status} {chain : List Int} {units : Int}

/-- The chunk the search settles on, where a retired wilderness must not be. -/
def SearchAvoids (avoided : List Int) : Search → Prop
  | .exactFit _ freep => freep ∉ avoided
  | .exhausted bestp => bestp ∉ avoided

theorem listed_free {avoided : List Int} (sound : Sound arena heap layout chain)
    (retired : ∀ header chunk, layout.block header = some chunk → chunk.state = .retired →
      header ∈ avoided) {header : Int} (member : header ∈ chain) (spared : header ∉ avoided) :
    ∃ chunk, layout.block header = some chunk ∧ chunk.state = .free ∧
      heap.largechunkSize header = chunk.size := by
  obtain ⟨chunk, atHeader, isListed⟩ := (sound.listed.listed header).mp member
  have sized := (sound.tagged.sized header chunk atHeader (listed_chunk isListed)).2
  rcases isListed with isFree | isRetired
  · exact ⟨chunk, atHeader, isFree, sized⟩
  · exact absurd (retired header chunk atHeader isRetired) spared

theorem search_hands_out {avoided : List Int} (sound : Sound arena heap layout chain)
    (wide : 3 ≤ units) (min : 3 ≤ arena.minChunkSize)
    (retired : ∀ header chunk, layout.block header = some chunk → chunk.state = .retired →
      header ∈ avoided) {fuel : Nat} {search : Search}
    (found : searchFreeList arena units heap fuel arena.freelist
      (heap.largechunkNextfree arena.freelist) 0 = some search)
    (avoids : SearchAvoids avoided search) :
    (∀ lastp freep, search = .exactFit lastp freep →
      HandsOut arena units heap layout (exactFit heap lastp freep)) ∧
    (∀ bestp, search = .exhausted bestp → bestp ≠ 0 →
      HandsOut arena units heap layout (split arena units heap bestp)) := by
  have result := search_found fuel sound.listed.linked found
  constructor
  · rintro lastp freep rfl
    obtain ⟨front, back, rfl, rfl, fits, _⟩ := result
    obtain ⟨chunk, atFree, isFree, sized⟩ := listed_free sound retired
      (List.mem_append.mpr (Or.inr (List.mem_cons_self ..))) avoids
    exact exact_fit_hands_out sound atFree isFree (sized ▸ fits)
  · rintro bestp rfl nonnull
    rcases result with ⟨isNull, _⟩ | ⟨member, large⟩
    · exact absurd isNull nonnull
    · obtain ⟨chunk, atBest, isFree, sized⟩ := listed_free sound retired member avoids
      exact split_free_hands_out sound atBest isFree wide (by omega)

theorem coalesced_split_hands_out {bound : Nat} {after : Heap} {bestp : Int} (wide : 3 ≤ units)
    (min : 3 ≤ arena.minChunkSize)
    (coalesced : Coalesced arena units bound heap layout (.split after bestp)) :
    HandsOut arena units heap layout (split arena units after bestp) := by
  obtain ⟨renewed, chunk, ⟨⟨nodes, sound, _⟩, moved, kept, records⟩, atBest, isFree, large⟩ :=
    coalesced
  exact hands_out_after moved kept records
    (split_free_hands_out sound atBest isFree wide (by omega))

theorem coalesced_exact_fit_hands_out {bound : Nat} {after : Heap} {freep : Int}
    (coalesced : Coalesced arena units bound heap layout (.exactFit after freep)) (fuel : Nat) :
    (∀ lastp, findPredecessor after freep fuel arena.freelist = some lastp →
      HandsOut arena units heap layout (exactFit after lastp freep)) ∧
    (bound < fuel → ∃ lastp, findPredecessor after freep fuel arena.freelist = some lastp) := by
  obtain ⟨renewed, chunk, ⟨⟨nodes, sound, short⟩, moved, kept, records⟩, atFree, isFree, fits⟩ :=
    coalesced
  have member : freep ∈ nodes := (sound.listed.listed freep).mpr ⟨chunk, atFree, Or.inl isFree⟩
  refine ⟨?_, fun enough => predecessor_returns fuel sound.listed.linked member
    (Nat.lt_of_le_of_lt short enough)⟩
  intro lastp found
  obtain ⟨front, back, rfl, rfl⟩ := predecessor_found fuel sound.listed.linked member found
  exact hands_out_after moved kept records (exact_fit_hands_out sound atFree isFree fits)

end Served

end Sac2c.FreeListWalks
