import Sac2c.Blocks
import Sac2c.Links
import Sac2c.LargeChunks

/-!
What the words in a large-chunk arena mean. A layout gives every chunk, the
dummy entry of the free list and the unit behind a bin as blocks. `Tagged` says
that the header words agree with it, boundary tags included; `Listed` that the
links thread exactly the free chunks. Each write sequence of the allocator
turns one layout into the next.
-/

namespace Sac2c.BoundaryTags

open Headers LargeChunks Blocks Links

/-- A retired chunk is on the free list but nothing stands behind it, so it has
no tag; a wild one is a wilderness. -/
inductive Status where
  | live
  | free
  | retired
  | wild
  | stop
  | dummy
  deriving DecidableEq

def Status.IsClosed (status : Status) : Prop := status = .live ∨ status = .free

def Status.IsChunk (status : Status) : Prop :=
  status.IsClosed ∨ status = .retired ∨ status = .wild

def Status.IsListed (status : Status) : Prop := status = .free ∨ status = .retired

instance (status : Status) : Decidable status.IsClosed := inferInstanceAs (Decidable (_ ∨ _))

instance (status : Status) : Decidable status.IsChunk := inferInstanceAs (Decidable (_ ∨ _))

instance (status : Status) : Decidable status.IsListed := inferInstanceAs (Decidable (_ ∨ _))

/-- The PREVSIZE word of whatever follows the chunk. -/
def tag (status : Status) (size : Int) : Int := if status = .free then size else -1

@[simp] theorem tag_live (size : Int) : tag .live size = -1 := rfl

@[simp] theorem tag_free (size : Int) : tag .free size = size := rfl

/-- The PREVSIZE word of a chunk is -1 unless the chunk before it is free. -/
def Begun (heap : Heap) (layout : Layout Status) (header : Int) : Prop :=
  heap.largechunkPrevsize header = -1 ∨
    ∃ prevp previous, layout.block prevp = some previous ∧ previous.state = .free ∧
      prevp + previous.size = header

structure Tagged (arena : Arena) (heap : Heap) (layout : Layout Status) : Prop where
  sized : ∀ header chunk, layout.block header = some chunk → chunk.state.IsChunk →
    3 ≤ chunk.size ∧ heap.largechunkSize header = chunk.size
  owned : ∀ header chunk, layout.block header = some chunk → chunk.state.IsClosed →
    heap.largechunkArena header = arena.self
  ended : ∀ header chunk, layout.block header = some chunk → chunk.state.IsClosed →
    heap.largechunkPrevsize (header + chunk.size) = tag chunk.state chunk.size ∧
      ∃ follower, layout.block (header + chunk.size) = some follower ∧ follower.state ≠ .dummy
  begun : ∀ header chunk, layout.block header = some chunk → chunk.state.IsChunk →
    Begun heap layout header
  dummy : layout.block arena.freelist = some ⟨3, .dummy⟩
  idle : heap.largechunkSize arena.freelist = 0 ∧ heap.largechunkPrevsize arena.freelist = -1
  placed : ∀ start block, layout.block start = some block → 0 < start

def OnList (layout : Layout Status) (header : Int) : Prop :=
  ∃ chunk, layout.block header = some chunk ∧ chunk.state.IsListed

structure Listed (arena : Arena) (heap : Heap) (layout : Layout Status) (chain : List Int) :
    Prop where
  linked : Linked heap.largechunkNextfree arena.freelist chain
  distinct : chain.Nodup
  listed : ∀ header, header ∈ chain ↔ OnList layout header

/-- Every unit written to lies in a block. -/
def Inside (heap : Heap) (layout : Layout Status) : Prop :=
  ∀ unit, unit ∈ heap.written → layout.Covers unit

structure Sound (arena : Arena) (heap : Heap) (layout : Layout Status) (chain : List Int) :
    Prop where
  tagged : Tagged arena heap layout
  listed : Listed arena heap layout chain
  inside : Inside heap layout

theorem status_live_closed : Status.live.IsClosed := Or.inl rfl

theorem status_free_closed : Status.free.IsClosed := Or.inr rfl

theorem retired_not_closed : ¬ Status.retired.IsClosed := by decide

theorem wild_not_closed : ¬ Status.wild.IsClosed := by decide

theorem stop_not_chunk : ¬ Status.stop.IsChunk := by decide

theorem live_not_listed : ¬ Status.live.IsListed := by decide

theorem wild_not_listed : ¬ Status.wild.IsListed := by decide

section Entries

variable {arena : Arena} {heap : Heap} {layout : Layout Status} {chain : List Int}

/-- The header units of a chunk and the dummy entry hold no other start. -/
theorem header_units_free {start unit : Int} {block : Block Status}
    (atStart : layout.block start = some block) (wide : 3 ≤ block.size)
    (above : start < unit) (below : unit < start + 3) : layout.block unit = none :=
  layout.block_inside atStart above (by omega)

theorem header_covered {start unit : Int} {block : Block Status}
    (atStart : layout.block start = some block) (wide : 3 ≤ block.size)
    (above : start ≤ unit) (below : unit < start + 3) : layout.Covers unit :=
  ⟨start, block, atStart, above, by omega⟩

theorem covers_header {start : Int} {block : Block Status}
    (atStart : layout.block start = some block) (wide : 3 ≤ block.size) (offset : Int)
    (above : 0 ≤ offset) (below : offset < 3) : layout.Covers (start + offset) :=
  header_covered atStart wide (by omega) (by omega)

theorem chunk_not_dummy {status : Status} (isChunk : status.IsChunk) : status ≠ .dummy := by
  rintro rfl
  exact absurd isChunk (by decide)

theorem listed_chunk {status : Status} (listed : status.IsListed) : status.IsChunk := by
  rcases listed with rfl | rfl
  · exact Or.inl status_free_closed
  · exact Or.inr (Or.inl rfl)

theorem Tagged.wide (tagged : Tagged arena heap layout) {header : Int} {chunk : Block Status}
    (atHeader : layout.block header = some chunk) (isChunk : chunk.state.IsChunk) :
    3 ≤ chunk.size := (tagged.sized header chunk atHeader isChunk).1

/-- The dummy and the members of the free list are blocks with room for a link. -/
theorem Sound.entry (sound : Sound arena heap layout chain) {entry : Int}
    (isEntry : entry = arena.freelist ∨ entry ∈ chain) :
    ∃ block, layout.block entry = some block ∧ 3 ≤ block.size := by
  rcases isEntry with rfl | member
  · exact ⟨_, sound.tagged.dummy, le_refl 3⟩
  · obtain ⟨chunk, atEntry, isListed⟩ := (sound.listed.listed entry).mp member
    exact ⟨chunk, atEntry, sound.tagged.wide atEntry (listed_chunk isListed)⟩

theorem Sound.dummy_unlisted (sound : Sound arena heap layout chain) : arena.freelist ∉ chain := by
  intro member
  obtain ⟨chunk, atDummy, isListed⟩ := (sound.listed.listed arena.freelist).mp member
  rw [sound.tagged.dummy] at atDummy
  cases atDummy
  exact absurd isListed (by decide)

theorem Sound.entries_distinct (sound : Sound arena heap layout chain) :
    (arena.freelist :: chain).Nodup :=
  List.nodup_cons.mpr ⟨sound.dummy_unlisted, sound.listed.distinct⟩

end Entries

/-- Only the words of memory and the units written count. -/
theorem Sound.congr {arena : Arena} {heap : Heap} {layout : Layout Status} {chain : List Int}
    (sound : Sound arena heap layout chain) {changed : Heap} (first : changed.first = heap.first)
    (second : changed.second = heap.second) (written : changed.written ⊆ heap.written) :
    Sound arena changed layout chain := by
  cases heap
  cases changed
  cases first
  cases second
  exact ⟨⟨sound.tagged.sized, sound.tagged.owned, sound.tagged.ended, sound.tagged.begun,
    sound.tagged.dummy, sound.tagged.idle, sound.tagged.placed⟩,
    ⟨sound.listed.linked, sound.listed.distinct, sound.listed.listed⟩,
    fun unit inside => sound.inside unit (written inside)⟩

section Tags

variable {arena : Arena} {heap : Heap} {layout : Layout Status}

/-- A link is written into a unit no header word of another chunk lies in. -/
theorem tagged_set_nextfree (tagged : Tagged arena heap layout) {entry : Int}
    {block : Block Status} (atEntry : layout.block entry = some block) (wide : 3 ≤ block.size)
    (link : Int) : Tagged arena (heap.setLargechunkNextfree entry link) layout where
  sized := tagged.sized
  owned := by
    intro header chunk atHeader isClosed
    have apart : header ≠ entry + 1 := by
      rintro rfl
      rw [header_units_free atEntry wide (by omega) (by omega)] at atHeader
      exact nomatch atHeader
    rw [Heap.arena_set_nextfree, if_neg (by omega)]
    exact tagged.owned header chunk atHeader isClosed
  ended := tagged.ended
  begun := tagged.begun
  dummy := tagged.dummy
  idle := tagged.idle
  placed := tagged.placed

/-- Between `start` and `stop`, both of them borders of old chunks, a heap and its
layout are rewritten; the word at `stop` is the only one outside that changes. -/
structure Rewrite (heap changed : Heap) (layout renewed : Layout Status) (start stop : Int) :
    Prop where
  first : ∃ chunk, layout.block start = some chunk ∧ chunk.state.IsChunk
  rising : start < stop
  within : ∀ other block, layout.block other = some block → start ≤ other → other < stop →
    other + block.size ≤ stop ∧ block.state.IsChunk
  outside : ∀ other, other < start ∨ stop ≤ other → renewed.block other = layout.block other
  size : ∀ other block, layout.block other = some block → 3 ≤ block.size →
    other < start ∨ stop ≤ other → changed.largechunkSize other = heap.largechunkSize other
  owner : ∀ other block, layout.block other = some block → 3 ≤ block.size →
    other < start ∨ stop ≤ other → changed.largechunkArena other = heap.largechunkArena other
  prevsize : ∀ other block, layout.block other = some block →
    other ≤ start ∨ stop < other ∨ block.state = .dummy →
    changed.largechunkPrevsize other = heap.largechunkPrevsize other

/-- A predecessor outside of the rewritten part is still there. -/
theorem begun_carried (tagged : Tagged arena heap layout) {changed : Heap}
    {renewed : Layout Status} {start stop : Int}
    (rewrite : Rewrite heap changed layout renewed start stop) {other : Int}
    {block : Block Status} (atOther : layout.block other = some block)
    (isChunk : block.state.IsChunk) (out : other ≤ start ∨ stop < other) :
    Begun changed renewed other := by
  rcases tagged.begun other block atOther isChunk with untagged | ⟨prevp, previous, atPrev,
    isFree, meets⟩
  · have kept := rewrite.prevsize other block atOther (out.imp_right Or.inl)
    exact Or.inl (kept.trans untagged)
  · have size := layout.nonempty prevp previous atPrev
    have prevOut : prevp < start ∨ stop ≤ prevp := by
      by_contra inside
      have fits := (rewrite.within prevp previous atPrev (by omega) (by omega)).1
      omega
    exact Or.inr ⟨prevp, previous, (rewrite.outside prevp prevOut).trans atPrev, isFree, meets⟩

/-- Only what lies in the rewritten part, and the word behind it, needs a check. -/
theorem tagged_rewrite (tagged : Tagged arena heap layout) {changed : Heap}
    {renewed : Layout Status} {start stop : Int}
    (rewrite : Rewrite heap changed layout renewed start stop)
    (first : ∃ chunk, renewed.block start = some chunk ∧ chunk.state.IsChunk)
    (sized : ∀ header chunk, start ≤ header → header < stop →
      renewed.block header = some chunk → chunk.state.IsChunk ∧ 3 ≤ chunk.size ∧
        changed.largechunkSize header = chunk.size)
    (closed : ∀ header chunk, start ≤ header → header < stop →
      renewed.block header = some chunk → chunk.state.IsClosed →
        changed.largechunkArena header = arena.self ∧
        changed.largechunkPrevsize (header + chunk.size) = tag chunk.state chunk.size ∧
        ∃ follower, renewed.block (header + chunk.size) = some follower ∧
          follower.state ≠ .dummy)
    (begun : ∀ header chunk, start < header → header < stop →
      renewed.block header = some chunk → Begun changed renewed header)
    (behind : ∀ chunk, layout.block stop = some chunk → chunk.state.IsChunk →
      Begun changed renewed stop) :
    Tagged arena changed renewed := by
  obtain ⟨oldFirst, atStart, firstChunk⟩ := rewrite.first
  obtain ⟨newFirst, atNewStart, newFirstChunk⟩ := first
  have dummyOut : arena.freelist < start ∨ stop ≤ arena.freelist := by
    by_contra inside
    exact chunk_not_dummy
      (rewrite.within arena.freelist _ tagged.dummy (by omega) (by omega)).2 rfl
  constructor
  case sized =>
    intro header chunk atHeader isChunk
    by_cases out : header < start ∨ stop ≤ header
    · rw [rewrite.outside header out] at atHeader
      obtain ⟨wide, same⟩ := tagged.sized header chunk atHeader isChunk
      exact ⟨wide, (rewrite.size header chunk atHeader wide out).trans same⟩
    · exact (sized header chunk (by omega) (by omega) atHeader).2
  case owned =>
    intro header chunk atHeader isClosed
    by_cases out : header < start ∨ stop ≤ header
    · rw [rewrite.outside header out] at atHeader
      have wide := tagged.wide atHeader (Or.inl isClosed)
      exact (rewrite.owner header chunk atHeader wide out).trans
        (tagged.owned header chunk atHeader isClosed)
    · exact (closed header chunk (by omega) (by omega) atHeader isClosed).1
  case ended =>
    intro header chunk atHeader isClosed
    by_cases out : header < start ∨ stop ≤ header
    · rw [rewrite.outside header out] at atHeader
      obtain ⟨tagOk, follower, atEnd, notDummy⟩ := tagged.ended header chunk atHeader isClosed
      have size := layout.nonempty header chunk atHeader
      -- the chunk ends at the border at the latest
      have endOut : header + chunk.size ≤ start ∨ stop < header + chunk.size := by
        rcases out with below | above
        · exact Or.inl (layout.apart header start chunk oldFirst atHeader atStart below)
        · exact Or.inr (by omega)
      refine ⟨(rewrite.prevsize _ follower atEnd (endOut.imp_right Or.inl)).trans tagOk, ?_⟩
      by_cases meets : header + chunk.size = start
      · exact ⟨newFirst, by rw [meets, atNewStart], chunk_not_dummy newFirstChunk⟩
      · exact ⟨follower, (rewrite.outside _ (by omega)).trans atEnd, notDummy⟩
    · exact (closed header chunk (by omega) (by omega) atHeader isClosed).2
  case begun =>
    intro header chunk atHeader isChunk
    by_cases isStart : header = start
    · subst isStart
      exact begun_carried tagged rewrite atStart firstChunk (Or.inl (le_refl header))
    · by_cases inside : start < header ∧ header < stop
      · exact begun header chunk inside.1 inside.2 atHeader
      · rw [rewrite.outside header (by omega)] at atHeader
        by_cases isStop : header = stop
        · subst isStop
          exact behind chunk atHeader isChunk
        · exact begun_carried tagged rewrite atHeader isChunk (by omega)
  case dummy => exact (rewrite.outside arena.freelist dummyOut).trans tagged.dummy
  case idle =>
    exact ⟨(rewrite.size _ _ tagged.dummy (le_refl 3) dummyOut).trans tagged.idle.1,
      (rewrite.prevsize _ _ tagged.dummy (Or.inr (Or.inr rfl))).trans tagged.idle.2⟩
  case placed =>
    intro header block atHeader
    by_cases out : header < start ∨ stop ≤ header
    · rw [rewrite.outside header out] at atHeader
      exact tagged.placed header block atHeader
    · have positive := tagged.placed start oldFirst atStart
      omega

/-- The chunk behind keeps its PREVSIZE word if no free chunk ends there. -/
theorem begun_behind (tagged : Tagged arena heap layout) {changed : Heap}
    {renewed : Layout Status} {start stop : Int}
    (outside : ∀ other, other < start ∨ stop ≤ other → renewed.block other = layout.block other)
    (kept : changed.largechunkPrevsize stop = heap.largechunkPrevsize stop)
    (notFree : ∀ other block, layout.block other = some block → start ≤ other →
      other + block.size = stop → block.state ≠ .free)
    {chunk : Block Status} (atStop : layout.block stop = some chunk)
    (isChunk : chunk.state.IsChunk) : Begun changed renewed stop := by
  rcases tagged.begun stop chunk atStop isChunk with untagged | ⟨prevp, previous, atPrev, isFree,
    meets⟩
  · exact Or.inl (kept.trans untagged)
  · have below : prevp < start := by
      by_contra above
      exact notFree prevp previous atPrev (not_lt.mp above) meets isFree
    exact Or.inr ⟨prevp, previous, (outside prevp (Or.inl below)).trans atPrev, isFree, meets⟩

/-- No free chunk ends where the wilderness ends. -/
theorem wild_end_not_free {wilderness other : Int} {chunk block : Block Status}
    (atWild : layout.block wilderness = some chunk) (isWild : chunk.state = .wild)
    (atOther : layout.block other = some block)
    (meets : other + block.size = wilderness + chunk.size) : block.state ≠ .free := by
  have size := layout.nonempty other block atOther
  have wildSize := layout.nonempty wilderness chunk atWild
  by_cases same : other = wilderness
  · subst same
    rw [atWild] at atOther
    cases atOther
    rw [isWild]
    exact nofun
  · rcases layout.apart_or atOther atWild same with before | after
    · omega
    · omega

/-- The blocks outside keep their header words if nothing is written below
`start` or above `stop`, since a header takes three units. -/
theorem rewrite_region {changed : Heap} {renewed : Layout Status} {start stop : Int}
    {chunk : Block Status} (atStart : layout.block start = some chunk)
    (isChunk : chunk.state.IsChunk) (rising : start + chunk.size ≤ stop)
    (within : ∀ other block, layout.block other = some block → start ≤ other → other < stop →
      other + block.size ≤ stop ∧ block.state.IsChunk)
    (outside : ∀ other, other < start ∨ stop ≤ other →
      renewed.block other = layout.block other)
    (size : ∀ other, other + 3 ≤ start ∨ stop ≤ other →
      changed.largechunkSize other = heap.largechunkSize other)
    (owner : ∀ other, other + 3 ≤ start ∨ stop ≤ other →
      changed.largechunkArena other = heap.largechunkArena other)
    (prevsize : ∀ other, other ≤ start ∨ stop < other →
      changed.largechunkPrevsize other = heap.largechunkPrevsize other)
    (follower : ∀ block, layout.block stop = some block → block.state = .dummy →
      changed.largechunkPrevsize stop = heap.largechunkPrevsize stop) :
    Rewrite heap changed layout renewed start stop := by
  have wide := layout.nonempty start chunk atStart
  have clear : ∀ other block, layout.block other = some block → 3 ≤ block.size →
      other < start ∨ stop ≤ other → other + 3 ≤ start ∨ stop ≤ other := by
    intro other block atOther wide out
    rcases out with below | above
    · have apart := layout.apart other start block chunk atOther atStart below
      exact Or.inl (by omega)
    · exact Or.inr above
  refine ⟨⟨chunk, atStart, isChunk⟩, by omega, within, outside, ?_, ?_, ?_⟩
  · intro other block atOther wide out
    exact size other (clear other block atOther wide out)
  · intro other block atOther wide out
    exact owner other (clear other block atOther wide out)
  · intro other block atOther out
    by_cases isStop : other = stop
    · subst isStop
      rcases out with below | above | isDummy
      · omega
      · omega
      · exact follower block atOther isDummy
    · by_cases inside : start < other ∧ other < stop
      · rcases out with below | above | isDummy
        · omega
        · omega
        · exact absurd isDummy (chunk_not_dummy
            (within other block atOther (le_of_lt inside.1) inside.2).2)
      · exact prevsize other (by omega)

theorem within_one {start : Int} {chunk : Block Status}
    (atStart : layout.block start = some chunk) (isChunk : chunk.state.IsChunk)
    (other : Int) (block : Block Status) (atOther : layout.block other = some block)
    (above : start ≤ other) (below : other < start + chunk.size) :
    other + block.size ≤ start + chunk.size ∧ block.state.IsChunk := by
  by_cases same : other = start
  · subst same
    rw [atStart] at atOther
    cases atOther
    exact ⟨le_refl _, isChunk⟩
  · rw [layout.block_inside atStart (by omega) below] at atOther
    exact nomatch atOther

theorem within_two {low high : Int} {first second : Block Status}
    (atLow : layout.block low = some first) (lowChunk : first.state.IsChunk)
    (atHigh : layout.block high = some second) (highChunk : second.state.IsChunk)
    (adjacent : low + first.size = high)
    (other : Int) (block : Block Status) (atOther : layout.block other = some block)
    (above : low ≤ other) (below : other < high + second.size) :
    other + block.size ≤ high + second.size ∧ block.state.IsChunk := by
  have size := layout.nonempty high second atHigh
  by_cases lower : other < high
  · have fits := within_one atLow lowChunk other block atOther above (by omega)
    exact ⟨by omega, fits.2⟩
  · exact within_one atHigh highChunk other block atOther (by omega) below

/-- A chunk changes between live and free; its tag follows. -/
theorem tagged_retag (tagged : Tagged arena heap layout) {header : Int} {chunk : Block Status}
    (atHeader : layout.block header = some chunk) (isClosed : chunk.state.IsClosed)
    {status : Status} (newClosed : status.IsClosed) :
    Tagged arena
      (heap.setLargechunkPrevsize (header + chunk.size) (tag status chunk.size))
      (layout.retag header chunk atHeader status) := by
  have isChunk : chunk.state.IsChunk := Or.inl isClosed
  obtain ⟨wide, sized⟩ := tagged.sized header chunk atHeader isChunk
  obtain ⟨_, follower, atEnd, notDummy⟩ := tagged.ended header chunk atHeader isClosed
  have atNew := layout.retag_self atHeader status
  refine tagged_rewrite tagged (rewrite_region atHeader isChunk (le_refl _)
    (within_one atHeader isChunk) ?_ ?_ ?_ ?_ ?_) ⟨_, atNew, Or.inl newClosed⟩ ?_ ?_ ?_ ?_
  · intro other out
    rw [Layout.retag_block, if_neg (by omega)]
  · intro other out
    rw [Heap.size_set_prevsize, if_neg (by omega)]
  · exact fun other _ => rfl
  · intro other out
    rw [Heap.prevsize_set_prevsize, if_neg (by omega)]
  · intro block atBlock isDummy
    rw [atEnd] at atBlock
    cases atBlock
    exact absurd isDummy notDummy
  · intro other block above below atOther
    obtain ⟨rfl, rfl⟩ := layout.retag_inside atHeader status above below atOther
    refine ⟨Or.inl newClosed, wide, ?_⟩
    rw [Heap.size_set_prevsize, if_neg (by omega)]
    exact sized
  · intro other block above below atOther _
    obtain ⟨rfl, rfl⟩ := layout.retag_inside atHeader status above below atOther
    refine ⟨tagged.owned other chunk atHeader isClosed, ?_, follower, ?_, notDummy⟩
    · rw [Heap.prevsize_set_prevsize, if_pos rfl]
    · rw [Layout.retag_block, if_neg (by simp only; omega)]
      exact atEnd
  · intro other block above below atOther
    obtain ⟨same, _⟩ := layout.retag_inside atHeader status (le_of_lt above) below atOther
    omega
  · intro block _ _
    rcases newClosed with rfl | rfl
    · exact Or.inl (by rw [Heap.prevsize_set_prevsize, if_pos rfl]; rfl)
    · exact Or.inr ⟨header, _, atNew, rfl, rfl⟩

/-- What `split` writes, once the size of the chunk is known. -/
theorem split_writes {bestp size units : Int} (sized : heap.largechunkSize bestp = size)
    (rest : 3 ≤ size - units) :
    split arena units heap bestp =
      (bestp + (size - units) + 2,
        ((((heap.setLargechunkSize bestp (size - units)).setLargechunkSize
          (bestp + (size - units)) units).setLargechunkArena
          (bestp + (size - units)) arena.self).setLargechunkPrevsize
          (bestp + (size - units)) (size - units)).setLargechunkPrevsize
          (bestp + size) (-1)) := by
  have apart : bestp ≠ bestp + (size - units) := by omega
  have ends : bestp + (size - units) + units = bestp + size := by omega
  simp only [split, Heap.size_set_size, Heap.size_set_arena, sized, if_true, if_neg apart, ends]

/-- The upper part of a free chunk is cut off and becomes live. -/
theorem tagged_split (tagged : Tagged arena heap layout) {bestp units : Int}
    {chunk follower : Block Status} (atBest : layout.block bestp = some chunk)
    (isChunk : chunk.state.IsChunk) (owned : heap.largechunkArena bestp = arena.self)
    (wide : 3 ≤ units) (rest : 3 ≤ chunk.size - units)
    (atEnd : layout.block (bestp + chunk.size) = some follower) (notDummy : follower.state ≠ .dummy)
    (lowSize : 0 < chunk.size - units) (highSize : 0 < units)
    (sum : chunk.size - units + units = chunk.size) :
    Tagged arena (split arena units heap bestp).2
      (layout.split bestp chunk atBest ⟨chunk.size - units, .free⟩ ⟨units, .live⟩
        lowSize highSize sum) := by
  obtain ⟨_, sized⟩ := tagged.sized bestp chunk atBest isChunk
  have atLow := layout.split_low ⟨chunk.size - units, .free⟩ ⟨units, .live⟩ atBest lowSize
    highSize sum
  have atHigh := layout.split_high ⟨chunk.size - units, .free⟩ ⟨units, .live⟩ atBest lowSize
    highSize sum
  have outside : ∀ other, other < bestp ∨ bestp + chunk.size ≤ other → _ = layout.block other :=
    fun other out => layout.split_outside ⟨chunk.size - units, .free⟩ ⟨units, .live⟩ atBest
      lowSize highSize sum out
  rw [split_writes sized rest]
  refine tagged_rewrite tagged (rewrite_region atBest isChunk (le_refl _)
    (within_one atBest isChunk) outside ?_ ?_ ?_ ?_)
    ⟨_, atLow, Or.inl status_free_closed⟩ ?_ ?_ ?_ ?_
  · intro other out
    simp only [Heap.size_set_prevsize, Heap.size_set_arena, Heap.size_set_size]
    rw [if_neg (by omega), if_neg (by omega), if_neg (by omega), if_neg (by omega)]
  · intro other out
    simp only [Heap.arena_set_prevsize, Heap.arena_set_arena, Heap.arena_set_size]
    rw [if_neg (by omega)]
  · intro other out
    simp only [Heap.prevsize_set_prevsize, Heap.prevsize_set_arena, Heap.prevsize_set_size]
    rw [if_neg (by omega), if_neg (by omega), if_neg (by omega), if_neg (by omega)]
  · intro block atBlock isDummy
    rw [atEnd] at atBlock
    cases atBlock
    exact absurd isDummy notDummy
  · intro other block above below atOther
    simp only [Heap.size_set_prevsize, Heap.size_set_arena, Heap.size_set_size]
    rcases layout.split_inside _ _ atBest lowSize highSize sum above below atOther with
      ⟨rfl, rfl⟩ | ⟨rfl, rfl⟩
    · refine ⟨Or.inl status_free_closed, rest, ?_⟩
      rw [if_neg (by omega), if_neg (by omega), if_neg (by omega), if_pos rfl]
    · refine ⟨Or.inl status_live_closed, wide, ?_⟩
      dsimp only
      rw [if_neg (by omega), if_neg (by omega), if_pos rfl]
  · -- each part has its arena, its tag behind it and a block after it
    intro other block above below atOther _
    simp only [Heap.arena_set_prevsize, Heap.arena_set_arena, Heap.arena_set_size,
      Heap.prevsize_set_prevsize, Heap.prevsize_set_arena, Heap.prevsize_set_size]
    rcases layout.split_inside _ _ atBest lowSize highSize sum above below atOther with
      ⟨rfl, rfl⟩ | ⟨rfl, rfl⟩
    · refine ⟨by rw [if_neg (by omega)]; exact owned, ?_, _, atHigh, nofun⟩
      dsimp only
      rw [if_neg (by omega), if_pos rfl]
      rfl
    · have ends : bestp + (chunk.size - units) + units = bestp + chunk.size := by omega
      refine ⟨by rw [if_pos rfl], ?_, follower, ?_, notDummy⟩
      · rw [if_pos ends]
        rfl
      · simp only
        rw [outside _ (by omega), ends]
        exact atEnd
  · intro other block above below atOther
    rcases layout.split_inside _ _ atBest lowSize highSize sum (le_of_lt above) below atOther with
      ⟨rfl, _⟩ | ⟨rfl, _⟩
    · omega
    · exact Or.inr ⟨bestp, _, atLow, rfl, rfl⟩
  · -- the tag behind the chunk is now that of a live one
    intro block _ _
    refine Or.inl ?_
    rw [Heap.prevsize_set_prevsize, if_pos rfl]

/-- What `splitWilderness` writes. -/
theorem split_wilderness_writes {wilderness size units : Int}
    (sized : heap.largechunkSize wilderness = size) :
    splitWilderness arena units heap wilderness =
      (wilderness + 2,
        ((((heap.setLargechunkSize (wilderness + units) (size - units)).setLargechunkPrevsize
          (wilderness + units) (-1)).setWilderness arena.num
          (wilderness + units)).setLargechunkSize wilderness units).setLargechunkArena
          wilderness arena.self) := by
  rw [← sized]
  rfl

/-- The lower part of a wilderness is cut off and becomes live. -/
theorem tagged_split_wilderness (tagged : Tagged arena heap layout) {wilderness units : Int}
    {chunk : Block Status} (atWild : layout.block wilderness = some chunk)
    (isWild : chunk.state = .wild) (wide : 3 ≤ units) (rest : 3 ≤ chunk.size - units)
    (lowSize : 0 < units) (highSize : 0 < chunk.size - units)
    (sum : units + (chunk.size - units) = chunk.size) :
    Tagged arena (splitWilderness arena units heap wilderness).2
      (layout.split wilderness chunk atWild ⟨units, .live⟩ ⟨chunk.size - units, .wild⟩
        lowSize highSize sum) := by
  have isChunk : chunk.state.IsChunk := Or.inr (Or.inr isWild)
  obtain ⟨_, sized⟩ := tagged.sized wilderness chunk atWild isChunk
  have atLow := layout.split_low ⟨units, .live⟩ ⟨chunk.size - units, .wild⟩ atWild lowSize
    highSize sum
  have atHigh := layout.split_high ⟨units, .live⟩ ⟨chunk.size - units, .wild⟩ atWild lowSize
    highSize sum
  have outside : ∀ other, other < wilderness ∨ wilderness + chunk.size ≤ other →
      _ = layout.block other :=
    fun other out => layout.split_outside ⟨units, .live⟩ ⟨chunk.size - units, .wild⟩ atWild
      lowSize highSize sum out
  rw [split_wilderness_writes sized]
  refine tagged_rewrite tagged (rewrite_region atWild isChunk (le_refl _)
    (within_one atWild isChunk) outside ?_ ?_ ?_ ?_)
    ⟨_, atLow, Or.inl status_live_closed⟩ ?_ ?_ ?_ ?_
  · intro other out
    simp only [Heap.size_set_arena, Heap.size_set_size, Heap.size_set_wilderness,
      Heap.size_set_prevsize]
    rw [if_neg (by omega), if_neg (by omega), if_neg (by omega)]
  · intro other out
    simp only [Heap.arena_set_arena, Heap.arena_set_size, Heap.arena_set_wilderness,
      Heap.arena_set_prevsize]
    rw [if_neg (by omega)]
  · intro other out
    simp only [Heap.prevsize_set_arena, Heap.prevsize_set_size, Heap.prevsize_set_wilderness,
      Heap.prevsize_set_prevsize]
    rw [if_neg (by omega), if_neg (by omega), if_neg (by omega)]
  · intro block _ _
    simp only [Heap.prevsize_set_arena, Heap.prevsize_set_size, Heap.prevsize_set_wilderness,
      Heap.prevsize_set_prevsize]
    rw [if_neg (by omega), if_neg (by omega), if_neg (by omega)]
  · intro other block above below atOther
    simp only [Heap.size_set_arena, Heap.size_set_size, Heap.size_set_wilderness,
      Heap.size_set_prevsize]
    rcases layout.split_inside _ _ atWild lowSize highSize sum above below atOther with
      ⟨rfl, rfl⟩ | ⟨rfl, rfl⟩
    · exact ⟨Or.inl status_live_closed, wide, by rw [if_pos rfl]⟩
    · refine ⟨Or.inr (Or.inr rfl), rest, ?_⟩
      dsimp only
      rw [if_neg (by omega), if_neg (by omega), if_pos rfl]
  · -- only the lower part is closed: a wilderness needs no tag behind it
    intro other block above below atOther isClosed
    simp only [Heap.arena_set_arena, Heap.prevsize_set_arena, Heap.prevsize_set_size,
      Heap.prevsize_set_wilderness, Heap.prevsize_set_prevsize]
    rcases layout.split_inside _ _ atWild lowSize highSize sum above below atOther with
      ⟨rfl, rfl⟩ | ⟨rfl, rfl⟩
    · refine ⟨by rw [if_pos rfl], ?_, _, atHigh, nofun⟩
      dsimp only
      rw [if_neg (by omega), if_pos rfl]
      rfl
    · exact absurd isClosed wild_not_closed
  · intro other block above below atOther
    rcases layout.split_inside _ _ atWild lowSize highSize sum (le_of_lt above) below atOther with
      ⟨rfl, _⟩ | ⟨rfl, _⟩
    · omega
    · refine Or.inl ?_
      simp only [Heap.prevsize_set_arena, Heap.prevsize_set_size, Heap.prevsize_set_wilderness,
        Heap.prevsize_set_prevsize, if_true]
      rw [if_neg (by omega)]
  · intro block atStop stopChunk
    refine begun_behind tagged outside ?_ ?_ atStop stopChunk
    · simp only [Heap.prevsize_set_arena, Heap.prevsize_set_size, Heap.prevsize_set_wilderness,
        Heap.prevsize_set_prevsize]
      rw [if_neg (by omega), if_neg (by omega), if_neg (by omega)]
    · exact fun other previous atOther _ => wild_end_not_free atWild isWild atOther

/-- Two free neighbours become one free chunk, whose tag stands behind both. -/
theorem tagged_merge (tagged : Tagged arena heap layout) {prevp freep : Int}
    {previous chunk : Block Status} (atPrev : layout.block prevp = some previous)
    (prevFree : previous.state = .free) (atFree : layout.block freep = some chunk)
    (isFree : chunk.state = .free) (adjacent : prevp + previous.size = freep) :
    Tagged arena
      ((heap.setLargechunkSize prevp (previous.size + chunk.size)).setLargechunkPrevsize
        (freep + chunk.size) (previous.size + chunk.size))
      (layout.merge prevp freep previous chunk atPrev atFree adjacent .free) := by
  have prevClosed : previous.state.IsClosed := Or.inr prevFree
  have isClosed : chunk.state.IsClosed := Or.inr isFree
  have prevWide := tagged.wide atPrev (Or.inl prevClosed)
  have wide := tagged.wide atFree (Or.inl isClosed)
  obtain ⟨_, follower, atEnd, notDummy⟩ := tagged.ended freep chunk atFree isClosed
  have atNew := layout.merge_low atPrev atFree adjacent Status.free
  have outside : ∀ other, other < prevp ∨ freep + chunk.size ≤ other →
      (layout.merge prevp freep previous chunk atPrev atFree adjacent .free).block other =
        layout.block other :=
    fun other out => layout.merge_other atPrev atFree adjacent .free (by omega) (by omega)
  refine tagged_rewrite tagged (rewrite_region atPrev (Or.inl prevClosed) (by omega)
    (within_two atPrev (Or.inl prevClosed) atFree (Or.inl isClosed) adjacent) outside
    ?_ ?_ ?_ ?_) ⟨_, atNew, Or.inl status_free_closed⟩ ?_ ?_ ?_ ?_
  · intro other out
    rw [Heap.size_set_prevsize, Heap.size_set_size, if_neg (by omega), if_neg (by omega)]
  · exact fun other _ => rfl
  · intro other out
    rw [Heap.prevsize_set_prevsize, Heap.prevsize_set_size, if_neg (by omega), if_neg (by omega)]
  · intro block atBlock isDummy
    rw [atEnd] at atBlock
    cases atBlock
    exact absurd isDummy notDummy
  · intro other block above below atOther
    obtain ⟨rfl, rfl⟩ := layout.merge_inside atPrev atFree adjacent .free above below atOther
    refine ⟨Or.inl status_free_closed, by dsimp only; omega, ?_⟩
    rw [Heap.size_set_prevsize, Heap.size_set_size, if_neg (by omega), if_pos rfl]
  · intro other block above below atOther _
    obtain ⟨rfl, rfl⟩ := layout.merge_inside atPrev atFree adjacent .free above below atOther
    have ends : other + (previous.size + chunk.size) = freep + chunk.size := by omega
    refine ⟨tagged.owned other previous atPrev prevClosed, ?_, follower, ?_, notDummy⟩
    · rw [ends, Heap.prevsize_set_prevsize, if_pos rfl]
      rfl
    · rw [ends, outside _ (Or.inr (le_refl _))]
      exact atEnd
  · intro other block above below atOther
    obtain ⟨same, _⟩ :=
      layout.merge_inside atPrev atFree adjacent .free (le_of_lt above) below atOther
    omega
  · intro block _ _
    refine Or.inr ⟨prevp, _, atNew, rfl, ?_⟩
    dsimp only
    omega

/-- A free chunk becomes part of the wilderness behind it. -/
theorem tagged_merge_wilderness (tagged : Tagged arena heap layout) {prevp wilderness : Int}
    {previous chunk : Block Status} (atPrev : layout.block prevp = some previous)
    (prevFree : previous.state = .free) (atWild : layout.block wilderness = some chunk)
    (isWild : chunk.state = .wild) (adjacent : prevp + previous.size = wilderness) :
    Tagged arena (heap.setLargechunkSize prevp (previous.size + chunk.size))
      (layout.merge prevp wilderness previous chunk atPrev atWild adjacent .wild) := by
  have prevChunk : previous.state.IsChunk := Or.inl (Or.inr prevFree)
  have isChunk : chunk.state.IsChunk := Or.inr (Or.inr isWild)
  have prevWide := tagged.wide atPrev prevChunk
  have wide := tagged.wide atWild isChunk
  have atNew := layout.merge_low atPrev atWild adjacent Status.wild
  have outside : ∀ other, other < prevp ∨ wilderness + chunk.size ≤ other →
      (layout.merge prevp wilderness previous chunk atPrev atWild adjacent .wild).block other =
        layout.block other :=
    fun other out => layout.merge_other atPrev atWild adjacent .wild (by omega) (by omega)
  refine tagged_rewrite tagged (rewrite_region atPrev prevChunk (by omega)
    (within_two atPrev prevChunk atWild isChunk adjacent) outside
    ?_ ?_ ?_ ?_) ⟨_, atNew, Or.inr (Or.inr rfl)⟩ ?_ ?_ ?_ ?_
  · intro other out
    rw [Heap.size_set_size, if_neg (by omega)]
  · exact fun other _ => rfl
  · intro other out
    rw [Heap.prevsize_set_size, if_neg (by omega)]
  · intro block _ _
    rw [Heap.prevsize_set_size, if_neg (by omega)]
  · intro other block above below atOther
    obtain ⟨rfl, rfl⟩ := layout.merge_inside atPrev atWild adjacent .wild above below atOther
    refine ⟨Or.inr (Or.inr rfl), by dsimp only; omega, ?_⟩
    rw [Heap.size_set_size, if_pos rfl]
  · intro other block above below atOther isClosed
    obtain ⟨rfl, rfl⟩ := layout.merge_inside atPrev atWild adjacent .wild above below atOther
    exact absurd isClosed wild_not_closed
  · intro other block above below atOther
    obtain ⟨same, _⟩ :=
      layout.merge_inside atPrev atWild adjacent .wild (le_of_lt above) below atOther
    omega
  · intro block atStop stopChunk
    refine begun_behind tagged outside ?_ ?_ atStop stopChunk
    · rw [Heap.prevsize_set_size, if_neg (by omega)]
    · exact fun other before atOther _ => wild_end_not_free atWild isWild atOther

/-- New memory is laid out as one block without a tag behind it. -/
theorem tagged_insert (tagged : Tagged arena heap layout) {changed : Heap} {start : Int}
    {added : Block Status} (size : 0 < added.size)
    (unused : ∀ unit, start ≤ unit → unit < start + added.size → ¬ layout.Covers unit)
    (positive : 0 < start) (isOpen : ¬ added.state.IsClosed) (notDummy : added.state ≠ .dummy)
    (firstKept : ∀ unit, layout.Covers unit → changed.first unit = heap.first unit)
    (secondKept : ∀ unit, layout.Covers unit → changed.second unit = heap.second unit)
    (header : added.state.IsChunk → 3 ≤ added.size ∧
      changed.largechunkSize start = added.size ∧ changed.largechunkPrevsize start = -1) :
    Tagged arena changed (layout.insert start added size unused) := by
  -- a block that was there still is, and does not start where the new one does
  have kept : ∀ other block, layout.block other = some block →
      (layout.insert start added size unused).block other = some block := by
    intro other block atOther
    rw [layout.insert_block, if_neg, atOther]
    rintro rfl
    exact unused other (le_refl other) (by omega) (layout.covers_start atOther)
  have old : ∀ other block, (layout.insert start added size unused).block other = some block →
      (other = start ∧ block = added) ∨ layout.block other = some block := by
    intro other block atOther
    rw [layout.insert_block] at atOther
    split_ifs at atOther with same
    · exact Or.inl ⟨same, (Option.some.inj atOther).symm⟩
    · exact Or.inr atOther
  constructor
  case sized =>
    intro other block atOther isChunk
    rcases old other block atOther with ⟨rfl, rfl⟩ | before
    · exact ⟨(header isChunk).1, (header isChunk).2.1⟩
    · obtain ⟨wide, sized⟩ := tagged.sized other block before isChunk
      exact ⟨wide, (firstKept _ (header_covered before wide (by omega) (by omega))).trans sized⟩
  case owned =>
    intro other block atOther isClosed
    rcases old other block atOther with ⟨rfl, rfl⟩ | before
    · exact absurd isClosed isOpen
    · have wide := tagged.wide before (Or.inl isClosed)
      exact (secondKept _ (header_covered before wide (by omega) (by omega))).trans
        (tagged.owned other block before isClosed)
  case ended =>
    intro other block atOther isClosed
    rcases old other block atOther with ⟨rfl, rfl⟩ | before
    · exact absurd isClosed isOpen
    · obtain ⟨tagOk, follower, atEnd, followerNotDummy⟩ := tagged.ended other block before isClosed
      exact ⟨(firstKept _ (layout.covers_start atEnd)).trans tagOk, follower, kept _ _ atEnd,
        followerNotDummy⟩
  case begun =>
    intro other block atOther isChunk
    rcases old other block atOther with ⟨rfl, rfl⟩ | before
    · exact Or.inl (header isChunk).2.2
    · rcases tagged.begun other block before isChunk with untagged | ⟨prevp, previous, atPrev,
        isFree, meets⟩
      · exact Or.inl ((firstKept _ (layout.covers_start before)).trans untagged)
      · exact Or.inr ⟨prevp, previous, kept _ _ atPrev, isFree, meets⟩
  case dummy => exact kept _ _ tagged.dummy
  case idle =>
    have covered : ∀ unit, arena.freelist ≤ unit → unit < arena.freelist + 3 →
        layout.Covers unit :=
      fun unit above below => header_covered tagged.dummy (le_refl 3) above below
    exact ⟨(firstKept _ (covered _ (by omega) (by omega))).trans tagged.idle.1,
      (firstKept _ (covered _ (by omega) (by omega))).trans tagged.idle.2⟩
  case placed =>
    intro other block atOther
    rcases old other block atOther with ⟨rfl, rfl⟩ | before
    · exact positive
    · exact tagged.placed other block before

end Tags

end Sac2c.BoundaryTags
