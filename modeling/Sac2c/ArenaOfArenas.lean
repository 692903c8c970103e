import Sac2c.Arenas
import Sac2c.Blocks
import Sac2c.Links
import Sac2c.SmallChunks
import Sac2c.Trace

/-!
The arena of arenas hands out bins from the top of its free chunks and never
takes one back. All bin sizes are multiples of 4 units, so what remains of a
chunk is empty or large enough for its SIZE and its link.
-/

namespace Sac2c.ArenaOfArenas

open Headers SmallChunks Blocks Links Trace

/-- The memory of a thread's arenas: free chunks of the arena of arenas, the
bins of each arena, and the dummy entries of the free lists. -/
inductive Share where
  | free
  | bin (num : Nat)
  | dummy

def IsSmall (num : Nat) : Prop := 1 ≤ num ∧ num ≤ 4

/-- The units of every chunk of a small arena. -/
def chunkUnits (num : Nat) : Int := Arenas.arenaMincs (num + 1) - 1

/-- The arenas of one thread. `minChunkSize` of a small arena is `chunkUnits` for
the master (SAC_HM_SETUP_ARENAS) and the least size class for a worker
(SAC_HM_SetupWorkers). -/
structure IsThread (arenas : Nat → Arena) : Prop where
  num : ∀ num, IsSmall num → (arenas num).num = num
  binsize : ∀ num, num ≤ 7 → (arenas num).binsize = Arenas.arenaBinsize num
  least : (arenas 0).minChunkSize = Arenas.arenaMincs 0
  units : ∀ num, IsSmall num → (arenas num).minChunkSize ≤ chunkUnits num
  placed : ∀ num, num ≤ 4 → 0 < (arenas num).freelist
  apart : ∀ low high, low ≤ 4 → high ≤ 4 → low ≠ high →
    (arenas low).freelist + 3 ≤ (arenas high).freelist ∨
      (arenas high).freelist + 3 ≤ (arenas low).freelist

/-- The memory from the top arena, and the dummy entries of arenas 0 to 4. -/
def InMemory (arenas : Nat → Arena) (obtained : List (Int × Int)) (unit : Int) : Prop :=
  (∃ segment, segment ∈ obtained ∧ segment.1 ≤ unit ∧ unit < segment.1 + segment.2) ∨
    ∃ num, num ≤ 4 ∧ (arenas num).freelist ≤ unit ∧ unit < (arenas num).freelist + 3

def Spans (arenas : Nat → Arena) (obtained : List (Int × Int)) (layout : Layout Share) : Prop :=
  ∀ unit, layout.Covers unit ↔ InMemory arenas obtained unit

/-- The top arena answers with memory no arena of the thread has. -/
def FreshBlock (arenas : Nat → Arena) (heap : Heap) (block : Int) : Prop :=
  0 < block ∧ ∀ unit, block ≤ unit → unit < block + (arenas 0).binsize →
    ¬ InMemory arenas heap.obtained unit

/-- The free chunks, their SIZE words and the list that links them. -/
structure Carved (arena : Arena) (heap : Heap) (layout : Layout Share) (chain : List Int) :
    Prop where
  sized : ∀ freep chunk, layout.block freep = some chunk → chunk.state = .free →
    4 ∣ chunk.size ∧ heap.smallchunkSize freep = chunk.size
  dummy : layout.block arena.freelist = some ⟨3, .dummy⟩
  placed : ∀ start block, layout.block start = some block → 0 < start
  linked : Linked heap.smallchunkNextfree arena.freelist chain
  distinct : chain.Nodup
  listed : ∀ freep, freep ∈ chain ↔ ∃ chunk, layout.block freep = some chunk ∧ chunk.state = .free

/-- A bin of `units` units for arena `num` is cut out of free memory. -/
structure Carves (num : Nat) (units : Int) (before after : Layout Share) (bin : Int) : Prop where
  fresh : ∀ found, before.block bin = some found → found.state = .free
  handed : after.block bin = some ⟨units, .bin num⟩
  others : ∀ start found, start ≠ bin → found.state ≠ .free →
    (after.block start = some found ↔ before.block start = some found)

/-- The words of bins and of other arenas' dummy entries stay as they are. -/
structure Untouched (arena : Arena) (layout : Layout Share) (before after : Heap) : Prop where
  wilderness : after.wilderness = before.wilderness
  words : ∀ start block, layout.block start = some block → block.state ≠ .free →
    start ≠ arena.freelist → ∀ unit, start ≤ unit → unit < start + block.size →
    after.first unit = before.first unit ∧ after.second unit = before.second unit

theorem in_memory_cons (arenas : Nat → Arena) (segment : Int × Int)
    (obtained : List (Int × Int)) (unit : Int) : InMemory arenas (segment :: obtained) unit ↔
      InMemory arenas obtained unit ∨ (segment.1 ≤ unit ∧ unit < segment.1 + segment.2) := by
  constructor
  · rintro (⟨other, member, inside⟩ | dummy)
    · rcases List.mem_cons.mp member with rfl | old
      · exact Or.inr inside
      · exact Or.inl (Or.inl ⟨other, old, inside⟩)
    · exact Or.inl (Or.inr dummy)
  · rintro ((⟨other, member, inside⟩ | dummy) | inside)
    · exact Or.inl ⟨other, List.mem_cons_of_mem segment member, inside⟩
    · exact Or.inr dummy
    · exact Or.inl ⟨segment, List.mem_cons_self .., inside⟩

section Search

variable {arena : Arena} {heap : Heap} {units : Int}

/-- What the search found among `nodes`, the entries behind `dummy`. -/
def Found (arena : Arena) (units : Int) (heap : Heap) (dummy : Int) (nodes : List Int) :
    Search → Prop
  | .split freep => freep ∈ nodes ∧ units + arena.minChunkSize ≤ heap.smallchunkSize freep
  | .remove lastp freep => ∃ front back, nodes = front ++ freep :: back ∧
      lastp = lastEntry dummy front ∧ units ≤ heap.smallchunkSize freep ∧
      heap.smallchunkSize freep < units + arena.minChunkSize
  | .exhausted lastp => lastp = lastEntry dummy nodes

theorem found_step {dummy node : Int} {rest : List Int} {search : Search}
    (found : Found arena units heap node rest search) :
    Found arena units heap dummy (node :: rest) search := by
  cases search with
  | split freep => exact ⟨List.mem_cons_of_mem node found.1, found.2⟩
  | remove lastp freep =>
      obtain ⟨front, back, rfl, rfl, fits⟩ := found
      exact ⟨node :: front, back, rfl, rfl, fits⟩
  | exhausted lastp => exact found

theorem search_outcome (fuel : Nat) {dummy : Int} {nodes : List Int}
    (path : Linked heap.smallchunkNextfree dummy nodes) :
    Outcome (Found arena units heap dummy nodes) (nodes.length < fuel) False
      (searchFreeList arena units heap fuel dummy (heap.smallchunkNextfree dummy)) := by
  induction fuel generalizing dummy nodes with
  | zero => exact Nat.not_lt_zero _
  | succ fuel ih =>
      cases nodes with
      | nil =>
          have ended : heap.smallchunkNextfree dummy = 0 := path
          rw [searchFreeList, if_pos ended]
          rfl
      | cons node rest =>
          obtain ⟨isNode, nonnull, tail⟩ := path
          rw [searchFreeList, isNode, if_neg nonnull]
          split_ifs with large fits
          · exact ⟨List.mem_cons_self .., large⟩
          · exact ⟨[], rest, rfl, rfl, fits, not_le.mp large⟩
          · exact (ih tail).imp (fun _ => found_step) Nat.lt_of_succ_lt_succ id

end Search

section Words

variable {arena : Arena} {heap : Heap} {layout : Layout Share} {chain : List Int}

/-- A unit no bin and no other dummy entry has. -/
def Writable (arena : Arena) (layout : Layout Share) (unit : Int) : Prop :=
  ∀ start block, layout.block start = some block → block.state ≠ .free →
    start ≠ arena.freelist → unit < start ∨ start + block.size ≤ unit

theorem writable_in {start unit : Int} {block : Block Share}
    (atStart : layout.block start = some block)
    (own : block.state = .free ∨ start = arena.freelist) (above : start ≤ unit)
    (below : unit < start + block.size) : Writable arena layout unit := by
  intro other found atOther notFree notDummy
  have differ : start ≠ other := by
    rintro rfl
    rw [atStart] at atOther
    cases atOther
    rcases own with isFree | isDummy
    · exact notFree isFree
    · exact notDummy isDummy
  rcases layout.apart_or atStart atOther differ with before | after
  · exact Or.inl (by omega)
  · exact Or.inr (by omega)

theorem writable_unused {unit : Int} (unused : ¬ layout.Covers unit) :
    Writable arena layout unit := by
  intro start block atStart _ _
  by_contra inside
  exact unused ⟨start, block, atStart, by omega, by omega⟩

theorem Untouched.refl : Untouched arena layout heap heap :=
  ⟨rfl, fun _ _ _ _ _ _ _ _ => ⟨rfl, rfl⟩⟩

theorem Untouched.first {before : Heap} (untouched : Untouched arena layout before heap)
    {unit : Int} (writable : Writable arena layout unit) (value : Int) :
    Untouched arena layout before (heap.setFirst unit value) where
  wilderness := untouched.wilderness
  words := by
    intro start block atStart notFree notDummy other above below
    obtain ⟨first, second⟩ := untouched.words start block atStart notFree notDummy other above below
    have apart := writable start block atStart notFree notDummy
    exact ⟨(if_neg (by omega)).trans first, second⟩

theorem Untouched.second {before : Heap} (untouched : Untouched arena layout before heap)
    {unit : Int} (writable : Writable arena layout unit) (value : Int) :
    Untouched arena layout before (heap.setSecond unit value) where
  wilderness := untouched.wilderness
  words := by
    intro start block atStart notFree notDummy other above below
    obtain ⟨first, second⟩ := untouched.words start block atStart notFree notDummy other above below
    have apart := writable start block atStart notFree notDummy
    exact ⟨first, (if_neg (by omega)).trans second⟩

/-- A free chunk has at least 4 units. -/
theorem Carved.wide (carved : Carved arena heap layout chain) {freep : Int}
    {chunk : Block Share} (atFree : layout.block freep = some chunk)
    (isFree : chunk.state = .free) : 4 ≤ chunk.size := by
  have size := layout.nonempty freep chunk atFree
  have whole := (carved.sized freep chunk atFree isFree).1
  omega

/-- The entries of the list are blocks of at least 3 units that may be written to. -/
theorem Carved.entry (carved : Carved arena heap layout chain) {entry : Int}
    (isEntry : entry = arena.freelist ∨ entry ∈ chain) :
    ∃ block, layout.block entry = some block ∧ 3 ≤ block.size ∧
      (block.state = .free ∨ entry = arena.freelist) := by
  rcases isEntry with rfl | member
  · exact ⟨_, carved.dummy, le_refl 3, Or.inr rfl⟩
  · obtain ⟨chunk, atEntry, isFree⟩ := (carved.listed entry).mp member
    have wide := carved.wide atEntry isFree
    exact ⟨chunk, atEntry, by omega, Or.inl isFree⟩

theorem Carved.writable_link (carved : Carved arena heap layout chain) {entry : Int}
    (isEntry : entry = arena.freelist ∨ entry ∈ chain) : Writable arena layout (entry + 1) := by
  obtain ⟨block, atEntry, wide, own⟩ := carved.entry isEntry
  exact writable_in atEntry own (by omega) (by omega)

theorem Carved.dummy_unlisted (carved : Carved arena heap layout chain) :
    arena.freelist ∉ chain := by
  intro member
  obtain ⟨chunk, atDummy, isFree⟩ := (carved.listed arena.freelist).mp member
  rw [carved.dummy] at atDummy
  cases atDummy
  exact nomatch isFree

theorem Carved.entries_distinct (carved : Carved arena heap layout chain) :
    (arena.freelist :: chain).Nodup := List.nodup_cons.mpr ⟨carved.dummy_unlisted, carved.distinct⟩

/-- Only the first two units of the list's entries count. -/
theorem Carved.congr (carved : Carved arena heap layout chain) {changed : Heap}
    (same : ∀ entry, entry = arena.freelist ∨ entry ∈ chain →
      changed.first entry = heap.first entry ∧
        changed.second (entry + 1) = heap.second (entry + 1)) :
    Carved arena changed layout chain where
  sized := by
    intro freep chunk atFree isFree
    obtain ⟨whole, sized⟩ := carved.sized freep chunk atFree isFree
    have member := (carved.listed freep).mpr ⟨chunk, atFree, isFree⟩
    exact ⟨whole, (same freep (Or.inr member)).1.trans sized⟩
  dummy := carved.dummy
  placed := carved.placed
  linked := reaches_congr carved.linked (fun entry isEntry => (same entry isEntry).2)
  distinct := carved.distinct
  listed := carved.listed

end Words

section Carving

variable {arena : Arena} {heap : Heap} {layout : Layout Share} {chain : List Int}
  {units : Int}

/-- A chunk with more than enough units shrinks, and stays large enough. -/
theorem carved_split (num : Nat) (carved : Carved arena heap layout chain) {freep : Int}
    {chunk : Block Share}
    (atFree : layout.block freep = some chunk) (isFree : chunk.state = .free) (whole : 4 ∣ units)
    (lowSize : 0 < chunk.size - units) (highSize : 0 < units)
    (sum : chunk.size - units + units = chunk.size) :
    Carved arena (heap.setSmallchunkSize freep (chunk.size - units))
      (layout.split freep chunk atFree ⟨chunk.size - units, .free⟩ ⟨units, .bin num⟩ lowSize
        highSize sum) chain ∧
    Carves num units layout (layout.split freep chunk atFree ⟨chunk.size - units, .free⟩
      ⟨units, .bin num⟩ lowSize highSize sum) (freep + (chunk.size - units)) := by
  have low := layout.split_low ⟨chunk.size - units, .free⟩ ⟨units, .bin num⟩ atFree lowSize
    highSize sum
  have high := layout.split_high ⟨chunk.size - units, .free⟩ ⟨units, .bin num⟩ atFree lowSize
    highSize sum
  have chunkOf : ∀ start block, (layout.split freep chunk atFree ⟨chunk.size - units, .free⟩
      ⟨units, .bin num⟩ lowSize highSize sum).block start = some block →
      (start = freep ∧ block = ⟨chunk.size - units, .free⟩) ∨
      (start = freep + (chunk.size - units) ∧ block = ⟨units, .bin num⟩) ∨
      ((start < freep ∨ freep + chunk.size ≤ start) ∧ layout.block start = some block) :=
    fun start block => layout.split_cases _ _ atFree lowSize highSize sum
  have old : ∀ start block, layout.block start = some block → start ≠ freep →
      (layout.split freep chunk atFree ⟨chunk.size - units, .free⟩ ⟨units, .bin num⟩ lowSize
        highSize sum).block start = some block :=
    fun start block => layout.split_old _ _ atFree lowSize highSize sum
  have chunkWhole := (carved.sized freep chunk atFree isFree).1
  refine ⟨⟨?_, ?_, ?_, carved.linked, carved.distinct, ?_⟩, ⟨?_, high, ?_⟩⟩
  · intro start block atStart blockFree
    rw [Heap.small_size_set_size]
    rcases chunkOf start block atStart with ⟨rfl, rfl⟩ | ⟨_, rfl⟩ | ⟨out, before⟩
    · exact ⟨by dsimp only; omega, if_pos rfl⟩
    · exact nomatch blockFree
    · rw [if_neg (by omega)]
      exact carved.sized start block before blockFree
  · refine old _ _ carved.dummy ?_
    rintro rfl
    rw [carved.dummy] at atFree
    cases atFree
    exact nomatch isFree
  · intro start block atStart
    have positive := carved.placed freep chunk atFree
    rcases chunkOf start block atStart with ⟨rfl, _⟩ | ⟨rfl, _⟩ | ⟨_, before⟩
    · exact positive
    · omega
    · exact carved.placed start block before
  · intro start
    rw [carved.listed]
    constructor
    · rintro ⟨block, atStart, blockFree⟩
      by_cases same : start = freep
      · rw [same]
        exact ⟨_, low, rfl⟩
      · exact ⟨block, old start block atStart same, blockFree⟩
    · rintro ⟨block, atStart, blockFree⟩
      rcases chunkOf start block atStart with ⟨rfl, _⟩ | ⟨_, rfl⟩ | ⟨_, before⟩
      · exact ⟨chunk, atFree, isFree⟩
      · exact nomatch blockFree
      · exact ⟨block, before, blockFree⟩
  · intro found atBin
    rw [layout.block_inside atFree (by omega) (by omega)] at atBin
    exact nomatch atBin
  · intro start found differ notFree
    exact layout.split_iff _ _ atFree lowSize highSize sum (fun state => state ≠ .free)
      (fun notSo => notSo isFree) notFree (fun isLow => notFree (by rw [isLow.2]))
      (fun isHigh => differ isHigh.1)

/-- A chunk of exactly the units asked for leaves the list. -/
theorem carved_remove (num : Nat) {front back : List Int} {freep : Int} {chunk : Block Share}
    (carved : Carved arena heap layout (front ++ freep :: back))
    (atFree : layout.block freep = some chunk) (isFree : chunk.state = .free) :
    Carved arena (heap.setSmallchunkNextfree (lastEntry arena.freelist front)
        (heap.smallchunkNextfree freep)) (layout.retag freep chunk atFree (.bin num))
      (front ++ back) ∧
    Carves num chunk.size layout (layout.retag freep chunk atFree (.bin num)) freep := by
  have other : ∀ start, start ≠ freep →
      (layout.retag freep chunk atFree (.bin num)).block start = layout.block start :=
    fun start differ => layout.retag_other atFree (.bin num) differ
  have freeOther : ∀ start block, block.state = Share.free →
      ((layout.retag freep chunk atFree (.bin num)).block start = some block ↔
        layout.block start = some block ∧ start ≠ freep) := by
    intro start block blockFree
    by_cases same : start = freep
    · subst same
      rw [layout.retag_self]
      constructor
      · intro atStart
        cases atStart
        exact nomatch blockFree
      · exact fun both => absurd rfl both.2
    · rw [other start same]
      exact ⟨fun atStart => ⟨atStart, same⟩, And.left⟩
  refine ⟨⟨?_, ?_, ?_, ?_, nodup_without carved.distinct, ?_⟩, ⟨?_, layout.retag_self atFree _, ?_⟩⟩
  · intro start block atStart blockFree
    exact carved.sized start block ((freeOther start block blockFree).mp atStart).1 blockFree
  · rw [other, carved.dummy]
    rintro rfl
    rw [carved.dummy] at atFree
    cases atFree
    exact nomatch isFree
  · intro start block atStart
    by_cases same : start = freep
    · rw [same]
      exact carved.placed freep chunk atFree
    · rw [other start same] at atStart
      exact carved.placed start block atStart
  · refine linked_unlink carved.linked carved.entries_distinct ?_ ?_
    · rw [Heap.small_nextfree_set_nextfree, if_pos rfl]
    · intro entry differ
      rw [Heap.small_nextfree_set_nextfree, if_neg differ]
  · intro start
    rw [mem_without carved.distinct, carved.listed]
    constructor
    · rintro ⟨⟨block, atStart, blockFree⟩, differ⟩
      exact ⟨block, (freeOther start block blockFree).mpr ⟨atStart, differ⟩, blockFree⟩
    · rintro ⟨block, atStart, blockFree⟩
      obtain ⟨atOld, differ⟩ := (freeOther start block blockFree).mp atStart
      exact ⟨⟨block, atOld, blockFree⟩, differ⟩
  · intro found atBin
    rw [atFree] at atBin
    cases atBin
    exact isFree
  · intro start found differ _
    rw [other start differ]

/-- Fresh memory becomes the last chunk of the list. -/
theorem carved_append (carved : Carved arena heap layout chain) {block size : Int}
    (positive : 0 < block) (whole : 4 ∣ size) (nonempty : 0 < size)
    (unused : ∀ unit, block ≤ unit → unit < block + size → ¬ layout.Covers unit) :
    Carved arena (((heap.setSmallchunkSize block size).setSmallchunkNextfree block
        0).setSmallchunkNextfree (lastEntry arena.freelist chain) block)
      (layout.insert block ⟨size, .free⟩ nonempty unused) (chain ++ [block]) := by
  have differ : ∀ start found, layout.block start = some found → start ≠ block :=
    fun start found => layout.insert_apart ⟨size, .free⟩ nonempty unused
  have absent : ∀ entry, entry = arena.freelist ∨ entry ∈ chain → entry ≠ block := by
    intro entry isEntry
    obtain ⟨found, atEntry, _⟩ := carved.entry isEntry
    exact differ entry found atEntry
  have kept : ∀ start found, layout.block start = some found →
      (layout.insert block ⟨size, .free⟩ nonempty unused).block start = some found := by
    intro start found atStart
    rw [layout.insert_block, if_neg (differ start found atStart)]
    exact atStart
  have added : ∀ start found,
      (layout.insert block ⟨size, .free⟩ nonempty unused).block start = some found →
      (start = block ∧ found = ⟨size, .free⟩) ∨
        (start ≠ block ∧ layout.block start = some found) :=
    fun start found => layout.insert_cases nonempty unused
  have lastDiffers : lastEntry arena.freelist chain ≠ block :=
    absent _ (last_entry_mem arena.freelist chain)
  refine ⟨?_, kept _ _ carved.dummy, ?_, ?_, ?_, ?_⟩
  · intro start found atStart isFree
    rw [Heap.small_size_set_nextfree, Heap.small_size_set_nextfree, Heap.small_size_set_size]
    rcases added start found atStart with ⟨rfl, rfl⟩ | ⟨_, old⟩
    · exact ⟨whole, if_pos rfl⟩
    · rw [if_neg (differ start found old)]
      exact carved.sized start found old isFree
  · intro start found atStart
    rcases added start found atStart with ⟨rfl, _⟩ | ⟨_, old⟩
    · exact positive
    · exact carved.placed start found old
  · refine linked_append carved.linked carved.entries_distinct (by omega) ?_ ?_ ?_
      ⟨(absent _ (Or.inl rfl)).symm, fun member => absent block (Or.inr member) rfl⟩
    · rw [Heap.small_nextfree_set_nextfree, if_pos rfl]
    · rw [Heap.small_nextfree_set_nextfree, if_neg lastDiffers.symm,
        Heap.small_nextfree_set_nextfree, if_pos rfl]
    · intro entry notLast notBlock
      rw [Heap.small_nextfree_set_nextfree, if_neg notLast, Heap.small_nextfree_set_nextfree,
        if_neg notBlock, Heap.small_nextfree_set_size]
  · refine List.nodup_append.mpr ⟨carved.distinct, List.nodup_singleton block, ?_⟩
    rintro entry member other isBlock rfl
    exact absent entry (Or.inr member) (List.mem_singleton.mp isBlock)
  · intro start
    rw [List.mem_append, List.mem_singleton, carved.listed]
    constructor
    · rintro (⟨found, atStart, isFree⟩ | rfl)
      · exact ⟨found, kept start found atStart, isFree⟩
      · exact ⟨⟨size, .free⟩, by rw [layout.insert_block, if_pos rfl], rfl⟩
    · rintro ⟨found, atStart, isFree⟩
      rcases added start found atStart with ⟨rfl, _⟩ | ⟨_, old⟩
      · exact Or.inr rfl
      · exact Or.inl ⟨found, old, isFree⟩

/-- The bin above it concerns neither the list nor any SIZE word. -/
theorem carved_bin (num : Nat) (carved : Carved arena heap layout chain) {start : Int}
    (positive : 0 < start)
    (nonempty : 0 < units)
    (unused : ∀ unit, start ≤ unit → unit < start + units → ¬ layout.Covers unit) :
    Carved arena heap (layout.insert start ⟨units, .bin num⟩ nonempty unused) chain := by
  have freeSame : ∀ other found, found.state = Share.free →
      ((layout.insert start ⟨units, .bin num⟩ nonempty unused).block other = some found ↔
        layout.block other = some found) := by
    intro other found isFree
    rw [layout.insert_block]
    split_ifs with same
    · constructor
      · intro atOther
        cases atOther
        exact nomatch isFree
      · intro atOther
        exact absurd (layout.covers_start atOther) (unused other (by omega) (by omega))
    · exact Iff.rfl
  refine ⟨?_, ?_, ?_, carved.linked, carved.distinct, ?_⟩
  · intro other found atOther isFree
    exact carved.sized other found ((freeSame other found isFree).mp atOther) isFree
  · rw [layout.insert_block, if_neg, carved.dummy]
    rintro rfl
    exact unused arena.freelist (le_refl _) (by omega) (layout.covers_start carved.dummy)
  · intro other found atOther
    rw [layout.insert_block] at atOther
    split_ifs at atOther with same
    · rw [same]
      exact positive
    · exact carved.placed other found atOther
  · intro other
    rw [carved.listed]
    constructor
    · rintro ⟨found, atOther, isFree⟩
      exact ⟨found, (freeSame other found isFree).mpr atOther, isFree⟩
    · rintro ⟨found, atOther, isFree⟩
      exact ⟨found, (freeSame other found isFree).mp atOther, isFree⟩

end Carving

section Allocation

variable {arenas : Nat → Arena} {heap : Heap} {layout : Layout Share} {chain : List Int}
  {num : Nat} {units block : Int}

/-- The bin has been handed out and the arena of arenas is in order. -/
def HandsOutBin (arenas : Nat → Arena) (num : Nat) (units : Int) (heap : Heap)
    (layout : Layout Share) (result : Int × Heap) : Prop :=
  ∃ renewed nodes, Carved (arenas 0) result.2 renewed nodes ∧
    Spans arenas result.2.obtained renewed ∧ Carves num units layout renewed result.1 ∧
    Untouched (arenas 0) layout heap result.2

/-- All bin sizes are multiples of 4 units and smaller than a bin of arena 0. -/
theorem bin_units (thread : IsThread arenas) (isArena : 1 ≤ num ∧ num ≤ 7) :
    4 ∣ (arenas num).binsize ∧ 0 < (arenas num).binsize ∧
      (arenas num).binsize < (arenas 0).binsize := by
  rw [thread.binsize num isArena.2, thread.binsize 0 (by decide)]
  have cases : num = 1 ∨ num = 2 ∨ num = 3 ∨ num = 4 ∨ num = 5 ∨ num = 6 ∨ num = 7 := by omega
  rcases cases with rfl | rfl | rfl | rfl | rfl | rfl | rfl <;> decide

theorem split_hands_out_bin (carved : Carved (arenas 0) heap layout chain)
    (spans : Spans arenas heap.obtained layout) {freep : Int} (member : freep ∈ chain)
    (whole : 4 ∣ units) (positive : 0 < units) (large : units < heap.smallchunkSize freep) :
    HandsOutBin arenas num units heap layout (splitBin units heap freep) := by
  obtain ⟨chunk, atFree, isFree⟩ := (carved.listed freep).mp member
  obtain ⟨_, sized⟩ := carved.sized freep chunk atFree isFree
  rw [sized] at large
  have lowSize : 0 < chunk.size - units := by omega
  have sum : chunk.size - units + units = chunk.size := by omega
  obtain ⟨carvedNew, carves⟩ := carved_split num carved atFree isFree whole lowSize
    positive sum
  have writes : splitBin units heap freep =
      (freep + (chunk.size - units), heap.setSmallchunkSize freep (chunk.size - units)) := by
    simp only [splitBin, Heap.small_size_set_size, if_true, sized]
  rw [writes]
  refine ⟨_, chain, carvedNew, ?_, carves, ?_⟩
  · intro unit
    rw [layout.covers_split]
    exact spans unit
  · exact Untouched.refl.first (writable_in atFree (Or.inl isFree) (le_refl _) (by omega)) _

theorem remove_hands_out_bin {front back : List Int} {freep : Int}
    (carved : Carved (arenas 0) heap layout (front ++ freep :: back))
    (spans : Spans arenas heap.obtained layout) (exact : heap.smallchunkSize freep = units) :
    HandsOutBin arenas num units heap layout (freep,
      heap.setSmallchunkNextfree (lastEntry (arenas 0).freelist front)
        (heap.smallchunkNextfree freep)) := by
  obtain ⟨chunk, atFree, isFree⟩ := (carved.listed freep).mp
    (List.mem_append.mpr (Or.inr (List.mem_cons_self ..)))
  obtain ⟨_, sized⟩ := carved.sized freep chunk atFree isFree
  obtain ⟨carvedNew, carves⟩ := carved_remove num carved atFree isFree
  rw [← exact, sized]
  refine ⟨_, _, carvedNew, ?_, carves, ?_⟩
  · intro unit
    rw [layout.covers_retag]
    exact spans unit
  · exact Untouched.refl.second
      (carved.writable_link (last_entry_of front back freep (arenas 0).freelist)) _

theorem extend_hands_out_bin (carved : Carved (arenas 0) heap layout chain)
    (spans : Spans arenas heap.obtained layout) (fresh : FreshBlock arenas heap block)
    (binWhole : 4 ∣ (arenas 0).binsize) (whole : 4 ∣ units) (positive : 0 < units)
    (small : units < (arenas 0).binsize) :
    HandsOutBin arenas num units heap layout (extendFreeList (arenas 0) units heap
      (lastEntry (arenas 0).freelist chain) block) := by
  obtain ⟨placed, notInMemory⟩ := fresh
  have unused : ∀ unit, block ≤ unit → unit < block + (arenas 0).binsize →
      ¬ layout.Covers unit :=
    fun unit above below covered => notInMemory unit above below ((spans unit).mp covered)
  have restSize : 0 < (arenas 0).binsize - units := by omega
  have restUnused : ∀ unit, block ≤ unit → unit < block + ((arenas 0).binsize - units) →
      ¬ layout.Covers unit := fun unit above below => unused unit above (by omega)
  -- the chunk that remains of the new block, and above it the bin
  have binUnused : ∀ unit, block + ((arenas 0).binsize - units) ≤ unit →
      unit < block + ((arenas 0).binsize - units) + units →
      ¬ (layout.insert block ⟨(arenas 0).binsize - units, .free⟩ restSize restUnused).Covers
        unit := by
    intro unit above below covered
    rw [layout.covers_insert] at covered
    rcases covered with old | inside
    · exact unused unit (by omega) (by omega) old
    · dsimp only at inside
      omega
  have held : Carved (arenas 0) (heap.obtain block (arenas 0).binsize) layout chain :=
    carved.congr (fun _ _ => ⟨rfl, rfl⟩)
  have appended := carved_append held placed (by omega) restSize restUnused
  have notFree : ∀ start found, layout.block start = some found → start < block ∨
      block + (arenas 0).binsize ≤ start := by
    intro start found atStart
    by_contra inside
    exact unused start (by omega) (by omega) (layout.covers_start atStart)
  have writes : extendFreeList (arenas 0) units heap (lastEntry (arenas 0).freelist chain) block =
      (block + ((arenas 0).binsize - units), ((((heap.obtain block
        (arenas 0).binsize).setSmallchunkSize block ((arenas 0).binsize -
        units)).setSmallchunkNextfree block 0).setSmallchunkNextfree
        (lastEntry (arenas 0).freelist chain) block)) := by
    simp only [extendFreeList, Heap.small_size_set_nextfree, Heap.small_size_set_size, if_true]
  rw [writes]
  refine ⟨_, _, carved_bin num appended (by omega) positive binUnused, ?_,
    ⟨?_, ?_, ?_⟩, ?_⟩
  · intro unit
    rw [Layout.covers_insert, layout.covers_insert, spans unit, or_assoc]
    refine Iff.trans ?_ (in_memory_cons arenas (block, (arenas 0).binsize) heap.obtained unit).symm
    refine or_congr_right ?_
    dsimp only
    omega
  · intro found atBin
    have out := notFree _ found atBin
    omega
  · rw [Layout.insert_block, if_pos rfl]
  · intro start found differ isBin
    rw [Layout.insert_block, if_neg differ, layout.insert_block]
    split_ifs with same
    · constructor
      · intro atStart
        cases atStart
        exact absurd rfl isBin
      · intro atStart
        have out := notFree start found atStart
        omega
    · exact Iff.rfl
  · have obtained : Untouched (arenas 0) layout heap (heap.obtain block (arenas 0).binsize) :=
      ⟨rfl, fun _ _ _ _ _ _ _ _ => ⟨rfl, rfl⟩⟩
    refine ((obtained.first ?_ _).second ?_ _).second ?_ _
    · exact writable_unused (unused block (le_refl _) (by omega))
    · exact writable_unused (unused (block + 1) (by omega) (by omega))
    · exact carved.writable_link (last_entry_mem (arenas 0).freelist chain)

/-- Every request for a bin is served. -/
theorem allocate_outcome (num : Nat) (thread : IsThread arenas)
    (carved : Carved (arenas 0) heap layout chain)
    (spans : Spans arenas heap.obtained layout) (fresh : FreshBlock arenas heap block)
    (whole : 4 ∣ units) (positive : 0 < units) (small : units < (arenas 0).binsize)
    (fuel : Nat) :
    Outcome (HandsOutBin arenas num units heap layout) (chain.length < fuel) False
      (allocateNewBinInArenaOfArenas (arenas 0) block fuel units heap) := by
  have searched : Outcome (Found (arenas 0) units heap (arenas 0).freelist chain)
      (chain.length < fuel) False _ := search_outcome fuel carved.linked
  have least : (arenas 0).minChunkSize = 1 := thread.least
  rw [allocateNewBinInArenaOfArenas]
  cases found : searchFreeList (arenas 0) units heap fuel (arenas 0).freelist
      (heap.smallchunkNextfree (arenas 0).freelist) with
  | none =>
      rw [found] at searched
      exact searched
  | some search =>
      rw [found] at searched
      cases search with
      | split freep =>
          obtain ⟨member, large⟩ := searched
          exact split_hands_out_bin carved spans member whole positive (by omega)
      | remove lastp freep =>
          obtain ⟨front, back, rfl, rfl, fits, tight⟩ := searched
          exact remove_hands_out_bin carved spans (by omega)
      | exhausted lastp =>
          have isLast : lastp = lastEntry (arenas 0).freelist chain := searched
          rw [isLast]
          refine extend_hands_out_bin carved spans fresh ?_ whole positive small
          rw [thread.binsize 0 (by decide)]
          decide

end Allocation

end Sac2c.ArenaOfArenas
