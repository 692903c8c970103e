import Mathlib.Algebra.Group.Nat.Defs
import Sac2c.CompatFree
import Sac2c.BinOrder

/-!
memalign (libsacphm/compat/malloc.c). It asks malloc for a chunk that is large enough to have
an aligned address in it, cuts off what lies before that address as a chunk of its own and
frees this prefix. A free chunk has three header units, since its NEXTFREE link comes after
the SIZE and ARENA words; the words of two neighbours overlap if the first one is shorter.
-/

namespace Sac2c.AlignedChunks

open Headers LargeChunks SizeClasses BoundaryTags Blocks FreeList CompatFree

section Model

/-- SAC_HM_LARGECHUNK_DIAG. -/
def largechunkDiag (heap : Heap) (header : Int) : Int := heap.second header

def setLargechunkDiag (heap : Heap) (header pattern : Int) : Heap := heap.setSecond header pattern

/-- DIAG_ALLOCPATTERN. -/
def diagAllocpattern : Int := 123456

def sizeNeeded (alignment size : SizeByte) : SizeByte :=
  let aligned := size + alignment + (16 + 16)
  let least := BitVec.ofNat 64 (Arenas.arenaMincs 5 * Arenas.unitSize)
  if aligned > least then aligned else least

/-- `mem % alignment`, where `mem` is a number of units. -/
def misalign (alignment : SizeByte) (mem : Int) : Int := mem * Arenas.unitSize % alignment.toNat

def offsetUnits (alignment : SizeByte) (mem : Int) : Int :=
  let offset := (alignment.toNat - misalign alignment mem) / Arenas.unitSize
  if offset < 2 then offset + alignment.toNat / Arenas.unitSize else offset

/-- The header words of the two chunks. -/
def cutPrefix (heap : Heap) (prefixp offset : Int) : Heap :=
  let arena := heap.largechunkArena prefixp
  let freep := prefixp + offset
  let heap := heap.setLargechunkSize freep (heap.largechunkSize prefixp - offset)
  let heap := heap.setLargechunkArena freep arena
  let heap := heap.setLargechunkPrevsize freep (-1)
  let heap := setLargechunkDiag heap freep diagAllocpattern
  heap.setLargechunkSize prefixp offset

/-- `malloc` gives the address of the chunk and the heap after the call, or does not return. -/
def memalign (directory : Directory) (malloc : SizeByte → Option (Int × Heap))
    (alignment size : SizeByte) : Option (Int × Heap) :=
  if alignment ≤ 16 then malloc size
  else
    match malloc (sizeNeeded alignment size) with
    | none => none
    | some (mem, heap) =>
        if misalign alignment mem = 0 then some (mem, heap)
        else
          let offset := offsetUnits alignment mem
          let prefixp := mem - 2
          let heap := cutPrefix heap prefixp offset
          some (prefixp + offset + 2, free directory heap (prefixp + 2))

/-- What memalign asks malloc for. -/
def request (alignment size : SizeByte) : SizeByte :=
  if alignment ≤ 16 then size else sizeNeeded alignment size

end Model

section Cutting

variable {arena : Arena} {heap : Heap} {layout : Layout Status} {chain : List Int}
  {prefixp offset size : Int}

@[simp] theorem size_set_diag (header pattern other : Int) :
    (setLargechunkDiag heap header pattern).largechunkSize other = heap.largechunkSize other := rfl

@[simp] theorem prevsize_set_diag (header pattern other : Int) :
    (setLargechunkDiag heap header pattern).largechunkPrevsize other =
      heap.largechunkPrevsize other := rfl

@[simp] theorem arena_set_diag (header pattern other : Int) :
    (setLargechunkDiag heap header pattern).largechunkArena other =
      if other + 1 = header then pattern else heap.largechunkArena other := rfl

@[simp] theorem nextfree_set_diag (header pattern other : Int) :
    (setLargechunkDiag heap header pattern).largechunkNextfree other =
      if other + 2 = header then pattern else heap.largechunkNextfree other := rfl

theorem cut_size (other : Int) : (cutPrefix heap prefixp offset).largechunkSize other =
    if other = prefixp then offset
    else if other + 1 = prefixp + offset then -1
    else if other = prefixp + offset then heap.largechunkSize prefixp - offset
    else heap.largechunkSize other := by
  simp only [cutPrefix, Heap.size_set_size, size_set_diag, Heap.size_set_prevsize,
    Heap.size_set_arena]

theorem cut_arena (other : Int) : (cutPrefix heap prefixp offset).largechunkArena other =
    if other + 1 = prefixp + offset then diagAllocpattern
    else if other = prefixp + offset then heap.largechunkArena prefixp
    else heap.largechunkArena other := by
  simp only [cutPrefix, Heap.arena_set_size, arena_set_diag, Heap.arena_set_prevsize,
    Heap.arena_set_arena]

theorem cut_prevsize (other : Int) : (cutPrefix heap prefixp offset).largechunkPrevsize other =
    if other = prefixp + 1 then offset
    else if other = prefixp + offset then -1
    else if other = prefixp + offset + 1 then heap.largechunkSize prefixp - offset
    else heap.largechunkPrevsize other := by
  simp only [cutPrefix, Heap.prevsize_set_size, prevsize_set_diag, Heap.prevsize_set_prevsize,
    Heap.prevsize_set_arena]

theorem cut_nextfree (other : Int) : (cutPrefix heap prefixp offset).largechunkNextfree other =
    if other + 2 = prefixp + offset then diagAllocpattern
    else if other + 2 = prefixp + offset + 1 then heap.largechunkArena prefixp
    else heap.largechunkNextfree other := by
  simp only [cutPrefix, Heap.nextfree_set_size, nextfree_set_diag, Heap.nextfree_set_prevsize,
    Heap.nextfree_set_arena]

theorem cut_diag (other : Int) : largechunkDiag (cutPrefix heap prefixp offset) other =
    if other = prefixp + offset then diagAllocpattern
    else if other = prefixp + offset + 1 then heap.largechunkArena prefixp
    else largechunkDiag heap other := rfl

/-- A live chunk is cut into two live ones, each with room for a header. -/
theorem tagged_cut (tagged : Tagged arena heap layout)
    (atPrefix : layout.block prefixp = some ⟨size, .live⟩) (wide : 3 ≤ offset)
    (rest : 3 ≤ size - offset) (lowSize : 0 < offset) (highSize : 0 < size - offset)
    (sum : offset + (size - offset) = size) :
    Tagged arena (cutPrefix heap prefixp offset)
      (layout.split prefixp _ atPrefix ⟨offset, .live⟩ ⟨size - offset, .live⟩
        lowSize highSize sum) := by
  have isChunk : Status.live.IsChunk := Or.inl status_live_closed
  obtain ⟨_, sized⟩ := tagged.sized prefixp _ atPrefix isChunk
  obtain ⟨ended, follower, atEnd, notDummy⟩ :=
    tagged.ended prefixp _ atPrefix status_live_closed
  have owned := tagged.owned prefixp _ atPrefix status_live_closed
  have atLow := layout.split_low ⟨offset, .live⟩ ⟨size - offset, .live⟩ atPrefix lowSize
    highSize sum
  have atHigh := layout.split_high ⟨offset, .live⟩ ⟨size - offset, .live⟩ atPrefix lowSize
    highSize sum
  have outside : ∀ other, other < prefixp ∨ prefixp + size ≤ other → _ = layout.block other :=
    fun other out => layout.split_outside ⟨offset, .live⟩ ⟨size - offset, .live⟩ atPrefix
      lowSize highSize sum out
  dsimp only at sized ended atEnd
  refine tagged_rewrite tagged (rewrite_region atPrefix isChunk (le_refl _)
    (within_one atPrefix isChunk) outside ?_ ?_ ?_ ?_) ⟨_, atLow, isChunk⟩ ?_ ?_ ?_ ?_
  · intro other out
    dsimp only at out
    rw [cut_size, if_neg (by omega), if_neg (by omega), if_neg (by omega)]
  · intro other out
    dsimp only at out
    rw [cut_arena, if_neg (by omega), if_neg (by omega)]
  · intro other out
    dsimp only at out
    rw [cut_prevsize, if_neg (by omega), if_neg (by omega), if_neg (by omega)]
  · -- no dummy stands behind a live chunk
    intro block atBlock isDummy
    rw [atEnd] at atBlock
    cases atBlock
    exact absurd isDummy notDummy
  · intro other block above below atOther
    rcases layout.split_inside _ _ atPrefix lowSize highSize sum above below atOther with
      ⟨rfl, rfl⟩ | ⟨rfl, rfl⟩
    · exact ⟨isChunk, wide, by rw [cut_size, if_pos rfl]⟩
    · refine ⟨isChunk, rest, ?_⟩
      dsimp only
      rw [cut_size, if_neg (by omega), if_neg (by omega), if_pos rfl, sized]
  · -- each part has its arena, its tag behind it and a block after it
    intro other block above below atOther _
    rcases layout.split_inside _ _ atPrefix lowSize highSize sum above below atOther with
      ⟨rfl, rfl⟩ | ⟨rfl, rfl⟩
    · refine ⟨?_, ?_, _, atHigh, nofun⟩
      · rw [cut_arena, if_neg (by omega), if_neg (by omega), owned]
      · dsimp only
        rw [cut_prevsize, if_neg (by omega), if_pos rfl]
        rfl
    · have ends : prefixp + offset + (size - offset) = prefixp + size := by omega
      refine ⟨?_, ?_, follower, ?_, notDummy⟩
      · dsimp only
        rw [cut_arena, if_neg (by omega), if_pos rfl, owned]
      · dsimp only
        rw [ends, cut_prevsize, if_neg (by omega), if_neg (by omega), if_neg (by omega), ended]
        rfl
      · dsimp only
        rw [ends, outside _ (Or.inr (le_refl _))]
        exact atEnd
  · intro other block above below atOther
    rcases layout.split_inside _ _ atPrefix lowSize highSize sum (le_of_lt above) below atOther with
      ⟨rfl, _⟩ | ⟨rfl, _⟩
    · omega
    · refine Or.inl ?_
      dsimp only
      rw [cut_prevsize, if_neg (by omega), if_pos rfl]
  · intro block _ _
    refine Or.inl ?_
    dsimp only
    rw [cut_prevsize, if_neg (by omega), if_neg (by omega), if_neg (by omega), ended]
    rfl

/-- Cutting a live chunk leaves the free list as it is. -/
theorem sound_cut (sound : Sound arena heap layout chain)
    (atPrefix : layout.block prefixp = some ⟨size, .live⟩) (wide : 3 ≤ offset)
    (rest : 3 ≤ size - offset) (lowSize : 0 < offset) (highSize : 0 < size - offset)
    (sum : offset + (size - offset) = size) :
    Sound arena (cutPrefix heap prefixp offset)
      (layout.split prefixp _ atPrefix ⟨offset, .live⟩ ⟨size - offset, .live⟩
        lowSize highSize sum) chain := by
  refine ⟨tagged_cut sound.tagged atPrefix wide rest lowSize highSize sum,
    ⟨?_, sound.listed.distinct, ?_⟩, ?_⟩
  · -- an entry of the list lies on one side of the chunk, link included
    refine Links.reaches_congr sound.listed.linked ?_
    intro entry isEntry
    obtain ⟨block, atEntry, entryWide⟩ := sound.entry isEntry
    have notPrefix : entry ≠ prefixp := by
      rintro rfl
      rcases isEntry with rfl | member
      · rw [sound.tagged.dummy] at atPrefix
        cases atPrefix
      · obtain ⟨chunk, atChunk, isListed⟩ := (sound.listed.listed entry).mp member
        rw [atPrefix] at atChunk
        cases atChunk
        exact live_not_listed isListed
    rw [cut_nextfree]
    rcases layout.apart_or atEntry atPrefix notPrefix with below | above
    · rw [if_neg (by omega), if_neg (by omega)]
    · dsimp only at above
      rw [if_neg (by omega), if_neg (by omega)]
  · intro header
    rw [sound.listed.listed, on_list_split ⟨offset, .live⟩ ⟨size - offset, .live⟩ atPrefix Iff.rfl
      live_not_listed]
  · intro unit written
    rw [layout.covers_split]
    have within : ∀ other, prefixp ≤ other → other < prefixp + size → layout.Covers other :=
      fun other above below => ⟨prefixp, _, atPrefix, above, below⟩
    have writes : (cutPrefix heap prefixp offset).written = (prefixp + 1) ::
        (prefixp + offset) :: (prefixp + offset) :: (prefixp + offset + 1) ::
        (prefixp + offset + 1) :: heap.written := rfl
    simp only [writes, List.mem_cons] at written
    rcases written with rfl | rfl | rfl | rfl | rfl | old
    · exact within _ (by omega) (by omega)
    · exact within _ (by omega) (by omega)
    · exact within _ (by omega) (by omega)
    · exact within _ (by omega) (by omega)
    · exact within _ (by omega) (by omega)
    · exact sound.inside unit old

end Cutting

section Offsets

variable {alignment size : SizeByte} {mem : Int}

/-- A power of two above the unit size is a number of units. -/
theorem alignment_in_units (power : ∃ k, alignment.toNat = 2 ^ k) (above : ¬ alignment ≤ 16) :
    ∃ units : Nat, 2 ≤ units ∧ alignment.toNat = 16 * units := by
  obtain ⟨k, isPower⟩ := power
  have more : 2 ^ 4 < 2 ^ k := by
    rw [← isPower]
    simpa [BitVec.le_def] using above
  have exponent : 4 < k := (Nat.pow_lt_pow_iff_right (by decide)).mp more
  obtain ⟨rest, rfl⟩ : ∃ rest, k = 4 + (rest + 1) := ⟨k - 5, by omega⟩
  have positive : 0 < 2 ^ rest := Nat.pow_pos (by decide)
  refine ⟨2 ^ (rest + 1), ?_, ?_⟩
  · rw [Nat.pow_succ]
    omega
  · rw [isPower, Nat.pow_add]

theorem misalign_in_units {units : Nat} (inUnits : alignment.toNat = 16 * units) :
    misalign alignment mem = 16 * (mem % units) := by
  rw [misalign, inUnits, Int.mul_comm mem]
  push_cast
  exact Int.mul_emod_mul_of_pos mem units (by decide)

theorem offset_in_units {units : Nat} (inUnits : alignment.toNat = 16 * units) :
    offsetUnits alignment mem =
      if units - mem % units < 2 then units - mem % units + units else units - mem % units := by
  have whole : ((alignment.toNat : Int) - misalign alignment mem) / Arenas.unitSize =
      units - mem % units := by
    rw [misalign_in_units inUnits, inUnits, Arenas.unitSize]
    omega
  have unitsAgain : (alignment.toNat : Int) / Arenas.unitSize = units := by
    rw [inUnits, Arenas.unitSize]
    omega
  simp only [offsetUnits, whole, unitsAgain]

/-- The offset leads to the next aligned address that leaves two units for the prefix. -/
theorem offset_bounds (mem : Int) {units : Nat} (some : 2 ≤ units)
    (inUnits : alignment.toNat = 16 * units) :
    2 ≤ offsetUnits alignment mem ∧ offsetUnits alignment mem ≤ units + 1 ∧
      (mem + offsetUnits alignment mem) % units = 0 ∧
      (offsetUnits alignment mem = 2 ↔ misalign alignment mem + 32 = alignment.toNat) := by
  rw [misalign_in_units inUnits, offset_in_units inUnits, inUnits]
  have low := Int.emod_nonneg mem (show (units : Int) ≠ 0 by omega)
  have high := Int.emod_lt_of_pos mem (show (0 : Int) < units by omega)
  have aligned : (mem + (units - mem % units)) % units = 0 := by
    rw [show mem + (units - mem % units) = units * (mem / units) + units by
      have division := Int.emod_add_mul_ediv mem units
      omega]
    simp
  split_ifs with near
  · refine ⟨by omega, by omega, ?_, by omega⟩
    rw [← Int.add_assoc, Int.add_emod_right]
    exact aligned
  · exact ⟨by omega, by omega, aligned, by omega⟩

/-- An address that is a multiple of the alignment in units is one in bytes. -/
theorem aligned_in_bytes {units : Nat} (inUnits : alignment.toNat = 16 * units) {addr : Int}
    (exact : addr % units = 0) : addr * Arenas.unitSize % alignment.toNat = 0 := by
  obtain ⟨count, rfl⟩ := Int.dvd_of_emod_eq_zero exact
  rw [inUnits, Arenas.unitSize]
  push_cast
  rw [show (units : Int) * count * 16 = 16 * units * count by rw [Int.mul_comm, Int.mul_assoc]]
  exact Int.mul_emod_right _ _

/-- The chunk malloc is asked for has room for the worst offset. -/
theorem size_needed_value (fits : size.toNat + alignment.toNat + 32 < 2 ^ 64) :
    (sizeNeeded alignment size).toNat = max (size.toNat + alignment.toNat + 32) 272 := by
  have least : BitVec.ofNat 64 (Arenas.arenaMincs 5 * Arenas.unitSize) = 272 := rfl
  have leastBytes : (272 : SizeByte).toNat = 272 := rfl
  have aligned : (size + alignment + (16 + 16)).toNat = size.toNat + alignment.toNat + 32 := by
    rw [show (16 + 16 : SizeByte) = 32 by decide]
    bv_omega
  simp only [sizeNeeded, least, gt_iff_lt, BitVec.lt_def, aligned, leastBytes]
  split_ifs with more
  · rw [aligned]
    omega
  · rw [leastBytes]
    omega

end Offsets

section Answers

/-- The original chunk has become a free prefix and an aligned chunk, both in its arena. -/
structure Split (arena : Arena) (heap final : Heap) (prefixp aligned : Int) : Prop where
  sum : final.largechunkSize prefixp + final.largechunkSize aligned = heap.largechunkSize prefixp
  adjacent : prefixp + final.largechunkSize prefixp = aligned
  room : 3 ≤ final.largechunkSize prefixp
  prevsize : final.largechunkPrevsize aligned = final.largechunkSize prefixp
  diag : largechunkDiag final aligned = diagAllocpattern
  owners : final.largechunkArena prefixp = arena.self ∧ final.largechunkArena aligned = arena.self
  order : ∃ layout chain, Sound arena final layout (prefixp :: chain) ∧
    layout.block prefixp = some ⟨final.largechunkSize prefixp, .free⟩ ∧
    layout.block aligned = some ⟨final.largechunkSize aligned, .live⟩

/-- Where malloc's answer cannot be handed out as it is. -/
def Misaligned (alignment : SizeByte) (mem : Int) : Prop :=
  16 < alignment ∧ misalign alignment mem ≠ 0

/-- What memalign promises, given malloc's answer. -/
structure WellFormed (directory : Directory) (alignment size : SizeByte) (mem : Int) (heap : Heap)
    (addr : Int) (final : Heap) : Prop where
  aligned : addr * Arenas.unitSize % alignment.toNat = 0
  usable : (size.toNat : Int) ≤ payloadBytes directory final addr
  whole : ¬ Misaligned alignment mem → addr = mem ∧ final = heap
  split : Misaligned alignment mem →
    ∃ arena, directory.Knows arena ∧ Split arena heap final (mem - 2) (addr - 2)

variable {directory : Directory} {arena : Arena} {heap : Heap} {layout : Layout Status}
  {chain : List Int} {mem size offset : Int}

/-- The prefix keeps its ARENA word, so free gives it back to the arena it came from. -/
theorem free_prefix (holds : InLargeArena directory arena heap layout chain mem size)
    (clear : 2 ≤ offset) : free directory (cutPrefix heap (mem - 2) offset) mem =
      doFreeLargeChunk arena (cutPrefix heap (mem - 2) offset) (mem - 2) := by
  have words := holds.words
  refine free_large holds.knows holds.large (by omega) ?_
  rw [addr_arena_behind, cut_arena, if_neg (by omega), if_neg (by omega)]
  exact words.2.2.2

theorem narrow_size (narrow : (cutPrefix heap (mem - 2) 2).largechunkSize (mem - 2) = 2) :
    (doFreeLargeChunk arena (cutPrefix heap (mem - 2) 2) (mem - 2)).largechunkSize (mem - 2) =
      2 := by
  simp only [doFreeLargeChunk, narrow, Heap.size_set_nextfree, Heap.size_set_prevsize]
  rw [if_neg (by omega)]

/-- With three units and more for either chunk, the words do not get in each other's way. -/
theorem split_chunks (holds : InLargeArena directory arena heap layout chain mem size)
    (wide : 3 ≤ offset) (rest : 3 ≤ size - offset) :
    Split arena heap (doFreeLargeChunk arena (cutPrefix heap (mem - 2) offset) (mem - 2))
      (mem - 2) (mem - 2 + offset) := by
  obtain ⟨_, _, sized, _⟩ := holds.words
  have low : 0 < offset := by omega
  have high : 0 < size - offset := by omega
  have sum : offset + (size - offset) = size := by omega
  have cut := sound_cut holds.sound holds.live wide rest low high sum
  have atLow := layout.split_low ⟨offset, .live⟩ ⟨size - offset, .live⟩ holds.live low high sum
  have atHigh := layout.split_high ⟨offset, .live⟩ ⟨size - offset, .live⟩ holds.live low high sum
  have freed := sound_free cut atLow rfl
  have lowFreed := Layout.retag_self _ atLow Status.free
  have highFreed := (Layout.retag_other _ atLow Status.free
    (show mem - 2 + offset ≠ mem - 2 by omega)).trans atHigh
  have lowSize := (freed.tagged.sized _ _ lowFreed (Or.inl status_free_closed)).2
  have highSize := (freed.tagged.sized _ _ highFreed (Or.inl status_live_closed)).2
  have tagged := (freed.tagged.ended _ _ lowFreed status_free_closed).1
  dsimp only at lowSize highSize tagged
  have diag : largechunkDiag
      (doFreeLargeChunk arena (cutPrefix heap (mem - 2) offset) (mem - 2)) (mem - 2 + offset) =
        diagAllocpattern := by
    -- neither the link of the prefix nor that of the dummy entry lies in the aligned chunk
    have dummyApart : mem - 2 + offset ≠ arena.freelist + 2 := by
      intro same
      have differ : mem - 2 + offset ≠ arena.freelist := by omega
      have inside := header_units_free cut.tagged.dummy (le_refl 3)
        (show arena.freelist < mem - 2 + offset by omega) (by omega)
      rw [atHigh] at inside
      exact nomatch inside
    have written : largechunkDiag (cutPrefix heap (mem - 2) offset) (mem - 2 + offset) =
        diagAllocpattern := by
      rw [cut_diag, if_pos rfl]
    rw [← written]
    simp only [largechunkDiag, doFreeLargeChunk, Heap.second_set_nextfree,
      Heap.second_set_prevsize]
    rw [if_neg dummyApart, if_neg (by omega)]
  constructor
  case sum =>
    rw [lowSize, highSize, sized]
    omega
  case adjacent => rw [lowSize]
  case room => rwa [lowSize]
  case prevsize => rw [tagged, lowSize, tag_free]
  case diag => exact diag
  case owners =>
    exact ⟨freed.tagged.owned _ _ lowFreed status_free_closed,
      freed.tagged.owned _ _ highFreed status_live_closed⟩
  case order =>
    refine ⟨_, chain, freed, ?_, ?_⟩
    · rw [lowSize]
      exact lowFreed
    · rw [highSize]
      exact highFreed

/-- What the aligned chunk has to offer. -/
theorem Split.payload {final : Heap} {prefixp aligned : Int}
    (split : Split arena heap final prefixp aligned) (knows : directory.Knows arena)
    (large : ¬ Arenas.IsSmallArena arena.num) :
    payloadBytes directory final (aligned + 2) = (final.largechunkSize aligned - 2) * 16 := by
  have named : final.addrArena (aligned + 2) = arena.self := by
    rw [addr_arena_behind, Int.add_sub_cancel]
    exact split.owners.2
  rw [large_payload knows large named, Int.add_sub_cancel]

end Answers

section Results

variable {directory : Directory} {malloc : SizeByte → Option (Int × Heap)}
  {alignment size : SizeByte} {mem : Int} {heap : Heap}

theorem request_bound (above : ¬ alignment ≤ 16)
    (fits : size.toNat + alignment.toNat + 32 < 2 ^ 64) :
    size.toNat + alignment.toNat + 32 ≤ (request alignment size).toNat ∧
      Arenas.arenaMaxcsBytes 4 < (request alignment size).toNat := by
  have most : Arenas.arenaMaxcsBytes 4 = 240 := rfl
  rw [request, if_neg above, size_needed_value fits, most]
  omega

/-- Up to the unit size nothing needs to be done, since all addresses are those of units. -/
theorem small_alignment (power : ∃ k, alignment.toNat = 2 ^ k) (low : alignment ≤ 16)
    (addr : Int) : addr * Arenas.unitSize % alignment.toNat = 0 := by
  obtain ⟨k, isPower⟩ := power
  have atMost : 2 ^ k ≤ 2 ^ 4 := by
    rw [← isPower]
    simpa [BitVec.le_def] using low
  have divides : 2 ^ k ∣ Arenas.unitSize :=
    Nat.pow_dvd_pow 2 ((Nat.pow_le_pow_iff_right (by decide)).mp atMost)
  have unit : (Arenas.unitSize : Int) ∣ addr * Arenas.unitSize := Int.dvd_mul_left _ _
  rw [isPower]
  exact Int.emod_eq_zero_of_dvd (Int.dvd_trans (Int.natCast_dvd_natCast.mpr divides) unit)

/-- Malloc's answer is handed out as it is. -/
theorem whole_well_formed (power : ∃ k, alignment.toNat = 2 ^ k)
    (fits : size.toNat + alignment.toNat + 32 < 2 ^ 64)
    (answers : malloc (request alignment size) = some (mem, heap))
    (obtained : Obtained directory (request alignment size) mem heap)
    (aligned : ¬ Misaligned alignment mem) :
    memalign directory malloc alignment size = some (mem, heap) ∧
      WellFormed directory alignment size mem heap mem heap := by
  by_cases low : alignment ≤ 16
  · have room := obtained.room
    rw [request, if_pos low] at answers room
    refine ⟨by rw [memalign, if_pos low, answers], small_alignment power low mem, room,
      fun _ => ⟨rfl, rfl⟩, fun misaligned => absurd misaligned aligned⟩
  · have above : 16 < alignment := BitVec.not_le.mp low
    have exact : misalign alignment mem = 0 := by
      by_contra misaligned
      exact aligned ⟨above, misaligned⟩
    have room := obtained.room
    have bound := (request_bound low fits).1
    rw [request, if_neg low] at answers
    refine ⟨?_, exact, by omega, fun _ => ⟨rfl, rfl⟩,
      fun misaligned => absurd misaligned aligned⟩
    simp only [memalign, if_neg low, answers, if_pos exact]

/-- What memalign returns otherwise. -/
theorem memalign_cuts {arena : Arena} {layout : Layout Status} {chain : List Int} {units : Int}
    (answers : malloc (request alignment size) = some (mem, heap))
    (holds : InLargeArena directory arena heap layout chain mem units)
    (misaligned : Misaligned alignment mem) (clear : 2 ≤ offsetUnits alignment mem) :
    memalign directory malloc alignment size =
      some (mem - 2 + offsetUnits alignment mem + 2, doFreeLargeChunk arena
        (cutPrefix heap (mem - 2) (offsetUnits alignment mem)) (mem - 2)) := by
  obtain ⟨above, inexact⟩ := misaligned
  have low : ¬ alignment ≤ 16 := BitVec.not_le.mpr above
  rw [request, if_neg low] at answers
  simp only [memalign, if_neg low, answers, if_neg inexact]
  rw [show mem - 2 + 2 = mem by omega, free_prefix holds clear]

/-- memalign keeps its promise, whatever malloc answers, unless exactly two units lie between
that answer and the next aligned address: then a prefix of two units is split off, the link of
which overlays the DIAG word of the aligned chunk. -/
theorem memalign_well_formed (directory : Directory) (malloc : SizeByte → Option (Int × Heap))
    (alignment size : SizeByte) (power : ∃ k, alignment.toNat = 2 ^ k)
    (fits : size.toNat + alignment.toNat + 32 < 2 ^ 64) (mem : Int) (heap : Heap)
    (answers : malloc (request alignment size) = some (mem, heap))
    (obtained : Obtained directory (request alignment size) mem heap) :
    (∃ addr final, memalign directory malloc alignment size = some (addr, final) ∧
        WellFormed directory alignment size mem heap addr final) ↔
      ¬ (Misaligned alignment mem ∧ misalign alignment mem + 32 = alignment.toNat) := by
  by_cases aligned : ¬ Misaligned alignment mem
  · obtain ⟨returned, wellFormed⟩ := whole_well_formed power fits answers obtained aligned
    exact iff_of_true ⟨mem, heap, returned, wellFormed⟩ fun bad => aligned bad.1
  have misaligned := not_not.mp aligned
  have low : ¬ alignment ≤ 16 := BitVec.not_le.mpr misaligned.1
  obtain ⟨units, some, inUnits⟩ := alignment_in_units power low
  obtain ⟨clear, most, exact, two⟩ := offset_bounds mem some inUnits
  obtain ⟨bound, large⟩ := request_bound low fits
  obtain ⟨arena, layout, chain, total, holds⟩ := obtained.large large
  have returned := memalign_cuts answers holds misaligned clear
  have room := obtained.room
  rw [large_payload holds.knows holds.large holds.named, holds.words.2.2.1] at room
  rw [← two]
  constructor
  · rintro ⟨addr, final, atAddr, wellFormed⟩ ⟨_, narrow⟩
    rw [returned, narrow] at atAddr
    cases atAddr
    obtain ⟨_, _, split⟩ := wellFormed.split misaligned
    have wide := split.room
    rw [narrow_size (by rw [cut_size, if_pos rfl])] at wide
    omega
  · intro notTwo
    have wide : 3 ≤ offsetUnits alignment mem := by
      have differ : offsetUnits alignment mem ≠ 2 := fun same => notTwo ⟨misaligned, same⟩
      omega
    have split := split_chunks holds wide (by omega)
    have sum := split.sum
    rw [holds.words.2.2.1] at sum
    have low := split.adjacent
    refine ⟨_, _, returned, ?_, ?_, fun whole => absurd misaligned whole, fun _ => ?_⟩
    · rw [show mem - 2 + offsetUnits alignment mem + 2 = mem + offsetUnits alignment mem by omega]
      exact aligned_in_bytes inUnits exact
    · rw [split.payload holds.knows holds.large]
      omega
    · rw [Int.add_sub_cancel]
      exact ⟨arena, holds.knows, split⟩

end Results

section Example

open BinOrder LargeArenas

def arena8 : Arena := ⟨8, 8192, 32, 0, 8193⟩

def directory5 : Directory :=
  ⟨fun pointer => if pointer = arena5.self then arena5 else arena8, arena8, false⟩

/-- malloc with nothing allocated before, where the first bin comes at unit 100. -/
def firstAnswer (request : SizeByte) : Option (Int × Heap) :=
  mallocLargeChunk arena5 ⟨100, 0, 0⟩ 1 (comparisonTree unitsOfFunction request).2.toInt setUp.heap

theorem directory5_knows : directory5.Knows arena5 :=
  ⟨rfl, by decide, by decide, fun most => absurd most (by decide)⟩

theorem first_answer_obtained : ∃ heap, firstAnswer 272 = some (2130, heap) ∧
    Obtained directory5 272 2130 heap := by
  obtain ⟨layout, chain, sound, binned, _⟩ := dummy_only_valid set_up_dummy_only
  have chosen : comparisonTree unitsOfFunction 272 = (arena5.num, 19) := by decide
  have outcome := large_malloc_outcome arena5_is_large sound binned
    (show (3 : Int) ≤ 19 by decide) (by decide) first_bin_fresh 1
  obtain ⟨heap, answer⟩ : ∃ heap, firstAnswer 272 = some (2130, heap) := ⟨_, rfl⟩
  have same : mallocLargeChunk arena5 ⟨100, 0, 0⟩ 1 19 setUp.heap = some (2130, heap) := by
    rw [← answer, firstAnswer, chosen]
    rfl
  rw [same] at outcome
  exact ⟨heap, answer, delivers_obtained directory5_knows (by decide) chosen outcome⟩

theorem memalign_well_formed_at_128 : ∃ heap addr final,
    memalign directory5 firstAnswer 128 100 = some (addr, final) ∧
      WellFormed directory5 128 100 2130 heap addr final := by
  obtain ⟨heap, answer, obtained⟩ := first_answer_obtained
  exact ⟨heap, (memalign_well_formed directory5 firstAnswer 128 100 ⟨7, rfl⟩ (by decide) 2130 heap
    answer obtained).mpr (by
      rintro ⟨_, near⟩
      exact absurd near (by decide))⟩

/-- At 64 the prefix of two units has its link where the DIAG word of the chunk is. -/
theorem link_over_diag : ∃ heap, firstAnswer (request 64 100) = some (2130, heap) ∧
    Obtained directory5 (request 64 100) 2130 heap ∧
      ∃ final, memalign directory5 firstAnswer 64 100 = some (2132, final) ∧
        final.largechunkSize 2128 = 2 ∧
        largechunkDiag final 2130 = final.largechunkNextfree 2128 ∧
        largechunkDiag final 2130 ≠ diagAllocpattern ∧
        ¬ WellFormed directory5 64 100 2130 heap 2132 final := by
  obtain ⟨heap, answer, obtained⟩ := first_answer_obtained
  obtain ⟨final, returned, narrow, diag⟩ : ∃ final,
      memalign directory5 firstAnswer 64 100 = some (2132, final) ∧
        final.largechunkSize 2128 = 2 ∧ largechunkDiag final 2130 ≠ diagAllocpattern :=
    ⟨_, rfl, by decide, by decide⟩
  refine ⟨heap, answer, obtained, final, returned, narrow, rfl, diag, ?_⟩
  intro wellFormed
  obtain ⟨_, _, split⟩ := wellFormed.split ⟨by decide, by decide⟩
  exact diag split.diag

end Example

end Sac2c.AlignedChunks
