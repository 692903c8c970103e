import Sac2c.ByteRuns
import Sac2c.CompatFree
import Sac2c.LivePayloads

/-!
calloc and realloc (libsacphm/compat/malloc.c). They write and read bytes, two words of eight
to a unit, in the memory whose words the allocator uses for its headers. malloc is a parameter;
what they rely on is that it leaves the chunks in use alone and hands out one that meets none
of them. Addresses of chunks are those of units, addresses of bytes are not.
-/

namespace Sac2c.Reallocation

open Headers LargeChunks SmallChunks SizeClasses ByteRuns CompatFree

section Model

def loadByte (heap : Heap) (addr : Int) : BitVec 8 :=
  let index := (addr % 16).toNat
  if index < 8 then wordByte (heap.first (addr / 16)) index
  else wordByte (heap.second (addr / 16)) (index - 8)

def storeByte (heap : Heap) (addr : Int) (byte : BitVec 8) : Heap :=
  let index := (addr % 16).toNat
  if index < 8 then
    { heap with
      first := fun unit => if unit = addr / 16 then setWordByte (heap.first unit) index byte
        else heap.first unit }
  else
    { heap with
      second := fun unit => if unit = addr / 16 then setWordByte (heap.second unit) (index - 8) byte
        else heap.second unit }

/-- memset and memcpy; addresses of units. -/
def memset (heap : Heap) (mem : Int) (byte : BitVec 8) (count : Nat) : Heap :=
  fill storeByte heap (16 * mem) byte count

def memcpy (heap : Heap) (mem ptr : Int) (count : Nat) : Heap :=
  copy loadByte storeByte heap (16 * mem) (16 * ptr) count

variable (directory : Directory) (malloc : SizeByte → Heap → Option (Int × Heap))

/-- The product has 64 bits, as all of size_t. -/
def calloc (heap : Heap) (nelem elsize : SizeByte) : Option (Int × Heap) :=
  match malloc (nelem * elsize) heap with
  | none => none
  | some (mem, heap) => some (mem, memset heap mem 0 (nelem * elsize).toNat)

/-- What realloc returns, the heap it leaves and, as a record the program does not keep, how
many bytes it has read from the old chunk on. -/
structure Answer where
  mem : Int
  heap : Heap
  read : Int

def realloc (heap : Heap) (ptr : Int) (size : SizeByte) : Option Answer :=
  if ptr = 0 then (malloc size heap).map fun (mem, heap) => ⟨mem, heap, 0⟩
  else if size = 0 then some ⟨0, free directory heap ptr, 0⟩
  else
    let oldSizeUnits := chunkUnits directory heap ptr
    -- a number of bytes is compared with a number of units here
    if Arenas.IsSmallArena (arenaOf directory heap ptr).num ∧ size.toNat ≤ oldSizeUnits then
      some ⟨ptr, heap, 0⟩
    else
      match malloc size heap with
      | none => none
      | some (mem, heap) =>
          let count := min (sizeByte (oldSizeUnits * Arenas.unitSize)) size.toNat
          let heap := memcpy heap mem ptr count.toNat
          some ⟨mem, free directory heap ptr, count⟩

end Model

section Bytes

variable {heap : Heap}

theorem first_store_byte (addr : Int) (byte : BitVec 8) (unit : Int) :
    (storeByte heap addr byte).first unit =
      if unit = addr / 16 ∧ (addr % 16).toNat < 8 then
        setWordByte (heap.first unit) (addr % 16).toNat byte
      else heap.first unit := by
  by_cases low : (addr % 16).toNat < 8 <;> simp [storeByte, low]

theorem second_store_byte (addr : Int) (byte : BitVec 8) (unit : Int) :
    (storeByte heap addr byte).second unit =
      if unit = addr / 16 ∧ ¬ (addr % 16).toNat < 8 then
        setWordByte (heap.second unit) ((addr % 16).toNat - 8) byte
      else heap.second unit := by
  by_cases low : (addr % 16).toNat < 8 <;> simp [storeByte, low]

theorem load_store_byte : Lawful loadByte storeByte := by
  intro heap addr byte other
  simp only [loadByte, first_store_byte, second_store_byte]
  by_cases same : other = addr
  · subst same
    by_cases low : (other % 16).toNat < 8
    · rw [if_pos low, if_pos ⟨rfl, low⟩, if_pos rfl, word_byte_set, if_pos rfl]
    · rw [if_neg low, if_pos ⟨rfl, low⟩, if_pos rfl, word_byte_set, if_pos rfl]
  · rw [if_neg same]
    by_cases unit : other / 16 = addr / 16
    · by_cases low : (other % 16).toNat < 8
      · rw [if_pos low, if_pos low]
        split_ifs
        · rw [word_byte_set, if_neg (by omega)]
        · rfl
      · rw [if_neg low, if_neg low]
        split_ifs
        · rw [word_byte_set, if_neg (by omega)]
        · rfl
    · have notFirst : ¬ (other / 16 = addr / 16 ∧ (addr % 16).toNat < 8) :=
        fun both => unit both.1
      have notSecond : ¬ (other / 16 = addr / 16 ∧ ¬ (addr % 16).toNat < 8) :=
        fun both => unit both.1
      rw [if_neg notFirst, if_neg notSecond]

/-- A unit with both its words. -/
def unitOf (heap : Heap) (unit : Int) : Int × Int := (heap.first unit, heap.second unit)

theorem unit_store_byte {addr unit : Int} (differ : unit ≠ addr / 16) (byte : BitVec 8) :
    unitOf (storeByte heap addr byte) unit = unitOf heap unit := by
  rw [unitOf, unitOf, first_store_byte, second_store_byte, if_neg (fun both => differ both.1),
    if_neg (fun both => differ both.1)]

theorem load_byte_of_unit {after : Heap} {addr : Int}
    (same : unitOf after (addr / 16) = unitOf heap (addr / 16)) :
    loadByte after addr = loadByte heap addr := by
  obtain ⟨first, second⟩ := Prod.mk.inj same
  rw [loadByte, loadByte, first, second]

theorem unit_memset (mem : Int) (byte : BitVec 8) {count : Nat} {unit : Int}
    (outside : unit < mem ∨ 16 * mem + count ≤ 16 * unit) :
    unitOf (memset heap mem byte count) unit = unitOf heap unit := by
  refine fill_keeps (fun heap => unitOf heap unit) heap _ byte count ?_
  intro memory addr above below
  exact unit_store_byte (by omega) byte

theorem unit_memcpy (mem ptr : Int) {count : Nat} {unit : Int}
    (outside : unit < mem ∨ 16 * mem + count ≤ 16 * unit) :
    unitOf (memcpy heap mem ptr count) unit = unitOf heap unit := by
  refine copy_keeps (fun heap => unitOf heap unit) heap _ _ count ?_
  intro memory addr byte above below
  exact unit_store_byte (by omega) byte

end Bytes

section Chunks

variable (directory : Directory) (heap : Heap) (addr : Int)

def chunkStart : Int := addr - headerUnits (arenaOf directory heap addr).num

def chunkStop : Int := chunkStart directory heap addr + chunkUnits directory heap addr

/-- A chunk of an arena that is in use, within the 64 bits of an address. -/
structure InUse (arena : Arena) : Prop where
  knows : directory.Knows arena
  named : heap.addrArena addr = arena.self
  placed : 0 < chunkStart directory heap addr
  wide : headerUnits arena.num < chunkUnits directory heap addr
  addressed : chunkStop directory heap addr * Arenas.unitSize ≤ 2 ^ 64

variable {directory heap addr} {arena : Arena}

theorem InUse.arena_of (inUse : InUse directory heap addr arena) :
    arenaOf directory heap addr = arena := arena_of_named inUse.knows inUse.named

theorem payload_bytes_stop :
    payloadBytes directory heap addr = (chunkStop directory heap addr - addr) * 16 := by
  rw [payloadBytes, chunkStop, chunkStart, Arenas.unitSize]
  omega

theorem header_units_cases (num : Nat) : (Arenas.IsSmallArena num ∧ headerUnits num = 1) ∨
    (¬ Arenas.IsSmallArena num ∧ headerUnits num = 2) := by
  by_cases small : Arenas.IsSmallArena num
  · exact Or.inl ⟨small, if_pos small⟩
  · exact Or.inr ⟨small, if_neg small⟩

/-- The chunk is as before if its ARENA word is, and its SIZE word if there is one. -/
theorem units_of_words (directory : Directory) {after : Heap}
    (second : after.second (addr - 1) = heap.second (addr - 1))
    (first : ¬ Arenas.IsSmallArena (arenaOf directory heap addr).num →
      after.first (addr - 1) = heap.first (addr - 1)) :
    arenaOf directory after addr = arenaOf directory heap addr ∧
      chunkUnits directory after addr = chunkUnits directory heap addr := by
  have owner : arenaOf directory after addr = arenaOf directory heap addr := by
    rw [arenaOf, arenaOf, Heap.addrArena, Heap.addrArena, second]
  refine ⟨owner, ?_⟩
  have unit : addr - 2 + 1 = addr - 1 := by omega
  simp only [chunkUnits, owner, Heap.largechunkSize, unit]
  split_ifs with small
  · rfl
  · exact first small

theorem InUse.carried (inUse : InUse directory heap addr arena) {after : Heap}
    (owner : after.addrArena addr = heap.addrArena addr)
    (units : chunkUnits directory after addr = chunkUnits directory heap addr) :
    InUse directory after addr arena ∧
      chunkStart directory after addr = chunkStart directory heap addr ∧
      chunkStop directory after addr = chunkStop directory heap addr := by
  have start : chunkStart directory after addr = chunkStart directory heap addr := by
    rw [chunkStart, chunkStart, arenaOf, arenaOf, owner]
  have stop : chunkStop directory after addr = chunkStop directory heap addr := by
    rw [chunkStop, chunkStop, start, units]
  refine ⟨⟨inUse.knows, owner.trans inUse.named, ?_, ?_, ?_⟩, start, stop⟩
  · rw [start]
    exact inUse.placed
  · rw [units]
    exact inUse.wide
  · rw [stop]
    exact inUse.addressed

/-- The address lies behind the header and before the end of the chunk. -/
theorem InUse.bounds (inUse : InUse directory heap addr arena) :
    0 < chunkStart directory heap addr ∧ chunkStart directory heap addr < addr ∧
      addr < chunkStop directory heap addr ∧
      (¬ Arenas.IsSmallArena arena.num → chunkStart directory heap addr = addr - 2) := by
  have placed := inUse.placed
  have wide := inUse.wide
  rw [chunkStop, chunkStart, inUse.arena_of]
  rw [chunkStart, inUse.arena_of] at placed
  rcases header_units_cases arena.num with ⟨small, header⟩ | ⟨_, header⟩
  · exact ⟨placed, by omega, by omega, fun large => absurd small large⟩
  · exact ⟨placed, by omega, by omega, fun _ => by omega⟩

end Chunks

section Freeing

variable {directory : Directory} {heap : Heap} {ptr : Int} {arena : Arena}

/-- The unit with the link in the dummy entry of the free list. -/
def dummyLink (arena : Arena) : Int :=
  arena.freelist + headerUnits arena.num

theorem free_second (inUse : InUse directory heap ptr arena) {unit : Int} (notLink : unit ≠ ptr)
    (notDummy : unit ≠ dummyLink arena) :
    (free directory heap ptr).second unit = heap.second unit := by
  have placed := inUse.placed
  rw [chunkStart, inUse.arena_of] at placed
  rw [dummyLink] at notDummy
  rcases header_units_cases arena.num with ⟨small, header⟩ | ⟨large, header⟩
  · rw [header] at placed notDummy
    rw [free_small inUse.knows small (by omega) inUse.named, doFreeSmallChunk]
    simp only [Heap.second_set_small_nextfree]
    rw [if_neg notDummy, if_neg (by omega)]
  · rw [header] at placed notDummy
    rw [free_large inUse.knows large (by omega) inUse.named, doFreeLargeChunk]
    simp only [Heap.second_set_nextfree, Heap.second_set_prevsize]
    rw [if_neg notDummy, if_neg (by omega)]

theorem free_first (inUse : InUse directory heap ptr arena) {unit : Int}
    (notStop : unit ≠ chunkStop directory heap ptr) :
    (free directory heap ptr).first unit = heap.first unit := by
  have placed := inUse.placed
  rw [chunkStop, chunkUnits, chunkStart, inUse.arena_of] at notStop
  rw [chunkStart, inUse.arena_of] at placed
  rcases header_units_cases arena.num with ⟨small, header⟩ | ⟨large, header⟩
  · rw [header] at placed
    rw [free_small inUse.knows small (by omega) inUse.named, doFreeSmallChunk]
    rfl
  · rw [header] at placed
    simp only [header, if_neg large] at notStop
    rw [free_large inUse.knows large (by omega) inUse.named, doFreeLargeChunk]
    simp only [Heap.first_set_nextfree, Heap.first_set_prevsize]
    rw [if_neg notStop]

end Freeing

section Contracts

variable {directory : Directory} {malloc : SizeByte → Heap → Option (Int × Heap)} {heap : Heap}

/-- Room for the mathematical product, filled with zeros. -/
structure Zeroed (directory : Directory) (nelem elsize : SizeByte) (mem : Int) (heap : Heap) :
    Prop where
  room : (nelem.toNat * elsize.toNat : Int) ≤ payloadBytes directory heap mem
  zero : ∀ index : Int, 0 ≤ index → index < nelem.toNat * elsize.toNat →
    loadByte heap (16 * mem + index) = 0

/-- What malloc answers to a request. -/
structure Granted (directory : Directory) (size : SizeByte) (mem : Int) (heap : Heap) : Prop where
  inUse : ∃ arena, InUse directory heap mem arena
  room : (size.toNat : Int) ≤ payloadBytes directory heap mem

theorem Granted.payload_bound {size : SizeByte} {mem : Int}
    (granted : Granted directory size mem heap) :
    payloadBytes directory heap mem < 2 ^ 64 := by
  obtain ⟨arena, inUse⟩ := granted.inUse
  have bounds := inUse.bounds
  have addressed := inUse.addressed
  rw [payload_bytes_stop]
  simp only [Arenas.unitSize] at addressed
  omega

/-- memset leaves the header alone. -/
theorem payload_memset (mem : Int) (byte : BitVec 8) (count : Nat) :
    payloadBytes directory (memset heap mem byte count) mem = payloadBytes directory heap mem := by
  have same : unitOf (memset heap mem byte count) (mem - 1) = unitOf heap (mem - 1) :=
    unit_memset mem byte (Or.inl (by omega))
  obtain ⟨first, second⟩ := Prod.mk.inj same
  obtain ⟨owner, units⟩ := units_of_words directory second fun _ => first
  rw [payloadBytes, payloadBytes, owner, units]

theorem calloc_iff {nelem elsize : SizeByte} {mem : Int} {after : Heap}
    (answers : malloc (nelem * elsize) heap = some (mem, after))
    (granted : Granted directory (nelem * elsize) mem after) :
    (∃ final, calloc malloc heap nelem elsize = some (mem, final) ∧
        Zeroed directory nelem elsize mem final) ↔
      nelem.toNat * elsize.toNat < 2 ^ 64 := by
  have returned : calloc malloc heap nelem elsize =
      some (mem, memset after mem 0 (nelem * elsize).toNat) := by
    simp only [calloc, answers]
  have bound := granted.payload_bound
  have room := granted.room
  constructor
  · rintro ⟨final, atFinal, zeroed⟩
    rw [returned] at atFinal
    cases atFinal
    have fits := zeroed.room
    rw [payload_memset] at fits
    rw [← Int.natCast_mul] at fits
    omega
  · intro fits
    have product : (nelem * elsize).toNat = nelem.toNat * elsize.toNat := by
      rw [BitVec.toNat_mul]
      exact Nat.mod_eq_of_lt fits
    rw [product] at room
    push_cast at room
    refine ⟨_, returned, ?_, ?_⟩
    · rw [payload_memset]
      exact room
    · intro index low high
      rw [memset, load_fill load_store_byte, product, if_pos]
      push_cast
      omega

/-- malloc's answer while the chunk at `ptr` is in use: that chunk keeps its ARENA word, its
size and its payload, and neither it nor the dummy entry of its arena meets the new chunk. -/
structure Served (directory : Directory) (heap : Heap) (ptr : Int) (size : SizeByte) (mem : Int)
    (after : Heap) : Prop where
  granted : Granted directory size mem after
  owner : after.addrArena ptr = heap.addrArena ptr
  units : chunkUnits directory after ptr = chunkUnits directory heap ptr
  payload : ∀ unit, ptr ≤ unit → unit < chunkStop directory heap ptr →
    unitOf after unit = unitOf heap unit
  apart : chunkStop directory heap ptr ≤ chunkStart directory after mem ∨
    chunkStop directory after mem ≤ chunkStart directory heap ptr
  dummy : dummyLink (arenaOf directory heap ptr) < chunkStart directory after mem ∨
    chunkStop directory after mem ≤ dummyLink (arenaOf directory heap ptr)

section LargeArena

open Blocks BoundaryTags LargeArenas LivePayloads

variable {arena : Arena} {layout : Layout Status} {chain : List Int} {ptr mem : Int}

/-- The units of a live chunk of a large arena. -/
theorem large_chunk_units {size : Int}
    (holds : InLargeArena directory arena heap layout chain mem size) :
    chunkStart directory heap mem = mem - 2 ∧ chunkUnits directory heap mem = size ∧
      chunkStop directory heap mem = mem - 2 + size := by
  have owner := arena_of_named holds.knows holds.named
  have start : chunkStart directory heap mem = mem - 2 := by
    rw [chunkStart, owner, headerUnits, if_neg holds.large]
  have units : chunkUnits directory heap mem = size := by
    simp only [chunkUnits, owner, if_neg holds.large, holds.words.2.2.1]
  exact ⟨start, units, by rw [chunkStop, start, units]⟩

theorem large_chunk_in_use {size : Int}
    (holds : InLargeArena directory arena heap layout chain mem size)
    (addressed : chunkStop directory heap mem * Arenas.unitSize ≤ 2 ^ 64) :
    InUse directory heap mem arena := by
  obtain ⟨start, units, _⟩ := large_chunk_units holds
  obtain ⟨wide, placed, _⟩ := holds.words
  have header : headerUnits arena.num = 2 := if_neg holds.large
  exact ⟨holds.knows, holds.named, by omega, by omega, addressed⟩

/-- A large arena serves a request while one of its chunks is live: what realloc relies on holds
of `SAC_HM_MallocLargeChunk`, as long as the new chunk has addresses of 64 bits. -/
theorem large_malloc_served {old : Int} {supply : Supply} {fuel : Nat} {size : SizeByte}
    {units : SizeUnit} {after : Heap} (isLarge : IsLarge arena) (binned : Binned arena heap layout)
    (holds : InLargeArena directory arena heap layout chain ptr old)
    (chosen : comparisonTree unitsOfFunction size = (arena.num, units))
    (fresh : FreshBin arena heap units.toInt supply)
    (returned : mallocLargeChunk arena supply fuel units.toInt heap = some (mem, after))
    (addressed : chunkStop directory after mem * Arenas.unitSize ≤ 2 ^ 64) :
    Served directory heap ptr size mem after := by
  have inClass := tree_in_class size
  rw [chosen] at inClass
  have lower : arena.num < Arenas.topArena := by
    rcases isLarge.kind with num | num | num <;> rw [num] <;> decide
  obtain ⟨wide, room⟩ := sizes_fit isLarge ⟨inClass.least, inClass.below lower⟩
  have sound := holds.sound
  have delivers := large_malloc_outcome isLarge sound binned wide room fresh fuel
  rw [returned] at delivers
  have obtained := delivers_obtained holds.knows holds.large chosen delivers
  obtain ⟨renewed, nodes, soundAfter, binnedAfter, serves⟩ := delivers
  obtain ⟨⟨total, state⟩, atNew, isLive, _⟩ := serves.served
  cases isLive
  have newHolds : InLargeArena directory arena after renewed nodes mem total :=
    ⟨holds.knows, holds.large, soundAfter, atNew⟩
  -- a live chunk is not handed out again, and it is still live afterwards
  have differ : ptr - 2 ≠ mem - 2 := by
    intro same
    exact serves.fresh _ (same ▸ holds.live) rfl
  have stays : renewed.block (ptr - 2) = some ⟨old, .live⟩ :=
    (serves.others _ _ differ rfl).mpr holds.live
  have oldHolds : InLargeArena directory arena after renewed nodes ptr old :=
    ⟨holds.knows, holds.large, soundAfter, stays⟩
  obtain ⟨oldStart, oldUnits, oldStop⟩ := large_chunk_units holds
  obtain ⟨_, keptUnits, _⟩ := large_chunk_units oldHolds
  obtain ⟨newStart, _, newStop⟩ := large_chunk_units newHolds
  have dummyUnit : dummyLink (arenaOf directory heap ptr) = arena.freelist + 2 := by
    rw [arena_of_named holds.knows holds.named, dummyLink, headerUnits, if_neg holds.large]
  constructor
  case granted => exact ⟨⟨arena, large_chunk_in_use newHolds addressed⟩, obtained.room⟩
  case owner => exact oldHolds.named.trans holds.named.symm
  case units => exact keptUnits.trans oldUnits.symm
  case payload =>
    intro unit above below
    obtain ⟨first, second⟩ := large_malloc_untouched isLarge sound binned wide room fresh returned
      (ptr - 2) _ holds.live rfl unit (by omega) (by dsimp only; omega)
    exact Prod.ext first second
  case apart =>
    have apart := renewed.apart_or stays atNew differ
    dsimp only at apart
    omega
  case dummy =>
    have notNew : arena.freelist ≠ mem - 2 := by
      intro same
      have isDummy := soundAfter.tagged.dummy
      rw [same, atNew] at isDummy
      cases isDummy
    have apart := renewed.apart_or soundAfter.tagged.dummy atNew notNew
    dsimp only at apart
    omega

end LargeArena

/-- The contract of realloc. -/
structure Honours (directory : Directory) (heap : Heap) (ptr : Int) (size : SizeByte)
    (answer : Answer) : Prop where
  room : (size.toNat : Int) ≤ payloadBytes directory answer.heap answer.mem
  kept : ∀ index : Int, 0 ≤ index → index < min (payloadBytes directory heap ptr) size.toNat →
    loadByte answer.heap (16 * answer.mem + index) = loadByte heap (16 * ptr + index)
  read : answer.read ≤ payloadBytes directory heap ptr

variable {ptr mem : Int} {size : SizeByte} {after : Heap} {arena : Arena}

theorem realloc_in_place (inUse : InUse directory heap ptr arena) (nonempty : 0 < size.toNat)
    (inPlace : Arenas.IsSmallArena arena.num ∧ size.toNat ≤ chunkUnits directory heap ptr) :
    realloc directory malloc heap ptr size = some ⟨ptr, heap, 0⟩ := by
  have bounds := inUse.bounds
  have sized : size ≠ 0 := by
    rintro rfl
    exact absurd nonempty (by decide)
  simp only [realloc, inUse.arena_of, if_pos inPlace, if_neg sized]
  rw [if_neg (by omega)]

theorem realloc_moves (inUse : InUse directory heap ptr arena) (nonempty : 0 < size.toNat)
    (answers : malloc size heap = some (mem, after))
    (moves : ¬ (Arenas.IsSmallArena arena.num ∧ size.toNat ≤ chunkUnits directory heap ptr)) :
    realloc directory malloc heap ptr size =
      some ⟨mem, free directory (memcpy after mem ptr
        (min (chunkUnits directory heap ptr * 16) size.toNat).toNat) ptr,
        min (chunkUnits directory heap ptr * 16) size.toNat⟩ := by
  have bounds := inUse.bounds
  have addressed := inUse.addressed
  have sized : size ≠ 0 := by
    rintro rfl
    exact absurd nonempty (by decide)
  have bytes : sizeByte (chunkUnits directory heap ptr * Arenas.unitSize) =
      chunkUnits directory heap ptr * 16 := by
    simp only [chunkStop, Arenas.unitSize] at addressed bounds
    simp only [sizeByte, Arenas.unitSize]
    exact Int.emod_eq_of_lt (by omega) (by omega)
  simp only [realloc, inUse.arena_of, if_neg moves, if_neg sized, answers, bytes]
  rw [if_neg (by omega)]

/-- What the new chunk looks like after the copy and after the old chunk was freed. -/
theorem moved_chunk (inUse : InUse directory heap ptr arena)
    (served : Served directory heap ptr size mem after)
    (fits : (size.toNat : Int) ≤ payloadBytes directory heap ptr) :
    payloadBytes directory (free directory (memcpy after mem ptr size.toNat) ptr) mem =
        payloadBytes directory after mem ∧
      ∀ index : Int, 0 ≤ index → index < size.toNat →
        loadByte (free directory (memcpy after mem ptr size.toNat) ptr) (16 * mem + index) =
          loadByte heap (16 * ptr + index) := by
  obtain ⟨⟨other, newInUse⟩, room⟩ := served.granted
  have bounds := inUse.bounds
  have newBounds := newInUse.bounds
  have apart := served.apart
  have dummy := served.dummy
  rw [inUse.arena_of] at dummy
  rw [payload_bytes_stop] at fits room
  -- the copy stays within the payload of the new chunk
  have copied : ∀ unit, unit < mem ∨ chunkStop directory after mem ≤ unit →
      unitOf (memcpy after mem ptr size.toNat) unit = unitOf after unit :=
    fun unit outside => unit_memcpy mem ptr (by omega)
  obtain ⟨inUseAfter, startAfter, stopAfter⟩ := inUse.carried served.owner served.units
  obtain ⟨first, second⟩ := Prod.mk.inj (copied (ptr - 1) (by omega))
  obtain ⟨_, units⟩ := units_of_words directory second fun _ => first
  obtain ⟨inUseMoved, _, stopMoved⟩ := inUseAfter.carried second units
  -- and what is freed is not in the new chunk, except for a tag in its first header unit
  have freedSecond : ∀ unit, chunkStart directory after mem ≤ unit →
      unit < chunkStop directory after mem →
      (free directory (memcpy after mem ptr size.toNat) ptr).second unit =
        (memcpy after mem ptr size.toNat).second unit :=
    fun unit above below => free_second inUseMoved (by omega) (by omega)
  have freedFirst : ∀ unit, chunkStart directory after mem < unit →
      unit < chunkStop directory after mem →
      (free directory (memcpy after mem ptr size.toNat) ptr).first unit =
        (memcpy after mem ptr size.toNat).first unit :=
    fun unit above below => free_first inUseMoved (by rw [stopMoved, stopAfter]; omega)
  constructor
  · obtain ⟨newFirst, newSecond⟩ := Prod.mk.inj (copied (mem - 1) (by omega))
    obtain ⟨owner, units⟩ := units_of_words directory
      ((freedSecond (mem - 1) (by omega) (by omega)).trans newSecond) (by
        intro large
        rw [newInUse.arena_of] at large
        have start := newBounds.2.2.2 large
        exact (freedFirst (mem - 1) (by omega) (by omega)).trans newFirst)
    rw [payloadBytes, payloadBytes, owner, units]
  · intro index low high
    have arrived := load_copy load_store_byte after (16 * mem) (16 * ptr) size.toNat (by omega) low
      high
    have unchanged : unitOf (free directory (memcpy after mem ptr size.toNat) ptr)
        ((16 * mem + index) / 16) =
          unitOf (memcpy after mem ptr size.toNat) ((16 * mem + index) / 16) :=
      Prod.ext (freedFirst _ (by omega) (by omega)) (freedSecond _ (by omega) (by omega))
    rw [load_byte_of_unit unchanged, memcpy, arrived]
    exact load_byte_of_unit (served.payload _ (by omega) (by omega))

theorem realloc_iff (inUse : InUse directory heap ptr arena) (nonempty : 0 < size.toNat)
    (answers : malloc size heap = some (mem, after))
    (served : Served directory heap ptr size mem after) :
    (∃ answer, realloc directory malloc heap ptr size = some answer ∧
        Honours directory heap ptr size answer) ↔
      (size.toNat : Int) ≤ payloadBytes directory heap ptr := by
  have bounds := inUse.bounds
  have payload : payloadBytes directory heap ptr =
      (chunkStop directory heap ptr - ptr) * 16 := payload_bytes_stop
  by_cases inPlace : Arenas.IsSmallArena arena.num ∧
      size.toNat ≤ chunkUnits directory heap ptr
  · have fits : (size.toNat : Int) ≤ payloadBytes directory heap ptr := by
      have units := inPlace.2
      have header : headerUnits arena.num = 1 := if_pos inPlace.1
      have wide := inUse.wide
      rw [payloadBytes, inUse.arena_of, header, Arenas.unitSize]
      omega
    refine iff_of_true ⟨_, realloc_in_place inUse nonempty inPlace, fits, ?_, ?_⟩ fits
    · exact fun _ _ _ => rfl
    · dsimp only
      omega
  · have moves := realloc_moves inUse nonempty answers inPlace
    have more : payloadBytes directory heap ptr < chunkUnits directory heap ptr * 16 := by
      rw [payload, chunkStop]
      omega
    constructor
    · rintro ⟨answer, atAnswer, honours⟩
      rw [moves] at atAnswer
      cases atAnswer
      have read := honours.read
      dsimp only at read
      omega
    · intro fits
      have count : min (chunkUnits directory heap ptr * 16) (size.toNat : Int) = size.toNat := by
        omega
      rw [count] at moves
      obtain ⟨room, kept⟩ := moved_chunk inUse served fits
      refine ⟨_, moves, ?_, ?_, fits⟩
      · rw [Int.toNat_natCast]
        dsimp only
        rw [room]
        exact served.granted.room
      · intro index low high
        exact kept index low (by omega)

end Contracts

section Example

def arena1 : Arena := ⟨1, 64, 8, 512, 2⟩

def arena2 : Arena := ⟨2, 96, 12, 512, 4⟩

def directory2 : Directory :=
  ⟨fun pointer => if pointer = arena1.self then arena1 else arena2, ⟨8, 8192, 32, 0, 8193⟩, false⟩

/-- Arena 1 with the live chunk 100 and the free chunk 102, arena 2 with the free chunk 200. -/
def stocked : Heap where
  first := fun unit => if unit = 101 then 123456 else 0
  second := fun unit =>
    if unit = 100 ∨ unit = 102 then arena1.self
    else if unit = 200 then arena2.self
    else if unit = arena1.freelist + 1 then 102
    else if unit = arena2.freelist + 1 then 200
    else 0
  wilderness := fun num => if num = 1 then arena1.freelist else arena2.freelist
  written := []
  obtained := []
  retired := []

def smallMalloc (size : SizeByte) (heap : Heap) : Option (Int × Heap) :=
  match comparisonTree unitsOfFunction size with
  | (1, units) => mallocSmallChunk arena1 arena2 0 1 units.toInt heap
  | (_, units) => mallocSmallChunk arena2 arena1 0 1 units.toInt heap

theorem directory2_knows : directory2.Knows arena1 ∧ directory2.Knows arena2 :=
  ⟨⟨rfl, by decide, by decide, fun top => absurd top (by decide)⟩,
    ⟨rfl, by decide, by decide, fun top => absurd top (by decide)⟩⟩

/-- The free chunk of arena 1 has been handed out. -/
def popped : Heap := stocked.setSmallchunkNextfree arena1.freelist 0

theorem stocked_in_use : InUse directory2 stocked 101 arena1 :=
  ⟨directory2_knows.1, rfl, by decide, by decide, by decide⟩

theorem popped_granted {size : SizeByte} (most : size.toNat ≤ 16) :
    Granted directory2 size 103 popped := by
  refine ⟨⟨arena1, directory2_knows.1, rfl, by decide, by decide, by decide⟩, ?_⟩
  have payload : payloadBytes directory2 popped 103 = 16 := by decide
  omega

theorem popped_served {size : SizeByte} (most : size.toNat ≤ 16) :
    Served directory2 stocked 101 size 103 popped where
  granted := popped_granted most
  owner := rfl
  units := rfl
  payload := by
    intro unit above below
    have stop : chunkStop directory2 stocked 101 = 102 := by decide
    obtain rfl : unit = 101 := by omega
    rfl
  apart := Or.inl (by decide)
  dummy := Or.inl (by decide)

end Example

end Sac2c.Reallocation
