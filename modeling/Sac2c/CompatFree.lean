import Sac2c.SizeClasses
import Sac2c.SmallChunks
import Sac2c.LargeRequests

/-!
What an address handed out by the library malloc is worth: the arena its header names, the
units of its chunk and the bytes behind the header; and the library function free
(libsacphm/compat/malloc.c), which goes by the same header. Addresses are those of units.
-/

namespace Sac2c.CompatFree

open Headers LargeChunks SmallChunks SizeClasses BoundaryTags Blocks LargeRequests

section Model

/-- What is found behind an arena pointer, and `SAC_HM_arenas[0][SAC_HM_TOP_ARENA]`;
`multiThreaded` is SAC_MT_MODE > 0. -/
structure Directory where
  arenaAt : Int → Arena
  top : Arena
  multiThreaded : Bool

variable (directory : Directory) (heap : Heap)

def arenaOf (addr : Int) : Arena := directory.arenaAt (heap.addrArena addr)

/-- The units of the chunk, those of the header included. In a small arena all chunks have
the size in the arena's `min_chunk_size`, in a large one each has its SIZE word. -/
def chunkUnits (addr : Int) : Int :=
  let arena := arenaOf directory heap addr
  if Arenas.IsSmallArena arena.num then arena.minChunkSize
  else heap.largechunkSize (addr - 2)

def payloadBytes (addr : Int) : Int :=
  (chunkUnits directory heap addr - headerUnits (arenaOf directory heap addr).num) *
    Arenas.unitSize

/-- An arena pointer with its lowest bit set is the address of the chunk to free instead. -/
def free (addr : Int) : Heap :=
  let arena := heap.addrArena addr
  if addr = 0 ∨ arena = 0 then heap
  else
    let addr := if arena % 2 = 1 then (arena - 1) / Arenas.unitSize else addr
    let arena := arenaOf directory heap addr
    if Arenas.IsSmallArena arena.num then freeSmallChunk arena heap addr
    else if arena.num < Arenas.topArena ∨ directory.multiThreaded = false then
      freeLargeChunk directory.arenaAt arena heap addr
    else doFreeLargeChunk directory.top heap (addr - 2)

end Model

section Chunks

variable {directory : Directory} {heap : Heap} {arena : Arena} {addr : Int}

/-- The directory has the arena under its address. -/
structure Directory.Knows (directory : Directory) (arena : Arena) : Prop where
  found : directory.arenaAt arena.self = arena
  nonnull : arena.self ≠ 0
  aligned : arena.self % 2 = 0
  top : Arenas.topArena ≤ arena.num → directory.top = arena

theorem arena_of_named (knows : directory.Knows arena) (named : heap.addrArena addr = arena.self) :
    arenaOf directory heap addr = arena := by
  rw [arenaOf, named, knows.found]

theorem large_payload (knows : directory.Knows arena) (large : ¬ Arenas.IsSmallArena arena.num)
    (named : heap.addrArena addr = arena.self) :
    payloadBytes directory heap addr = (heap.largechunkSize (addr - 2) - 2) * 16 := by
  simp only [payloadBytes, chunkUnits, headerUnits, arena_of_named knows named, if_neg large]
  rfl

/-- A chunk of a large arena goes to the free list of that arena, in every mode. -/
theorem free_large (knows : directory.Knows arena) (large : ¬ Arenas.IsSmallArena arena.num) (nonnull : addr ≠ 0)
    (named : heap.addrArena addr = arena.self) :
    free directory heap addr = doFreeLargeChunk arena heap (addr - 2) := by
  have even : ¬ arena.self % 2 = 1 := by
    rw [knows.aligned]
    decide
  have known : ¬ (addr = 0 ∨ arena.self = 0) := not_or.mpr ⟨nonnull, knows.nonnull⟩
  simp only [free, named, if_neg known, if_neg even, arena_of_named knows named]
  rw [if_neg large]
  by_cases lower : arena.num < Arenas.topArena ∨ directory.multiThreaded = false
  · rw [if_pos lower, freeLargeChunk, named]
    simp only [if_neg even]
  · rw [if_neg lower, knows.top (by omega)]

theorem free_small (knows : directory.Knows arena) (small : Arenas.IsSmallArena arena.num) (nonnull : addr ≠ 0)
    (named : heap.addrArena addr = arena.self) :
    free directory heap addr = doFreeSmallChunk arena heap (addr - 1) := by
  have even : ¬ arena.self % 2 = 1 := by
    rw [knows.aligned]
    decide
  have known : ¬ (addr = 0 ∨ arena.self = 0) := not_or.mpr ⟨nonnull, knows.nonnull⟩
  simp only [free, named, if_neg known, if_neg even, arena_of_named knows named]
  rw [if_pos small, freeSmallChunk]

end Chunks

section Answers

variable {directory : Directory} {heap : Heap} {mem : Int}

/-- The address is that of a live chunk in a large arena whose words are in order. -/
structure InLargeArena (directory : Directory) (arena : Arena) (heap : Heap)
    (layout : Layout Status) (chain : List Int) (mem size : Int) : Prop where
  knows : directory.Knows arena
  large : ¬ Arenas.IsSmallArena arena.num
  sound : Sound arena heap layout chain
  live : layout.block (mem - 2) = some ⟨size, .live⟩

theorem InLargeArena.words {arena : Arena} {layout : Layout Status} {chain : List Int} {size : Int}
    (holds : InLargeArena directory arena heap layout chain mem size) :
    3 ≤ size ∧ 2 < mem ∧ heap.largechunkSize (mem - 2) = size ∧
      heap.largechunkArena (mem - 2) = arena.self := by
  have sized := holds.sound.tagged.sized _ _ holds.live (Or.inl status_live_closed)
  have placed := holds.sound.tagged.placed _ _ holds.live
  exact ⟨sized.1, by omega, sized.2,
    holds.sound.tagged.owned _ _ holds.live status_live_closed⟩

theorem addr_arena_behind (heap : Heap) (mem : Int) :
    heap.addrArena mem = heap.largechunkArena (mem - 2) := by
  rw [Heap.addrArena, Heap.largechunkArena, show mem - 2 + 1 = mem - 1 by omega]

theorem InLargeArena.named {arena : Arena} {layout : Layout Status} {chain : List Int} {size : Int}
    (holds : InLargeArena directory arena heap layout chain mem size) :
    heap.addrArena mem = arena.self := by
  rw [addr_arena_behind, holds.words.2.2.2]

/-- What malloc answers to a request: enough room, and a chunk of a large arena if the
request is above the classes of the small ones. -/
structure Obtained (directory : Directory) (request : SizeByte) (mem : Int) (heap : Heap) :
    Prop where
  room : (request.toNat : Int) ≤ payloadBytes directory heap mem
  large : Arenas.arenaMaxcsBytes 4 < request.toNat → ∃ arena layout chain size,
    InLargeArena directory arena heap layout chain mem size

/-- What the allocator of a large arena hands out is such an answer, if it was asked for the
units of the request. -/
theorem delivers_obtained {kept : Heap → Layout Status → Prop} {arena : Arena}
    {layout : Layout Status} {request : SizeByte} {units : SizeUnit} {result : Int × Heap}
    (knows : directory.Knows arena) (large : ¬ Arenas.IsSmallArena arena.num)
    (chosen : comparisonTree unitsOfFunction request = (arena.num, units))
    (delivers : Delivers kept arena units.toInt layout result) :
    Obtained directory request result.1 result.2 := by
  obtain ⟨renewed, chain, sound, _, serves⟩ := delivers
  obtain ⟨block, atHeader, isLive, fits⟩ := serves.served
  obtain ⟨size, state⟩ := block
  cases isLive
  have holds : InLargeArena directory arena result.2 renewed chain result.1 size :=
    ⟨knows, large, sound, atHeader⟩
  refine ⟨?_, fun _ => ⟨arena, renewed, chain, size, holds⟩⟩
  have room := (tree_in_class request).room
  simp only [chosen, headerUnits, if_neg large, Arenas.unitSize] at room
  rw [large_payload knows large holds.named, holds.words.2.2.1]
  dsimp only at fits
  omega

end Answers

end Sac2c.CompatFree
