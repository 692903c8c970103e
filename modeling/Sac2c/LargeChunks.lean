import Mathlib.Algebra.Group.Int.Defs
import Sac2c.Headers
import Sac2c.Arenas

/-!
The allocation and de-allocation routines for arenas of large chunks
(libsacphm/heap/large_chunks.c) and the extension of the top arena's wilderness
(libsacphm/heap/internal.c), in the build without SAC_DO_HM_XTHR_FREE. The null
pointer is 0. The loops over the free list take fuel, since links in a damaged
heap may lead anywhere; the labels of `SAC_HM_MallocLargeChunk` that a `goto`
reaches are functions of their own.
-/

namespace Sac2c.LargeChunks

open Headers

/-- What code outside these functions answers: the bin from
`SAC_HM_AllocateNewBinInArenaOfArenas` and the two results of `SBRK`, as unit
addresses. -/
structure Supply where
  bin : Int
  mem : Int
  mem2 : Int

/-- Where the first loop over the free list stops: at a chunk that fits more or
less exactly, or behind the last chunk with `bestp` the one to split. -/
inductive Search where
  | exactFit (lastp freep : Int)
  | exhausted (bestp : Int)

def searchFreeList (arena : Arena) (units : Int) (heap : Heap) :
    Nat → Int → Int → Int → Option Search
  | 0, _, _, _ => none
  | fuel + 1, lastp, freep, bestp =>
      if freep = 0 then some (.exhausted bestp)
      else if heap.largechunkSize freep < units then
        searchFreeList arena units heap fuel freep (heap.largechunkNextfree freep) bestp
      else if heap.largechunkSize freep ≥ units + arena.minChunkSize then
        searchFreeList arena units heap fuel freep (heap.largechunkNextfree freep) freep
      else some (.exactFit lastp freep)

def exactFit (heap : Heap) (lastp freep : Int) : Int × Heap :=
  let heap := heap.setLargechunkNextfree lastp (heap.largechunkNextfree freep)
  let heap := heap.setLargechunkPrevsize (freep + heap.largechunkSize freep) (-1)
  (freep + 2, heap)

def split (arena : Arena) (units : Int) (heap : Heap) (bestp : Int) : Int × Heap :=
  let heap := heap.setLargechunkSize bestp (heap.largechunkSize bestp - units)
  let freep := bestp + heap.largechunkSize bestp
  let heap := heap.setLargechunkSize freep units
  let heap := heap.setLargechunkArena freep arena.self
  let heap := heap.setLargechunkPrevsize freep (heap.largechunkSize bestp)
  let heap := heap.setLargechunkPrevsize (freep + units) (-1)
  (freep + 2, heap)

def splitWilderness (arena : Arena) (units : Int) (heap : Heap) (wilderness : Int) : Int × Heap :=
  let newWilderness := wilderness + units
  let heap := heap.setLargechunkSize newWilderness (heap.largechunkSize wilderness - units)
  let heap := heap.setLargechunkPrevsize newWilderness (-1)
  let heap := heap.setWilderness arena.num newWilderness
  let heap := heap.setLargechunkSize wilderness units
  let heap := heap.setLargechunkArena wilderness arena.self
  (wilderness + 2, heap)

def coalescePrevious (heap : Heap) (lastp freep : Int) : Heap :=
  let prevp := freep - heap.largechunkPrevsize freep
  let heap :=
    heap.setLargechunkSize prevp (heap.largechunkSize prevp + heap.largechunkSize freep)
  let heap :=
    heap.setLargechunkPrevsize (freep + heap.largechunkSize freep) (heap.largechunkSize prevp)
  heap.setLargechunkNextfree lastp (heap.largechunkNextfree freep)

inductive Coalescing where
  | split (heap : Heap) (bestp : Int)
  | exactFit (heap : Heap) (freep : Int)
  | exhausted (heap : Heap)

def coalesceFreeList (arena : Arena) (units : Int) : Nat → Heap → Int → Int → Option Coalescing
  | 0, _, _, _ => none
  | fuel + 1, heap, lastp, freep =>
      if freep = 0 then some (.exhausted heap)
      else if heap.largechunkPrevsize freep > 0 then
        let prevp := freep - heap.largechunkPrevsize freep
        let heap := coalescePrevious heap lastp freep
        if heap.largechunkSize prevp ≥ units then
          -- the source compares the size of `freep` here, not that of `prevp`
          if heap.largechunkSize freep ≥ units + arena.minChunkSize then some (.split heap prevp)
          else some (.exactFit heap prevp)
        else coalesceFreeList arena units fuel heap lastp (heap.largechunkNextfree freep)
      else coalesceFreeList arena units fuel heap freep (heap.largechunkNextfree freep)

/-- The walks from the head of the free list to the entry before `freep`. -/
def findPredecessor (heap : Heap) (freep : Int) : Nat → Int → Option Int
  | 0, _ => none
  | fuel + 1, lastp =>
      if heap.largechunkNextfree lastp ≠ freep then
        findPredecessor heap freep fuel (heap.largechunkNextfree lastp)
      else some lastp

def coalesceWilderness (arena : Arena) (fuel : Nat) (heap : Heap) (wilderness : Int) :
    Option (Int × Heap) :=
  let newWilderness := wilderness - heap.largechunkPrevsize wilderness
  let heap := heap.setLargechunkSize newWilderness
    (heap.largechunkSize newWilderness + heap.largechunkSize wilderness)
  match findPredecessor heap newWilderness fuel arena.freelist with
  | none => none
  | some lastp =>
      let heap := heap.setLargechunkNextfree lastp (heap.largechunkNextfree newWilderness)
      some (newWilderness, heap.setWilderness arena.num newWilderness)

/-- SBRK_CHUNK, in bytes. -/
def sbrkChunk : Int := 1048576

/-- SAC_HM_size_byte_t has 64 bits and no sign. -/
def sizeByte (size : Int) : Int := size % 2 ^ 64

/-- `(size + SBRK_CHUNK) & ~(SBRK_CHUNK - 1)`. -/
def roundUp (size : Int) : Int := sizeByte (size + sbrkChunk) / sbrkChunk * sbrkChunk

/-- The bytes asked for first. -/
def newMem (units wildernessSize : Int) : Int :=
  roundUp (sizeByte ((units - wildernessSize + 3) * Arenas.unitSize))

/-- The bytes asked for when the first answer is not contiguous and too small. -/
def moreMem (units newMem : Int) : Int :=
  roundUp (sizeByte (sizeByte (units * Arenas.unitSize) - newMem))

/-- `none` stands for SAC_RuntimeError: the program ends. -/
def extendTopArenaWilderness (arena : Arena) (supply : Supply) (units : Int) (heap : Heap) :
    Option (Int × Heap) :=
  let wilderness := heap.wilderness arena.num
  let newMem := newMem units (heap.largechunkSize wilderness)
  let heap := heap.obtain supply.mem (newMem / Arenas.unitSize)
  if supply.mem = wilderness + heap.largechunkSize wilderness then
    some (wilderness, heap.setLargechunkSize wilderness
      (heap.largechunkSize wilderness + newMem / Arenas.unitSize))
  else
    -- the old wilderness becomes a regular free chunk
    let heap := heap.setLargechunkNextfree wilderness (heap.largechunkNextfree arena.freelist)
    let heap := (heap.setLargechunkNextfree arena.freelist wilderness).retire wilderness
    if newMem ≥ sizeByte (units * Arenas.unitSize) then
      let heap := heap.setWilderness arena.num supply.mem
      let heap := heap.setLargechunkSize supply.mem (newMem / Arenas.unitSize)
      some (supply.mem, heap.setLargechunkPrevsize supply.mem (-1))
    else
      let moreMem := moreMem units newMem
      let heap := heap.obtain supply.mem2 (moreMem / Arenas.unitSize)
      if supply.mem + newMem / Arenas.unitSize ≠ supply.mem2 then none
      else
        let heap := heap.setWilderness arena.num supply.mem
        let heap := heap.setLargechunkSize supply.mem ((newMem + moreMem) / Arenas.unitSize)
        some (supply.mem, heap.setLargechunkPrevsize supply.mem (-1))

/-- A new bin, initialised as one large chunk on top of the free list. -/
def newBin (arena : Arena) (supply : Supply) (heap : Heap) : Heap :=
  let bestp := supply.bin
  let heap := heap.obtain bestp arena.binsize
  let heap := heap.setLargechunkSize bestp (arena.binsize - 1)
  let heap := heap.setLargechunkPrevsize bestp (-1)
  let heap := heap.setLargechunkArena bestp arena.self
  let heap := heap.setLargechunkNextfree bestp (heap.largechunkNextfree arena.freelist)
  heap.setLargechunkNextfree arena.freelist bestp

/-- Neither the free list nor the wilderness has enough space. -/
def extendArena (arena : Arena) (supply : Supply) (units : Int) (heap : Heap) :
    Option (Int × Heap) :=
  if arena.num = Arenas.topArena then
    match extendTopArenaWilderness arena supply units heap with
    | none => none
    | some (wilderness, heap) => some (splitWilderness arena units heap wilderness)
  else some (split arena units (newBin arena supply heap) supply.bin)

/-- Coalescing has not made room in the free list. -/
def afterCoalescing (arena : Arena) (supply : Supply) (fuel : Nat) (units : Int) (heap : Heap) :
    Option (Int × Heap) :=
  let wilderness := heap.wilderness arena.num
  if heap.largechunkPrevsize wilderness > 0 then
    match coalesceWilderness arena fuel heap wilderness with
    | none => none
    | some (wilderness, heap) =>
        if heap.largechunkSize wilderness ≥ units + 3 then
          some (splitWilderness arena units heap wilderness)
        else extendArena arena supply units heap
  else extendArena arena supply units heap

/-- The free list holds no chunk of sufficient size. -/
def afterSearch (arena : Arena) (supply : Supply) (fuel : Nat) (units : Int) (heap : Heap) :
    Option (Int × Heap) :=
  let wilderness := heap.wilderness arena.num
  if heap.largechunkSize wilderness ≥ units + 3 then
    some (splitWilderness arena units heap wilderness)
  else
    match coalesceFreeList arena units fuel heap arena.freelist
        (heap.largechunkNextfree arena.freelist) with
    | none => none
    | some (.split heap bestp) => some (split arena units heap bestp)
    | some (.exactFit heap freep) =>
        match findPredecessor heap freep fuel arena.freelist with
        | none => none
        | some lastp => some (exactFit heap lastp freep)
    | some (.exhausted heap) => afterCoalescing arena supply fuel units heap

def mallocLargeChunk (arena : Arena) (supply : Supply) (fuel : Nat) (units : Int) (heap : Heap) :
    Option (Int × Heap) :=
  match searchFreeList arena units heap fuel arena.freelist
      (heap.largechunkNextfree arena.freelist) 0 with
  | none => none
  | some (.exactFit lastp freep) => some (exactFit heap lastp freep)
  | some (.exhausted bestp) =>
      if bestp ≠ 0 then some (split arena units heap bestp)
      else afterSearch arena supply fuel units heap

def doFreeLargeChunk (arena : Arena) (heap : Heap) (freep : Int) : Heap :=
  let heap := heap.setLargechunkPrevsize (freep + heap.largechunkSize freep)
    (heap.largechunkSize freep)
  let heap := heap.setLargechunkNextfree freep (heap.largechunkNextfree arena.freelist)
  heap.setLargechunkNextfree arena.freelist freep

/-- An arena pointer with its lowest bit set marks a placed array: the rest of
it is the address of the chunk to free, whose header names the arena. `arenaAt`
gives the structure behind an arena pointer. -/
def freeLargeChunk (arenaAt : Int → Arena) (arena : Arena) (heap : Heap) (addr : Int) : Heap :=
  let arenaPtr := heap.addrArena addr
  if arenaPtr % 2 = 1 then
    let addr := (arenaPtr - 1) / Arenas.unitSize
    doFreeLargeChunk (arenaAt (heap.addrArena addr)) heap (addr - 2)
  else doFreeLargeChunk arena heap (addr - 2)

end Sac2c.LargeChunks
