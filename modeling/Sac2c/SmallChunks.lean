import Sac2c.Headers

/-!
The allocation and de-allocation routines for arenas of small chunks
(libsacphm/heap/small_chunks.c) and the arena of arenas that hands out their
bins (libsacphm/heap/internal.c), in the build without SAC_DO_HM_XTHR_FREE. All
chunks of a small arena have the same size; only the wilderness and the chunks
of the arena of arenas have a SIZE word.
-/

namespace Sac2c.SmallChunks

open Headers

/-- Where the loop over the free list of the arena of arenas stops. -/
inductive Search where
  | split (freep : Int)
  | remove (lastp freep : Int)
  | exhausted (lastp : Int)

def searchFreeList (arena : Arena) (units : Int) (heap : Heap) : Nat → Int → Int → Option Search
  | 0, _, _ => none
  | fuel + 1, lastp, freep =>
      if freep = 0 then some (.exhausted lastp)
      else if heap.smallchunkSize freep ≥ units + arena.minChunkSize then some (.split freep)
      else if heap.smallchunkSize freep ≥ units then some (.remove lastp freep)
      else searchFreeList arena units heap fuel freep (heap.smallchunkNextfree freep)

/-- The request is cut from the top of the chunk. -/
def splitBin (units : Int) (heap : Heap) (freep : Int) : Int × Heap :=
  let heap := heap.setSmallchunkSize freep (heap.smallchunkSize freep - units)
  (freep + heap.smallchunkSize freep, heap)

/-- The new bin of the arena of arenas goes to the end of the free list. -/
def extendFreeList (arena : Arena) (units : Int) (heap : Heap) (lastp freep : Int) : Int × Heap :=
  let heap := heap.obtain freep arena.binsize
  let heap := heap.setSmallchunkSize freep (arena.binsize - units)
  let heap := heap.setSmallchunkNextfree freep 0
  let heap := heap.setSmallchunkNextfree lastp freep
  (freep + heap.smallchunkSize freep, heap)

/-- `block` is what `SAC_HM_MallocLargeChunk` answers for the top arena. -/
def allocateNewBinInArenaOfArenas (arena : Arena) (block : Int) (fuel : Nat) (units : Int)
    (heap : Heap) : Option (Int × Heap) :=
  match searchFreeList arena units heap fuel arena.freelist
      (heap.smallchunkNextfree arena.freelist) with
  | none => none
  | some (.split freep) => some (splitBin units heap freep)
  | some (.remove lastp freep) =>
      some (freep, heap.setSmallchunkNextfree lastp (heap.smallchunkNextfree freep))
  | some (.exhausted lastp) => some (extendFreeList arena units heap lastp block)

def splitWilderness (arena : Arena) (units : Int) (heap : Heap) (wilderness : Int) : Int × Heap :=
  let heap := heap.setSmallchunkSize wilderness (heap.smallchunkSize wilderness - units)
  let freep := wilderness + heap.smallchunkSize wilderness
  (freep + 1, heap.setSmallchunkArena freep arena.self)

def takeWilderness (arena : Arena) (heap : Heap) (wilderness : Int) : Int × Heap :=
  let heap := heap.setSmallchunkArena wilderness arena.self
  (wilderness + 1, heap.setWilderness arena.num arena.freelist)

/-- The new bin becomes the wilderness, less the chunk cut from its top. -/
def newWilderness (arena : Arena) (units : Int) (heap : Heap) (wilderness : Int) : Int × Heap :=
  let heap := heap.setSmallchunkSize wilderness (arena.binsize - units)
  let heap := heap.setWilderness arena.num wilderness
  let freep := wilderness + heap.smallchunkSize wilderness
  (freep + 1, heap.setSmallchunkArena freep arena.self)

/-- `none` also stands for the assertion on `units` that fails. -/
def mallocSmallChunk (arena arenaOfArenas : Arena) (block : Int) (fuel : Nat) (units : Int)
    (heap : Heap) : Option (Int × Heap) :=
  if units < arena.minChunkSize then none
  else
    let freep := heap.smallchunkNextfree arena.freelist
    if freep ≠ 0 then
      some (freep + 1, heap.setSmallchunkNextfree arena.freelist (heap.smallchunkNextfree freep))
    else
      let wilderness := heap.wilderness arena.num
      if heap.smallchunkSize wilderness > units then
        some (splitWilderness arena units heap wilderness)
      else if heap.smallchunkSize wilderness = units then
        some (takeWilderness arena heap wilderness)
      else
        match allocateNewBinInArenaOfArenas arenaOfArenas block fuel arena.binsize heap with
        | none => none
        | some (wilderness, heap) => some (newWilderness arena units heap wilderness)

def doFreeSmallChunk (arena : Arena) (heap : Heap) (freep : Int) : Heap :=
  let heap := heap.setSmallchunkNextfree freep (heap.smallchunkNextfree arena.freelist)
  heap.setSmallchunkNextfree arena.freelist freep

def freeSmallChunk (arena : Arena) (heap : Heap) (addr : Int) : Heap :=
  doFreeSmallChunk arena heap (addr - 1)

end Sac2c.SmallChunks
