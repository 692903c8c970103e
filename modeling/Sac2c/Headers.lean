import Mathlib.Order.Basic
import Mathlib.Data.Int.Order.Basic
import Mathlib.Algebra.Group.Basic
import Mathlib.Tactic.Common

/-!
The memory the private heap manager administrates (runtime/phm_h/phm.h). It is
addressed in units; a unit is one `SAC_HM_header_t`, a union over two words:
`first` holds `data1.size` or `data3.prevsize`, `second` holds `data1.arena` or
`data2.nextfree`. A chunk pointer is the address of its first header unit. What
a word holds depends only on who wrote it last, so the header macros may alias
one another and the payload.
-/

namespace Sac2c.Headers

/-- The words of memory, `arena->wilderness` of each arena, and three records
the program does not keep: the units written to by the heap manager, the
memory obtained from outside (address and units), and the wilderness chunks
`SAC_HM_ExtendTopArenaWilderness` put on the free list. -/
structure Heap where
  first : Int → Int
  second : Int → Int
  wilderness : Nat → Int
  written : List Int
  obtained : List (Int × Int)
  retired : List Int

/-- The constant part of `SAC_HM_arena_t`: `self` is the address of the
structure and `freelist` that of the three dummy units in it. -/
structure Arena where
  num : Nat
  self : Int
  freelist : Int
  binsize : Int
  minChunkSize : Int

namespace Heap

variable (heap : Heap)

def setFirst (unit value : Int) : Heap :=
  { heap with
    first := fun other => if other = unit then value else heap.first other
    written := unit :: heap.written }

def setSecond (unit value : Int) : Heap :=
  { heap with
    second := fun other => if other = unit then value else heap.second other
    written := unit :: heap.written }

def setWilderness (num : Nat) (header : Int) : Heap :=
  { heap with wilderness := fun other => if other = num then header else heap.wilderness other }

def obtain (start units : Int) : Heap := { heap with obtained := (start, units) :: heap.obtained }

def retire (header : Int) : Heap := { heap with retired := header :: heap.retired }

-- SAC_HM_LARGECHUNK_SIZE and its siblings, to read and to assign to.

def largechunkSize (header : Int) : Int := heap.first (header + 1)

def largechunkPrevsize (header : Int) : Int := heap.first header

def largechunkArena (header : Int) : Int := heap.second (header + 1)

def largechunkNextfree (header : Int) : Int := heap.second (header + 2)

def setLargechunkSize (header size : Int) : Heap := heap.setFirst (header + 1) size

def setLargechunkPrevsize (header size : Int) : Heap := heap.setFirst header size

def setLargechunkArena (header arena : Int) : Heap := heap.setSecond (header + 1) arena

def setLargechunkNextfree (header link : Int) : Heap := heap.setSecond (header + 2) link

/-- SAC_HM_ADDR_ARENA, relative to the address handed to the program. -/
def addrArena (addr : Int) : Int := heap.second (addr - 1)

-- SAC_HM_SMALLCHUNK_SIZE and its siblings.

def smallchunkSize (header : Int) : Int := heap.first header

def smallchunkArena (header : Int) : Int := heap.second header

def smallchunkNextfree (header : Int) : Int := heap.second (header + 1)

def setSmallchunkSize (header size : Int) : Heap := heap.setFirst header size

def setSmallchunkArena (header arena : Int) : Heap := heap.setSecond header arena

def setSmallchunkNextfree (header link : Int) : Heap := heap.setSecond (header + 1) link

section LargeFields

variable {heap : Heap} (other header value : Int)

@[simp] theorem size_set_size : (heap.setLargechunkSize header value).largechunkSize other =
    if other = header then value else heap.largechunkSize other := by
  simp [setLargechunkSize, largechunkSize, setFirst]

@[simp] theorem size_set_prevsize :
    (heap.setLargechunkPrevsize header value).largechunkSize other =
      if other + 1 = header then value else heap.largechunkSize other := rfl

@[simp] theorem size_set_arena :
    (heap.setLargechunkArena header value).largechunkSize other = heap.largechunkSize other := rfl

@[simp] theorem size_set_nextfree :
    (heap.setLargechunkNextfree header value).largechunkSize other =
      heap.largechunkSize other := rfl

@[simp] theorem prevsize_set_size :
    (heap.setLargechunkSize header value).largechunkPrevsize other =
      if other = header + 1 then value else heap.largechunkPrevsize other := rfl

@[simp] theorem prevsize_set_prevsize :
    (heap.setLargechunkPrevsize header value).largechunkPrevsize other =
      if other = header then value else heap.largechunkPrevsize other := rfl

@[simp] theorem prevsize_set_arena :
    (heap.setLargechunkArena header value).largechunkPrevsize other =
      heap.largechunkPrevsize other := rfl

@[simp] theorem prevsize_set_nextfree :
    (heap.setLargechunkNextfree header value).largechunkPrevsize other =
      heap.largechunkPrevsize other := rfl

@[simp] theorem arena_set_size :
    (heap.setLargechunkSize header value).largechunkArena other = heap.largechunkArena other := rfl

@[simp] theorem arena_set_prevsize :
    (heap.setLargechunkPrevsize header value).largechunkArena other =
      heap.largechunkArena other := rfl

@[simp] theorem arena_set_arena : (heap.setLargechunkArena header value).largechunkArena other =
    if other = header then value else heap.largechunkArena other := by
  simp [setLargechunkArena, largechunkArena, setSecond]

@[simp] theorem arena_set_nextfree :
    (heap.setLargechunkNextfree header value).largechunkArena other =
      if other + 1 = header + 2 then value else heap.largechunkArena other := rfl

@[simp] theorem nextfree_set_size :
    (heap.setLargechunkSize header value).largechunkNextfree other =
      heap.largechunkNextfree other := rfl

@[simp] theorem nextfree_set_prevsize :
    (heap.setLargechunkPrevsize header value).largechunkNextfree other =
      heap.largechunkNextfree other := rfl

@[simp] theorem nextfree_set_arena :
    (heap.setLargechunkArena header value).largechunkNextfree other =
      if other + 2 = header + 1 then value else heap.largechunkNextfree other := rfl

@[simp] theorem nextfree_set_nextfree :
    (heap.setLargechunkNextfree header value).largechunkNextfree other =
      if other = header then value else heap.largechunkNextfree other := by
  simp [setLargechunkNextfree, largechunkNextfree, setSecond]

end LargeFields

section SmallFields

variable {heap : Heap} (other header value : Int)

@[simp] theorem small_size_set_size :
    (heap.setSmallchunkSize header value).smallchunkSize other =
      if other = header then value else heap.smallchunkSize other := rfl

@[simp] theorem small_size_set_arena :
    (heap.setSmallchunkArena header value).smallchunkSize other =
      heap.smallchunkSize other := rfl

@[simp] theorem small_size_set_nextfree :
    (heap.setSmallchunkNextfree header value).smallchunkSize other =
      heap.smallchunkSize other := rfl

@[simp] theorem small_arena_set_size :
    (heap.setSmallchunkSize header value).smallchunkArena other =
      heap.smallchunkArena other := rfl

@[simp] theorem small_arena_set_arena :
    (heap.setSmallchunkArena header value).smallchunkArena other =
      if other = header then value else heap.smallchunkArena other := rfl

@[simp] theorem small_nextfree_set_size :
    (heap.setSmallchunkSize header value).smallchunkNextfree other =
      heap.smallchunkNextfree other := rfl

@[simp] theorem small_nextfree_set_arena :
    (heap.setSmallchunkArena header value).smallchunkNextfree other =
      if other + 1 = header then value else heap.smallchunkNextfree other := rfl

@[simp] theorem small_nextfree_set_nextfree :
    (heap.setSmallchunkNextfree header value).smallchunkNextfree other =
      if other = header then value else heap.smallchunkNextfree other := by
  simp [setSmallchunkNextfree, smallchunkNextfree, setSecond]

end SmallFields

section Words

variable {heap : Heap} (unit header value : Int)

@[simp] theorem first_set_size : (heap.setLargechunkSize header value).first unit =
    if unit = header + 1 then value else heap.first unit := rfl

@[simp] theorem first_set_prevsize : (heap.setLargechunkPrevsize header value).first unit =
    if unit = header then value else heap.first unit := rfl

@[simp] theorem first_set_arena :
    (heap.setLargechunkArena header value).first unit = heap.first unit := rfl

@[simp] theorem first_set_nextfree :
    (heap.setLargechunkNextfree header value).first unit = heap.first unit := rfl

@[simp] theorem second_set_size :
    (heap.setLargechunkSize header value).second unit = heap.second unit := rfl

@[simp] theorem second_set_prevsize :
    (heap.setLargechunkPrevsize header value).second unit = heap.second unit := rfl

@[simp] theorem second_set_arena : (heap.setLargechunkArena header value).second unit =
    if unit = header + 1 then value else heap.second unit := rfl

@[simp] theorem second_set_nextfree : (heap.setLargechunkNextfree header value).second unit =
    if unit = header + 2 then value else heap.second unit := rfl

@[simp] theorem first_set_small_size : (heap.setSmallchunkSize header value).first unit =
    if unit = header then value else heap.first unit := rfl

@[simp] theorem second_set_small_nextfree :
    (heap.setSmallchunkNextfree header value).second unit =
      if unit = header + 1 then value else heap.second unit := rfl

end Words

section Elsewhere

variable {heap : Heap} (other header units : Int) (num : Nat)

@[simp] theorem size_set_wilderness :
    (heap.setWilderness num header).largechunkSize other = heap.largechunkSize other := rfl

@[simp] theorem prevsize_set_wilderness :
    (heap.setWilderness num header).largechunkPrevsize other =
      heap.largechunkPrevsize other := rfl

@[simp] theorem arena_set_wilderness :
    (heap.setWilderness num header).largechunkArena other = heap.largechunkArena other := rfl

@[simp] theorem nextfree_set_wilderness :
    (heap.setWilderness num header).largechunkNextfree other =
      heap.largechunkNextfree other := rfl

@[simp] theorem size_obtain :
    (heap.obtain header units).largechunkSize other = heap.largechunkSize other := rfl

@[simp] theorem nextfree_obtain :
    (heap.obtain header units).largechunkNextfree other = heap.largechunkNextfree other := rfl

end Elsewhere

section Records

variable {heap : Heap} (header value : Int) (num : Nat)

@[simp] theorem written_set_wilderness :
    (heap.setWilderness num header).written = heap.written := rfl

@[simp] theorem written_obtain : (heap.obtain header value).written = heap.written := rfl

@[simp] theorem written_set_size : (heap.setLargechunkSize header value).written =
    (header + 1) :: heap.written := rfl

@[simp] theorem written_set_prevsize : (heap.setLargechunkPrevsize header value).written =
    header :: heap.written := rfl

@[simp] theorem written_set_arena : (heap.setLargechunkArena header value).written =
    (header + 1) :: heap.written := rfl

@[simp] theorem written_set_nextfree : (heap.setLargechunkNextfree header value).written =
    (header + 2) :: heap.written := rfl

end Records

end Heap

end Sac2c.Headers
