import Sac2c.LruSets
import Mathlib.Algebra.Group.Nat.Defs
import Mathlib.Data.Nat.Bitwise
import Mathlib.Logic.Function.Basic

/-!
The cache simulation of libsac/cachesim: every access looks into level 1 and goes on to the next
level at a miss. A set is an array of words, addresses with the invalid bit in front, and it is
its own queue of last uses.
-/

namespace Sac2c.CacheLevels

open LruSets

section Model

/-- tWritePolicy. -/
inductive WritePolicy where
  | default
  | fetchOnWrite
  | writeValidate
  | writeAround
  deriving DecidableEq

/-- tCacheLevel; lines have `2 ^ clsBits` bytes and there are `2 ^ setBits` of them in every way. -/
structure CacheLevel where
  associativity : Nat
  clsBits : Nat
  setBits : Nat
  writepolicy : WritePolicy
  positive : 0 < associativity

namespace CacheLevel

variable (actCl : CacheLevel)

def cachelinesize : Nat := 2 ^ actCl.clsBits

def nrCachelines : Nat := 2 ^ actCl.setBits

/-- `address & cls_mask`. -/
def getAlignedaddr (address : Nat) : Nat := address / actCl.cachelinesize * actCl.cachelinesize

/-- `(address & is_mask) >> cls_bits`. -/
def getCacheline (address : Nat) : Nat :=
  address % (actCl.cachelinesize * actCl.nrCachelines) / actCl.cachelinesize

end CacheLevel

/-- CACHE_CONTENTS: the word without its lowest bit. -/
def cacheContents (word : Nat) : Nat := word / 2 * 2

/-- CACHE_INVALID: the lowest bit. -/
def cacheInvalid (word : Nat) : Nat := word % 2

/-- SAC_CS_level, the data of the levels and the counters. -/
structure State where
  level : Nat
  data : Nat → Nat → Nat
  rhit : Nat → Nat
  rmiss : Nat → Nat
  rinvalid : Nat → Nat
  whit : Nat → Nat
  wmiss : Nat → Nat
  winvalid : Nat → Nat

/-- Memory from calloc and level 1. -/
def State.initial : State :=
  { level := 1
    data := fun _ _ => 0
    rhit := fun _ => 0
    rmiss := fun _ => 0
    rinvalid := fun _ => 0
    whit := fun _ => 0
    wmiss := fun _ => 0
    winvalid := fun _ => 0 }

inductive Op where
  | read
  | write
  deriving DecidableEq

namespace State

variable (state : State)

/-- The data of the current level. -/
def levelData : Nat → Nat := state.data state.level

def setData (data : Nat → Nat) : State :=
  { state with data := Function.update state.data state.level data }

def countHit : Op → State
  | .read => { state with rhit := Function.update state.rhit state.level (state.rhit state.level + 1) }
  | .write => { state with whit := Function.update state.whit state.level (state.whit state.level + 1) }

def countMiss (wasInvalid : Nat) : Op → State
  | .read =>
      { state with
        rmiss := Function.update state.rmiss state.level (state.rmiss state.level + 1)
        rinvalid := Function.update state.rinvalid state.level
          (state.rinvalid state.level + wasInvalid) }
  | .write =>
      { state with
        wmiss := Function.update state.wmiss state.level (state.wmiss state.level + 1)
        winvalid := Function.update state.winvalid state.level
          (state.winvalid state.level + wasInvalid) }

end State

/-- The loop of UPDATE_LRU_QUEUE from the position that is removed. -/
def shiftQueue (data : Nat → Nat) (pos : Nat) : Nat → Nat → Nat
  | 0 => data
  | steps + 1 => shiftQueue (Function.update data pos (data (pos + 1))) (pos + 1) steps

/-- UPDATE_LRU_QUEUE. -/
def updateLruQueue (actCl : CacheLevel) (data : Nat → Nat) (pElm0 removepos newvalue : Nat) :
    Nat → Nat :=
  let steps := actCl.associativity - 1 - removepos
  Function.update (shiftQueue data (pElm0 + removepos) steps) (pElm0 + removepos + steps) newvalue

/-- GetPosWithinSet, from the last position downwards; none stands for -1. -/
def getPosWithinSet (data : Nat → Nat) (pElm0 alignedAddr : Nat) : Nat → Option Nat
  | 0 => none
  | pos + 1 =>
      if cacheContents (data (pElm0 + pos)) = alignedAddr then some pos
      else getPosWithinSet data pElm0 alignedAddr pos

/-- The functions for direct mapped levels; `stored` is the word for an aligned address that is
missed, none for write around. The flag says whether the next level is looked into. -/
def accessDM (op : Op) (stored : Option (Nat → Nat)) (actCl : CacheLevel) (elemaddress : Nat)
    (state : State) : State × Bool :=
  let alignedAddr := actCl.getAlignedaddr elemaddress
  let cacheline := actCl.getCacheline alignedAddr
  let pElm0 := cacheline * actCl.associativity
  let wasInvalid := cacheInvalid (state.levelData pElm0)
  if cacheContents (state.levelData pElm0) = alignedAddr ∧ wasInvalid = 0 then
    ({ state.countHit op with level := 1 }, false)
  else
    let state := state.countMiss wasInvalid op
    match stored with
    | some word =>
        let state := state.setData (Function.update state.levelData pElm0 (word alignedAddr))
        ({ state with level := state.level + 1 }, true)
    | none => (state, false)

/-- The functions for levels with several ways. -/
def accessAS4 (op : Op) (stored : Option (Nat → Nat)) (actCl : CacheLevel) (elemaddress : Nat)
    (state : State) : State × Bool :=
  let alignedAddr := actCl.getAlignedaddr elemaddress
  let cacheline := actCl.getCacheline alignedAddr
  let pElm0 := cacheline * actCl.associativity
  let data := state.levelData
  let pos := getPosWithinSet data pElm0 alignedAddr actCl.associativity
  let wasInvalid := match pos with
    | some pos => cacheInvalid (data (pElm0 + pos))
    | none => 0
  if pos.isSome ∧ wasInvalid = 0 then
    let pos := pos.getD 0
    let state := state.countHit op
    let state := state.setData (updateLruQueue actCl data pElm0 pos (data (pElm0 + pos)))
    ({ state with level := 1 }, false)
  else
    let state := state.countMiss wasInvalid op
    match stored with
    | some word =>
        let removepos := wasInvalid * pos.getD 0
        let state := state.setData
          (updateLruQueue actCl data pElm0 removepos (word alignedAddr))
        ({ state with level := state.level + 1 }, true)
    | none => (state, false)

/-- `aligned_addr | 1`. -/
def makeInvalid (alignedAddr : Nat) : Nat := alignedAddr ||| 1

def accessDMRead := accessDM .read (some id)
def accessDMFOW := accessDM .write (some id)
def accessDMWV := accessDM .write (some makeInvalid)
def accessDMWA := accessDM .write none
def accessAS4Read := accessAS4 .read (some id)
def accessAS4FOW := accessAS4 .write (some id)
def accessAS4WV := accessAS4 .write (some makeInvalid)
def accessAS4WA := accessAS4 .write none

/-- What InitializeOneCacheLevel enters into the access tables. -/
def accessFunction (actCl : CacheLevel) (op : Op) :
    CacheLevel → Nat → State → State × Bool :=
  if actCl.associativity = 1 then
    match op with
    | .read => accessDMRead
    | .write =>
        match actCl.writepolicy with
        | .default => accessDMFOW
        | .fetchOnWrite => accessDMFOW
        | .writeValidate => accessDMWV
        | .writeAround => accessDMWA
  else
    match op with
    | .read => accessAS4Read
    | .write =>
        match actCl.writepolicy with
        | .default => accessAS4FOW
        | .fetchOnWrite => accessAS4FOW
        | .writeValidate => accessAS4WV
        | .writeAround => accessAS4WA

/-- The function of an access table at `entry` works on the level of SAC_CS_level, whatever its
own is; behind the last level it is SAC_CS_Access_MM. -/
def accessTable (cachelevels : List CacheLevel) (op : Op) (elemaddress : Nat) :
    Nat → Nat → State → Option State
  | 0, _, _ => none
  | depth + 1, entry, state =>
      match cachelevels[entry - 1]? with
      | none => some { state with level := 1 }
      | some tabled =>
          match cachelevels[state.level - 1]? with
          | none => none
          | some actCl =>
              let result := accessFunction tabled op actCl elemaddress state
              if result.2 then
                accessTable cachelevels op elemaddress depth result.1.level result.1
              else some result.1

/-- SAC_CS_ReadAccess and SAC_CS_WriteAccess: the functions of level 1. -/
def access (cachelevels : List CacheLevel) (op : Op) (elemaddress : Nat) (state : State) :
    Option State :=
  accessTable cachelevels op elemaddress (cachelevels.length + 1) 1 state

def run (cachelevels : List CacheLevel) : List (Op × Nat) → State → Option State
  | [], state => some state
  | (op, elemaddress) :: accesses, state =>
      (access cachelevels op elemaddress state).bind (run cachelevels accesses)

end Model

end Sac2c.CacheLevels
