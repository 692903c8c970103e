import Mathlib.Logic.Function.Basic
import Mathlib.Order.Basic
import Mathlib.Data.List.Basic
import Mathlib.Tactic.Common

/-!
Look-up tables for pointers and strings (tree/LookUpTable.c): a hash table of
collision tables, each of them a chain of fragments with room for five pairs
and a last word that links the next fragment.
-/

namespace Sac2c.LookUpTable

/-- What a pair is found by. Stored strings are copies nobody else writes to. -/
inductive Item where
  | pointer (address : UInt64)
  | string (chars : List Int8)
  deriving DecidableEq

def lutSize : Nat := 5
def hashKeysPointer : Nat := 32
def hashKeysString : Nat := 17
def hashKeys : Nat := hashKeysPointer + hashKeysString

def getHashKeyPointer (data : UInt64) : Nat := ((data >>> 5) &&& 0x1f).toNat

def getHashKeyString (data : List Int8) : Nat :=
  (data.foldl (fun hashKey (char : Int8) => hashKey + char.toInt64.toUInt64) 0).toNat % hashKeysString +
    hashKeysPointer

def Item.hashKey : Item → Nat
  | pointer address => getHashKeyPointer address
  | string chars => getHashKeyString chars

/-- The kinds of tables the functions come in for. -/
inductive Kind where
  | p
  | s
  deriving DecidableEq

def Item.kind : Item → Kind
  | pointer _ => .p
  | string _ => .s

/-- The hash keys from `start` up to `stop` are those of a kind. -/
def Kind.start : Kind → Nat
  | p => 0
  | s => hashKeysPointer

def Kind.stop : Kind → Nat
  | p => hashKeysPointer
  | s => hashKeys

/-- `IsEqual_Pointer` and `IsEqual_String`; one table holds items of one kind. -/
def isEqual (data1 data2 : Item) : Bool := data1 == data2

/-- A `void **`: a word of a fragment, or what was in memory that nobody has written. -/
inductive Pointer where
  | at (frag slot : Nat)
  | garbage

def Pointer.add : Pointer → Nat → Pointer
  | .at frag slot, n => .at frag (slot + n)
  | garbage, _ => garbage

inductive Word (Value : Type) where
  | uninit
  | key (item : Item)
  | value (value : Value)
  | link (pointer : Pointer)

variable {Value : Type}

/-- The fragments that have been allocated, of `2 * lutSize + 1` words each. -/
structure Memory (Value : Type) where
  words : Nat → Nat → Word Value
  live : Nat → Bool
  fresh : Nat

namespace Memory

variable (mem : Memory Value)

/-- Undefined for garbage, outside fragments and in freed ones. -/
def load : Pointer → Option (Word Value)
  | .at frag slot =>
      if mem.live frag ∧ slot ≤ 2 * lutSize then some (mem.words frag slot) else none
  | .garbage => none

def loadKey (pointer : Pointer) : Option Item :=
  match mem.load pointer with
  | some (.key item) => some item
  | _ => none

def loadValue (pointer : Pointer) : Option Value :=
  match mem.load pointer with
  | some (.value value) => some value
  | _ => none

/-- Whatever is in the word is taken for a pointer. -/
def loadPointer (pointer : Pointer) : Option Pointer :=
  match mem.load pointer with
  | some (.link pointer) => some pointer
  | some _ => some .garbage
  | none => none

def write (frag slot : Nat) (word : Word Value) : Memory Value :=
  let words := Function.update (mem.words frag) slot word
  { mem with words := Function.update mem.words frag words }

def store (word : Word Value) : Pointer → Option (Memory Value)
  | .at frag slot =>
      if mem.live frag ∧ slot ≤ 2 * lutSize then some (mem.write frag slot word) else none
  | .garbage => none

/-- `MEMmalloc` of a fragment. -/
def malloc : Memory Value where
  words := Function.update mem.words mem.fresh (fun _ => .uninit)
  live := Function.update mem.live mem.fresh true
  fresh := mem.fresh + 1

/-- `MEMfree`. -/
def free : Pointer → Option (Memory Value)
  | .at frag 0 =>
      if mem.live frag then some { mem with live := Function.update mem.live frag false }
      else none
  | _ => none

end Memory

/-- A collision table, `struct LUT_T`. -/
structure Table where
  first : Pointer
  next : Pointer
  size : Nat

/-- The collision tables by their hash keys. -/
abbrev Lut := Nat → Table

/-- Behind the pair with index `i`: after the last pair of a fragment the next one is entered. -/
def hop (mem : Memory Value) (i : Nat) (entry : Pointer) : Option Pointer :=
  if (i + 1) % lutSize = 0 then mem.loadPointer entry else some entry

/-- `SearchInLUT_` with `remaining = size - i`; the slot of the value, `i` and `entry`. -/
def searchInLUT_ (mem : Memory Value) (oldItem : Item) :
    Nat → Nat → Pointer → Option (Option Pointer × Nat × Pointer)
  | 0, i, entry => some (none, i, entry)
  | remaining + 1, i, entry => do
      let item ← mem.loadKey entry
      if isEqual item oldItem then some (some (entry.add 1), i, entry)
      else
        let entry ← hop mem i (entry.add 2)
        searchInLUT_ mem oldItem remaining (i + 1) entry

def searchInLUT (mem : Memory Value) (lut : Lut) (oldItem : Item) :
    Option (Option Pointer) := do
  let (newItemP, _, _) ← searchInLUT_ mem oldItem (lut oldItem.hashKey).size 0
    (lut oldItem.hashKey).first
  some newItemP

/-- The static variables of `SearchInLUT_state` once `store_lut` is set. -/
structure Store where
  oldItem : Item
  size : Nat
  i : Nat
  entry : Pointer

/-- `SearchInLUT_state` with `init`. -/
def searchInit (mem : Memory Value) (lut : Lut) (oldItem : Item) :
    Option (Option Pointer × Store) := do
  let size := (lut oldItem.hashKey).size
  let (newItemP, i, entry) ← searchInLUT_ mem oldItem size 0 (lut oldItem.hashKey).first
  some (newItemP, ⟨oldItem, size, i, entry⟩)

/-- `SearchInLUT_state` without `init`. -/
def searchNext (mem : Memory Value) (store : Store) : Option (Option Pointer × Store) := do
  let entry ← hop mem store.i (store.entry.add 2)
  let i := store.i + 1
  let (newItemP, i, entry) ← searchInLUT_ mem store.oldItem (store.size - i) i entry
  some (newItemP, { store with i := i, entry := entry })

def insertIntoLUT (mem : Memory Value) (table : Table) (oldItem : Item) (newItem : Value) :
    Option (Memory Value × Table) := do
  let mem ← mem.store (.key oldItem) table.next
  let mem ← mem.store (.value newItem) (table.next.add 1)
  let next := table.next.add 2
  let size := table.size + 1
  if size % lutSize = 0 then
    -- The last table entry has been used: a new fragment is linked and entered.
    let frag := mem.fresh
    let mem ← mem.malloc.store (.link (.at frag 0)) next
    let next ← mem.loadPointer next
    some (mem, { table with next := next, size := size })
  else some (mem, { table with next := next, size := size })

/-- `UpdateLUT`; the value that was found comes with the table. -/
def updateLUT (mem : Memory Value) (lut : Lut) (oldItem : Item) (newItem : Value) :
    Option (Memory Value × Lut × Option Value) := do
  let foundItemP ← searchInLUT mem lut oldItem
  match foundItemP with
  | none =>
      let (mem, table) ← insertIntoLUT mem (lut oldItem.hashKey) oldItem newItem
      some (mem, Function.update lut oldItem.hashKey table, none)
  | some slot =>
      let found ← mem.loadValue slot
      let mem ← mem.store (.value newItem) slot
      some (mem, lut, some found)

/-- The loop of `MapLUT` over one table. -/
def mapTable (fun_ : Value → Item → Value) :
    Nat → Nat → Pointer → Memory Value → Option (Memory Value)
  | 0, _, _, mem => some mem
  | remaining + 1, i, tmp, mem => do
      let value ← mem.loadValue (tmp.add 1)
      let key ← mem.loadKey tmp
      let mem ← mem.store (.value (fun_ value key)) (tmp.add 1)
      let tmp ← hop mem i (tmp.add 2)
      mapTable fun_ remaining (i + 1) tmp mem

def mapLUT (fun_ : Value → Item → Value) (lut : Lut) :
    List Nat → Memory Value → Option (Memory Value)
  | [], mem => some mem
  | k :: ks, mem => do
      let mem ← mapTable fun_ (lut k).size 0 (lut k).first mem
      mapLUT fun_ lut ks mem

/-- The loop of `FoldLUT` over one table. -/
def foldTable {Result : Type} (mem : Memory Value) (fun_ : Result → Value → Item → Result) :
    Nat → Nat → Pointer → Result → Option Result
  | 0, _, _, init => some init
  | remaining + 1, i, tmp, init => do
      let value ← mem.loadValue (tmp.add 1)
      let key ← mem.loadKey tmp
      let tmp ← hop mem i (tmp.add 2)
      foldTable mem fun_ remaining (i + 1) tmp (fun_ init value key)

def foldLUT {Result : Type} (mem : Memory Value) (fun_ : Result → Value → Item → Result)
    (lut : Lut) : List Nat → Result → Option Result
  | [], init => some init
  | k :: ks, init => do
      let init ← foldTable mem fun_ (lut k).size 0 (lut k).first init
      foldLUT mem fun_ lut ks init

/-- The loop of `LUTgenerateLut`. -/
def generateTables : List Nat → Memory Value → Lut → Memory Value × Lut
  | [], mem, lut => (mem, lut)
  | k :: ks, mem, lut =>
      generateTables ks mem.malloc
        (Function.update lut k ⟨.at mem.fresh 0, .at mem.fresh 0, 0⟩)

def lutGenerateLut (mem : Memory Value) : Memory Value × Lut :=
  generateTables (List.range hashKeys) mem (fun _ => ⟨.garbage, .garbage, 0⟩)

/-- The loop of `LUTduplicateLut` over one table. -/
def duplicateTable : Nat → Nat → Pointer → Memory Value → Table →
    Option (Memory Value × Table)
  | 0, _, _, mem, newTable => some (mem, newTable)
  | remaining + 1, i, tmp, mem, newTable => do
      let key ← mem.loadKey tmp
      let value ← mem.loadValue (tmp.add 1)
      let (mem, newTable) ← insertIntoLUT mem newTable key value
      let tmp ← hop mem i (tmp.add 2)
      duplicateTable remaining (i + 1) tmp mem newTable

def duplicateTables (lut : Lut) :
    List Nat → Memory Value → Lut → Option (Memory Value × Lut)
  | [], mem, newLut => some (mem, newLut)
  | k :: ks, mem, newLut => do
      let (mem, table) ← duplicateTable (lut k).size 0 (lut k).first mem (newLut k)
      duplicateTables lut ks mem (Function.update newLut k table)

def lutDuplicateLut (mem : Memory Value) (lut : Lut) : Option (Memory Value × Lut) :=
  let (mem, newLut) := lutGenerateLut mem
  duplicateTables lut (List.range hashKeys) mem newLut

/-- The fragments of a table for pointers go, all but the last one. -/
def removeFragments : Nat → Pointer → Memory Value → Option (Memory Value × Pointer)
  | 0, first, mem => some (mem, first)
  | fragments + 1, first, mem => do
      let next ← mem.loadPointer (first.add (2 * lutSize))
      let mem ← mem.free first
      removeFragments fragments next mem

/-- The strings of a table and its fragments go, all but the last one. -/
def removeStrings : Nat → Nat → Pointer → Pointer → Memory Value →
    Option (Memory Value × Pointer)
  | 0, _, _, first, mem => some (mem, first)
  | remaining + 1, i, tmp, first, mem => do
      let _ ← mem.loadKey tmp
      let tmp := tmp.add 2
      if (i + 1) % lutSize = 0 then
        let tmp ← mem.loadPointer tmp
        let mem ← mem.free first
        removeStrings remaining (i + 1) tmp tmp mem
      else removeStrings remaining (i + 1) tmp first mem

def removeTable (k : Nat) (table : Table) (mem : Memory Value) :
    Option (Memory Value × Pointer) :=
  if k < hashKeysPointer then removeFragments (table.size / lutSize) table.first mem
  else removeStrings table.size 0 table.first table.first mem

def removeTables : List Nat → Memory Value → Lut → Option (Memory Value × Lut)
  | [], mem, lut => some (mem, lut)
  | k :: ks, mem, lut => do
      let (mem, first) ← removeTable k (lut k) mem
      removeTables ks mem (Function.update lut k ⟨first, first, 0⟩)

def lutRemoveContentLut (mem : Memory Value) (lut : Lut) : Option (Memory Value × Lut) :=
  removeTables (List.range hashKeys) mem lut

end Sac2c.LookUpTable
