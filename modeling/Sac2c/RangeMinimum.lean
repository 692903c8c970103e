import Mathlib.Algebra.Group.Nat.Defs
import Sac2c.DynMatrices

/-!
The range minimum queries of flexsub/lubtree.c, by which the least common ancestor in the
spanning tree is looked up in the euler tour. LUBcreatePartitions splits the tour into
blocks and fills their tables, but neither the partition record nor a table is initialised
before it is filled, and a tour of three entries is split into blocks of no entries.
-/

namespace Sac2c.RangeMinimum
open OwnedBlocks DynArrays DynMatrices

section Model

/-- An entry of the euler tour has the depth for its index, and the preorder number and the
block id for its data. An entry of the block minimum array has its position in the tour. -/
abbrev Entry := Elem (Pointer Int)

abbrev Table := DynMatrices.Matrix Entry

/-- A struct DYNARRAY that has not been initialised. -/
structure RawArray where
  elems : Unassigned (Option Entry)
  totalElems : Int
  allocElems : Int

/-- With a negative count the first element is stored before the array, or not into a block. -/
def RawArray.array (raw : RawArray) : Option (DynArray Entry) :=
  if 0 ≤ raw.totalElems ∧ 0 ≤ raw.allocElems then
    some ⟨raw.elems.pointer, raw.totalElems.toNat, raw.allocElems.toNat⟩
  else none

/-- A struct MATRIX that has not been initialised. -/
structure RawMatrix where
  array2D : Unassigned (Option (DynArray Entry))
  totalRows : Int
  totalCols : Int

/-- With a negative number of rows the first row is stored before the array of rows. A
negative number of columns is like none. -/
def RawMatrix.matrix (raw : RawMatrix) : Option Table :=
  if 0 ≤ raw.totalRows then
    some ⟨raw.array2D.pointer, raw.totalRows.toNat, raw.totalCols.toNat⟩
  else none

/-- What fresh memory happens to hold: the struct LUBINFO, a block of pointers to tables,
the tables by their block, and the arrays behind them. -/
structure Fresh extends Garbage Entry where
  numIntra : Int
  intraMats : Unassigned (Option Table)
  tables : Nat → Option Table
  intraTable : Nat → RawMatrix
  blockMin : RawArray
  interMat : RawMatrix

variable (fresh : Fresh)

/-- The loops `for (i = 0; i < totalelems; i = i + blocksize)` from some `i` on, for some
number of rounds at most. -/
def overBlocks {σ : Type} (body : σ → Nat → Option σ) (blocksize totalelems : Nat) :
    Nat → Nat → σ → Option σ
  | 0, _, _ => none
  | rounds + 1, i, s =>
      if i < totalelems then
        (body s i).bind (overBlocks body blocksize totalelems rounds (i + blocksize))
      else some s

def mathIpow (base : Int) (exp : Nat) : Int := (List.range exp).foldl (fun res _ => res * base) 1

/-- The body of the first inner loop of LUBsetBlockIds, on blockid and prevdepth. -/
def blockIdStep (eulertour : DynArray Entry) (blocksize i : Nat) (s : Int × Int) (j : Nat) :
    Option (Int × Int) :=
  if j < eulertour.totalElems then
    (eulertour.elemsPos j).map fun e =>
      (if s.2 > e.idx then s.1 + mathIpow 2 (blocksize - 2 - (j - (i + 1))) else s.1, e.idx)
  -- the padding of the last block
  else some (s.1 * 2, s.2)

/-- The body of its second inner loop. -/
def storeBlockId (blockid : Int) (eulertour : DynArray Entry) (j : Nat) :
    Option (DynArray Entry) :=
  if j < eulertour.totalElems then
    (eulertour.elemsPos j).bind fun e => (e.data.store 1 blockid).bind fun data =>
      eulertour.setPos j (some ⟨e.idx, data⟩)
  else some eulertour

def blockIdsStep (blocksize : Nat) (eulertour : DynArray Entry) (i : Nat) :
    Option (DynArray Entry) :=
  (eulertour.elemsPos i).bind fun e =>
    ((List.range' (i + 1) (blocksize - 1)).foldlM (blockIdStep eulertour blocksize i)
      (0, e.idx)).bind fun s =>
        (List.range' i blocksize).foldlM (storeBlockId s.1) eulertour

def setBlockIds (rounds : Nat) (eulertour : DynArray Entry) (blocksize : Nat) :
    Option (DynArray Entry) :=
  overBlocks (blockIdsStep blocksize) blocksize eulertour.totalElems rounds 0 eulertour

/-- The smallest depth so far, and where it is. -/
structure Minimum where
  depth : Int
  index : Nat

def Minimum.update (eulertour : DynArray Entry) (m : Minimum) (j : Nat) : Option Minimum :=
  if j < eulertour.totalElems then
    (eulertour.elemsPos j).map fun e => if m.depth > e.idx then ⟨e.idx, j⟩ else m
  else some m

/-- The body of the inner loop of LUBcomputeIntraTable. -/
def intraStep (eulertour : DynArray Entry) (start i : Nat) (s : Minimum × Table) (j : Nat) :
    Option (Minimum × Table) :=
  (s.1.update eulertour (start + j)).bind fun m =>
    (s.2.setValue fresh.toGarbage .null i j (m.index - start)).bind fun result =>
      (result.setValue fresh.toGarbage .null j i (m.index - start)).map fun result => (m, result)

def computeIntraTable (eulertour : DynArray Entry) (start last : Nat) : Option Table :=
  (fresh.intraTable start).matrix.bind fun result =>
    (List.range (last - start + 2)).foldlM (fun result i =>
      if start + i < eulertour.totalElems then
        (eulertour.elemsPos (start + i)).bind fun e =>
          ((List.range' i (last - start + 1 - i)).foldlM (intraStep fresh eulertour start i)
            (⟨e.idx, start + i⟩, result)).map Prod.snd
      else some result) result

def perBlockMinStep (eulertour : DynArray Entry) (blocksize : Nat) (result : DynArray Entry)
    (i : Nat) : Option (DynArray Entry) :=
  (eulertour.elemsPos i).bind fun e =>
    ((List.range' (i + 1) (blocksize - 1)).foldlM (Minimum.update eulertour) ⟨e.idx, i⟩).bind
      fun m => result.addToArray fresh.elems ⟨m.depth, .live [m.index]⟩

def computePerBlockMin (rounds : Nat) (eulertour : DynArray Entry) (blocksize : Nat) :
    Option (DynArray Entry) :=
  fresh.blockMin.array.bind fun result =>
    overBlocks (perBlockMinStep fresh eulertour blocksize) blocksize eulertour.totalElems rounds 0
      result

/-- DYNARRAY_ELEMS_POS at an index that may be negative. -/
def elemsAt (a : DynArray Entry) (pos : Int) : Option Entry :=
  if 0 ≤ pos then a.elemsPos pos.toNat else none

/-- The body of the last loops of LUBprocessBlockMinArray. -/
def blockMinStep (a : DynArray Entry) (j : Nat) (m : Table) (i : Nat) : Option Table :=
  let totalelems := a.totalElems
  if j = 0 then
    (a.elemsPos i).bind fun e => (a.elemsPos (i + 1)).bind fun next =>
      m.setValue fresh.toGarbage .null i 0 (if e.idx < next.idx then i else i + 1)
  else
    (m.getValue i (j - 1)).bind fun halfstep =>
      (if i + 2 ^ (j - 1) < totalelems then m.getValue (i + 2 ^ (j - 1)) (j - 1)
        else m.getValue (totalelems - 1) (j - 1)).bind fun fullstep =>
          (elemsAt a halfstep).bind fun half => (elemsAt a fullstep).bind fun full =>
            m.setValue fresh.toGarbage .null i j (if half.idx < full.idx then halfstep else fullstep)

/-- `ceil (log2 (n))`. -/
def ceilLog2 (n : Nat) : Nat := if 2 ^ n.log2 < n then n.log2 + 1 else n.log2

def processBlockMinArray (a : DynArray Entry) : Option Table :=
  let totalelems := a.totalElems
  fresh.interMat.matrix.bind fun m =>
    if totalelems = 1 then m.setValue fresh.toGarbage .null 0 0 0
    else
      ((List.range (ceilLog2 totalelems)).foldlM (fun (m : Table) j =>
        m.setValue fresh.toGarbage .null (totalelems - 1) j (totalelems - 1)) m).bind fun m =>
          (List.range (ceilLog2 totalelems)).foldlM (fun m j =>
            (List.range (totalelems - 1)).foldlM (blockMinStep fresh a j) m) m

def getBlockId (eulertour : DynArray Entry) (index : Nat) : Option Int :=
  (eulertour.elemsPos index).bind fun e => e.data.load 1

/-- The struct LUBINFO. -/
structure LubInfo where
  numIntra : Int
  blockSize : Nat
  blockMin : DynArray Entry
  interMat : Table
  intraMats : Pointer (Option Table)

/-- The number of tables and the pointer to them. -/
abbrev IntraMats := Int × Pointer (Option Table)

/-- An assignment to LUBINFO_INTRAMATS_POS. -/
def setIntraMat (intramats : Pointer (Option Table)) (i : Int) (m : Option Table) :
    Option (Pointer (Option Table)) :=
  if 0 ≤ i then intramats.store i.toNat m else none

def intraMat (intramats : Pointer (Option Table)) (i : Int) : Option (Option Table) :=
  if 0 ≤ i then intramats.load i.toNat else none

/-- The reallocation of the tables, and the loop from `oldsize - 1` on. -/
def growIntraMats (s : IntraMats) (index : Int) : Option IntraMats :=
  let oldsize := s.1
  ((s.2.realloc fresh.tables (index + 1).toNat).bind fun moved =>
    moved.2.free.map fun _ => moved.1).bind fun intramats =>
      ((List.range (index + 1 - (oldsize - 1)).toNat).foldlM (fun intramats (k : Nat) =>
        setIntraMat intramats (oldsize - 1 + k) none) intramats).map fun intramats =>
          (index + 1, intramats)

/-- The body of the loop of LUBcreatePartitions. -/
def partitionStep (eulertour : DynArray Entry) (blocksize : Nat) (s : IntraMats) (i : Nat) :
    Option IntraMats :=
  (getBlockId eulertour i).bind fun index =>
    (if index > s.1 - 1 then growIntraMats fresh s index else some s).bind fun s =>
      (intraMat s.2 index).bind fun known =>
        match known with
        | some _ => some s
        -- the first block with this id
        | none =>
            (computeIntraTable fresh eulertour i (i + blocksize - 1)).bind fun m =>
              (setIntraMat s.2 index (some m)).map fun intramats => (s.1, intramats)

/-- `(int)(log2 (totalelems) / 2.0)` is half of the integer logarithm. -/
def blockSize (totalelems : Nat) : Nat := if totalelems = 1 then 1 else totalelems.log2 / 2

/-- LUBcreatePartitions, with the tour that has got its block ids. -/
def createPartitions (rounds : Nat) (eulertour : DynArray Entry) :
    Option (DynArray Entry × LubInfo) :=
  let totalelems := eulertour.totalElems
  let blocksize := blockSize totalelems
  (setBlockIds rounds eulertour blocksize).bind fun eulertour =>
    (overBlocks (partitionStep fresh eulertour blocksize) blocksize totalelems rounds 0
      (fresh.numIntra, fresh.intraMats.pointer)).bind fun s =>
        (computePerBlockMin fresh rounds eulertour blocksize).bind fun blockMin =>
          (processBlockMinArray fresh blockMin).map fun interMat =>
            (eulertour, ⟨s.1, blocksize, blockMin, interMat, s.2⟩)

/-- The position in the tour by the table of a block. -/
def inBlock (lub : LubInfo) (id : Int) (block row col : Nat) : Option Int :=
  (intraMat lub.intraMats id).join.bind fun table =>
    (table.getValue row col).map fun offset => block * lub.blockSize + offset

/-- The position in the tour by the table of the block minima. -/
def ofBlocks (lub : LubInfo) (base jump : Nat) : Option Int :=
  (lub.interMat.getValue base jump).bind fun pos => (elemsAt lub.blockMin pos).bind fun e =>
    e.data.load 0

/-- `(int)+floor (log2 (n))`; the logarithm of 0 is no integer. -/
def floorLog2 (n : Nat) : Option Nat := if n = 0 then none else some n.log2

def getLowestFromCandidates (d : DynArray Entry) (first : Int) (rest : List Int) : Option Int :=
  (elemsAt d first).bind fun e => (e.data.load 0).bind fun result =>
    (rest.foldlM (fun (s : Int × Int) i => (elemsAt d i).bind fun e =>
      if s.1 > e.idx then (e.data.load 0).map fun result => (e.idx, result) else some s)
        (e.idx, result)).map Prod.snd

/-- The candidates of LUBtreeLCAfromNodes for two blocks or more. -/
def acrossBlocks (lub : LubInfo) (lblockid ublockid : Int) (lowerid upperid : Nat) :
    Option (Int × List Int) :=
  let blocksize := lub.blockSize
  let lower := lowerid / blocksize
  let upper := upperid / blocksize
  (inBlock lub lblockid lower (lowerid % blocksize) (blocksize - 1)).bind fun indexlower =>
    (inBlock lub ublockid upper 0 (upperid % blocksize)).bind fun indexupper =>
      -- Two windows of the block minima that overlap between the two blocks.
      if upper > lower + 1 then
        (floorLog2 (upper - lower - 2)).bind fun jump =>
          (ofBlocks lub (lower + 1) jump).bind fun left =>
            (ofBlocks lub (upper - 1 - 2 ^ jump) jump).map fun right =>
              (indexlower, [left, right, indexupper])
      else some (indexlower, [indexlower, indexlower, indexupper])

/-- The node of a preorder number. The nodes of PREARR are numbers. -/
def nodeOf (prearr : DynArray (Elem Nat)) (resultidx : Int) : Option Nat :=
  if 0 < resultidx then (prearr.elemsPos (resultidx - 1).toNat).map Elem.data else none

/-- LUBtreeLCAfromNodes, on the euler ids of the nodes. -/
def treeLCAfromNodes (eulertour : DynArray Entry) (lub : LubInfo) (prearr : DynArray (Elem Nat))
    (n1 n2 : Nat) : Option Nat :=
  let lowerid := if n1 < n2 then n1 else n2
  let upperid := if n1 < n2 then n2 else n1
  let blocksize := lub.blockSize
  if blocksize = 0 then none
  else
    (getBlockId eulertour lowerid).bind fun lblockid =>
      (getBlockId eulertour upperid).bind fun ublockid =>
        (if upperid / blocksize = lowerid / blocksize then
          (inBlock lub lblockid (lowerid / blocksize) (lowerid % blocksize)
            (upperid % blocksize)).map fun index => (index, [index, index, index])
        else acrossBlocks lub lblockid ublockid lowerid upperid).bind fun etindices =>
          (getLowestFromCandidates eulertour etindices.1 etindices.2).bind (nodeOf prearr)

end Model

section Specification

/-- An euler tour, of depths, preorder numbers and what is at the places of the block ids. -/
structure EulerTour where
  entries : List (Int × Int × Int)
  odd_length : entries.length % 2 = 1
  neighbours : (entries.map Prod.fst).IsChain fun d e => e = d + 1 ∨ e = d - 1

namespace EulerTour

def toEntry (entry : Int × Int × Int) : Entry := ⟨entry.1, .live [entry.2.1, entry.2.2]⟩

/-- The array of a tour, with some room behind it. -/
def array (tour : EulerTour) (spare : List (Option Entry)) : DynArray Entry :=
  ⟨.live (tour.entries.map (some ∘ toEntry) ++ spare), tour.entries.length,
    tour.entries.length + spare.length⟩

/-- An entry from `l` to `r` of minimum depth. -/
def IsMinimum (tour : EulerTour) (l r : Nat) (entry : Int × Int × Int) : Prop :=
  (∃ m, l ≤ m ∧ m ≤ r ∧ tour.entries[m]? = some entry) ∧
    ∀ j, l ≤ j → j ≤ r → ∀ other ∈ tour.entries[j]?, entry.1 ≤ other.1

end EulerTour

/-- The preprocessing ends, and all queries are answered from its tables by the node of an
entry of minimum depth. -/
def Right (fresh : Fresh) (tour : EulerTour) (spare : List (Option Entry)) : Prop :=
  ∃ bound, ∀ rounds, bound ≤ rounds →
    ∃ eulertour lub, createPartitions fresh rounds (tour.array spare) = some (eulertour, lub) ∧
      ∀ l r, l ≤ r → r < tour.entries.length →
        ∃ entry, tour.IsMinimum l r entry ∧
          ∀ prearr vertex, nodeOf prearr entry.2.1 = some vertex →
            treeLCAfromNodes eulertour lub prearr l r = some vertex ∧
              treeLCAfromNodes eulertour lub prearr r l = some vertex

end Specification

section Rounds

variable {σ : Type} {body : σ → Nat → Option σ} {blocksize totalelems : Nat}

/-- Blocks of no entries are never all done. -/
theorem no_progress (rounds : Nat) {i : Nat} (inside : i < totalelems) (s : σ) :
    overBlocks body 0 totalelems rounds i s = none := by
  induction rounds generalizing s with
  | zero => rfl
  | succ rounds ih =>
      rw [overBlocks, if_pos inside]
      cases first : body s i with
      | none => rfl
      | some s' => exact ih s'

theorem first_round_stuck (rounds : Nat) (inside : 0 < totalelems) {s : σ}
    (stuck : body s 0 = none) : overBlocks body blocksize totalelems rounds 0 s = none := by
  cases rounds with
  | zero => rfl
  | succ rounds => rw [overBlocks, if_pos inside, stuck, Option.bind_none]

theorem rounds_keep {P : σ → Prop} (kept : ∀ i s s', P s → body s i = some s' → P s')
    {rounds i : Nat} {s after : σ} (holds : P s)
    (ran : overBlocks body blocksize totalelems rounds i s = some after) : P after := by
  induction rounds generalizing i s with
  | zero => cases ran
  | succ rounds ih =>
      rw [overBlocks] at ran
      split at ran
      next =>
          obtain ⟨s', first, ran⟩ := Option.bind_eq_some_iff.mp ran
          exact ih (kept i s s' holds first) ran
      next =>
          cases ran
          exact holds

end Rounds

section BlockIds

variable {eulertour after : DynArray Entry}

/-- An id that the first block has got, if it has one. -/
def FirstId (eulertour : DynArray Entry) (blockid : Int) : Prop :=
  ∀ id, getBlockId eulertour 0 = some id → id = blockid

theorem stored_entry {blockid : Int} {j : Nat} (inside : j < eulertour.totalElems)
    (ran : storeBlockId blockid eulertour j = some after) :
    ∃ entry : Entry, entry.data.load 1 = some blockid ∧
      eulertour.setPos j (some entry) = some after := by
  rw [storeBlockId, if_pos inside] at ran
  obtain ⟨e, _, ran⟩ := Option.bind_eq_some_iff.mp ran
  obtain ⟨data, stored, ran⟩ := Option.bind_eq_some_iff.mp ran
  exact ⟨⟨e.idx, data⟩, Pointer.load_stored stored, ran⟩

theorem store_first_id {blockid : Int} (filled : 0 < eulertour.totalElems)
    (ran : storeBlockId blockid eulertour 0 = some after) : FirstId after blockid := by
  obtain ⟨entry, stored, set⟩ := stored_entry filled ran
  intro id found
  rw [getBlockId, elems_pos_set set, if_pos rfl, Option.bind_some, stored] at found
  exact (Option.some.inj found).symm

theorem store_keeps_first {blockid : Int} {j : Nat} (holds : FirstId eulertour blockid)
    (ran : storeBlockId blockid eulertour j = some after) : FirstId after blockid := by
  by_cases inside : j < eulertour.totalElems
  · by_cases first : j = 0
    · subst first
      exact store_first_id inside ran
    · obtain ⟨entry, _, set⟩ := stored_entry inside ran
      intro id found
      rw [getBlockId, elems_pos_set set, if_neg (Ne.symm first)] at found
      exact holds id found
  · rw [storeBlockId, if_neg inside] at ran
    cases ran
    exact holds

theorem store_keeps_total {blockid : Int} {j : Nat}
    (ran : storeBlockId blockid eulertour j = some after) :
    after.totalElems = eulertour.totalElems := by
  by_cases inside : j < eulertour.totalElems
  · obtain ⟨entry, _, set⟩ := stored_entry inside ran
    obtain ⟨elems, _, rfl⟩ := Option.map_eq_some_iff.mp set
    rfl
  · rw [storeBlockId, if_neg inside] at ran
    cases ran
    rfl

theorem ids_keep_total {rounds blocksize : Nat}
    (ran : setBlockIds rounds eulertour blocksize = some after) :
    after.totalElems = eulertour.totalElems := by
  refine rounds_keep (P := fun s => s.totalElems = eulertour.totalElems) ?_ rfl ran
  intro i s s' holds step
  obtain ⟨e, _, step⟩ := Option.bind_eq_some_iff.mp step
  obtain ⟨id, _, step⟩ := Option.bind_eq_some_iff.mp step
  refine loop_keeps (P := fun s => s.totalElems = eulertour.totalElems) holds ?_ step
  intro j _ s s' holds store
  exact (store_keeps_total store).trans holds

/-- Blocks of one entry have the id 0. -/
theorem single_entries_first_id {rounds : Nat} (filled : 0 < eulertour.totalElems)
    (ran : setBlockIds rounds eulertour 1 = some after) : FirstId after 0 := by
  have body : ∀ (s : DynArray Entry) i s', blockIdsStep 1 s i = some s' →
      storeBlockId 0 s i = some s' := by
    intro s i s' step
    obtain ⟨e, _, step⟩ := Option.bind_eq_some_iff.mp step
    simpa using step
  cases rounds with
  | zero => cases ran
  | succ rounds =>
      rw [setBlockIds, overBlocks, if_pos filled] at ran
      obtain ⟨s, first, ran⟩ := Option.bind_eq_some_iff.mp ran
      refine rounds_keep (P := fun s => FirstId s 0) ?_ (store_first_id filled (body _ _ _ first)) ran
      intro i s s' holds step
      exact store_keeps_first holds (body _ _ _ step)

end BlockIds

section Tables

variable (fresh : Fresh)

/-- The two cells that a round of the loops assigns to. -/
theorem intra_step_cells {eulertour : DynArray Entry} {start i j : Nat} {s s' : Minimum × Table}
    (ran : intraStep fresh eulertour start i s j = some s') :
    ∃ element middle, s.2.setElem fresh.toGarbage i j element = some middle ∧
      middle.setElem fresh.toGarbage j i element = some s'.2 := by
  simp only [intraStep, Option.bind_eq_some_iff, Option.map_eq_some_iff] at ran
  obtain ⟨m, _, middle, set, result, mirror, rfl⟩ := ran
  exact ⟨_, middle, set, mirror⟩

/-- The first row of a table for two entries or more is not finished: its second entry
needs a second row. -/
theorem first_row_stuck (eulertour : DynArray Entry) (start : Nat) (m : Minimum) (raw : RawMatrix)
    {result : Table} (fresh_result : raw.matrix = some result) (more : Nat) :
    (List.range' 0 (more + 2)).foldlM (intraStep fresh eulertour start 0) (m, result) = none := by
  have columns : List.range' 0 (more + 2) = 0 :: 1 :: List.range' 2 more := rfl
  rw [columns, List.foldlM_cons]
  cases first : intraStep fresh eulertour start 0 (m, result) 0 with
  | none => rfl
  | some s =>
      -- The first round makes the row 0; the second assigns to the cell (0,1), and mirrors it.
      have one_row : s.2.array2D ≠ .null ∧ s.2.totalRows = 1 := by
        obtain ⟨element, middle, set, again⟩ := intra_step_cells fresh first
        rw [RawMatrix.matrix] at fresh_result
        split at fresh_result
        next =>
            cases fresh_result
            have row := set_unassigned fresh.toGarbage raw.array2D set
            have kept := set_keeps_rows fresh.toGarbage row.1 (by omega) again
            exact ⟨kept.1, kept.2.trans row.2⟩
        next => cases fresh_result
      have second : intraStep fresh eulertour start 0 s 1 = none := by
        cases step : intraStep fresh eulertour start 0 s 1 with
        | none => rfl
        | some s' =>
            obtain ⟨element, middle, set, mirror⟩ := intra_step_cells fresh step
            have kept := set_keeps_rows fresh.toGarbage one_row.1 (by omega) set
            rw [set_new_row fresh.toGarbage kept.1 (by omega)] at mirror
            cases mirror
      simp [second]

theorem intra_table_stuck (eulertour : DynArray Entry) (filled : 0 < eulertour.totalElems)
    {last : Nat} (wide : 0 < last) : computeIntraTable fresh eulertour 0 last = none := by
  obtain ⟨more, rfl⟩ : ∃ more, last = more + 1 := ⟨last - 1, by omega⟩
  rw [computeIntraTable]
  cases raw : (fresh.intraTable 0).matrix with
  | none => rfl
  | some result =>
      have row : ∀ m, (List.range' 0 (more + 1 - 0 + 1 - 0)).foldlM
          (intraStep fresh eulertour 0 0) (m, result) = none := fun m =>
        first_row_stuck fresh eulertour 0 m _ raw more
      rw [Option.bind_some, List.range_succ_eq_map, List.foldlM_cons, if_pos filled]
      cases eulertour.elemsPos (0 + 0) with
      | none => rfl
      | some e =>
          rw [Option.bind_some, row]
          rfl

/-- The tables can be enlarged only if there happen to be some, without a block. -/
theorem grow_tables {numIntra index : Int} {s : IntraMats} (more : numIntra - 1 < index)
    (ran : growIntraMats fresh (numIntra, fresh.intraMats.pointer) index = some s) :
    1 ≤ numIntra ∧ intraMat s.2 index = some none := by
  simp only [growIntraMats, Option.bind_eq_some_iff, Option.map_eq_some_iff] at ran
  obtain ⟨intramats, _, cleared, ran, rfl⟩ := ran
  obtain ⟨n, count⟩ : ∃ n : Nat, (index + 1 - (numIntra - 1)).toNat = n + 1 :=
    ⟨(index - numIntra + 1).toNat, by omega⟩
  constructor
  · by_contra few
    rw [loop_stuck (P := fun _ => True) trivial (fun _ _ _ _ _ _ => trivial)
      (List.mem_range.mpr (show 0 < (index + 1 - (numIntra - 1)).toNat by omega)) ?_] at ran
    · cases ran
    · intro intramats _
      exact if_neg (by omega)
  · rw [count, List.range_succ, List.foldlM_append] at ran
    obtain ⟨before, _, ran⟩ := Option.bind_eq_some_iff.mp ran
    have here : numIntra - 1 + (n : Int) = index := by omega
    have last : setIntraMat before index none = some cleared := by
      simpa [here] using ran
    rw [setIntraMat] at last
    split at last
    next inside => rw [intraMat, if_pos inside, Pointer.load_stored last]
    next => cases last

/-- The tables that are there before the first assignment cannot be read. -/
theorem intra_mat_unassigned (index : Int) : intraMat fresh.intraMats.pointer index = none := by
  rw [intraMat, unassigned_load, ite_self]

theorem partition_stuck {eulertour : DynArray Entry} {blocksize : Nat}
    (sizes : blocksize = 1 ∧ FirstId eulertour 0 ∨ 2 ≤ blocksize ∧ 0 < eulertour.totalElems) :
    partitionStep fresh eulertour blocksize (fresh.numIntra, fresh.intraMats.pointer) 0 =
      none := by
  rw [partitionStep]
  cases id : getBlockId eulertour 0 with
  | none => rfl
  | some index =>
      rw [Option.bind_some]
      split
      next more =>
          cases grown : growIntraMats fresh (fresh.numIntra, fresh.intraMats.pointer) index with
          | none => rfl
          | some s =>
              have tables := grow_tables fresh more grown
              -- Blocks of one entry have the id 0, for which no table may have been there.
              rcases sizes with single | wide
              · have zero := single.2 index id
                exfalso
                omega
              · rw [Option.bind_some, tables.2, Option.bind_some,
                  intra_table_stuck fresh eulertour wide.2 (by omega), Option.bind_none]
      next => rw [Option.bind_some, intra_mat_unassigned, Option.bind_none]

end Tables

section Exactness

variable (fresh : Fresh) (tour : EulerTour) (spare : List (Option Entry))

theorem tour_filled : 0 < tour.entries.length := by
  have odd := tour.odd_length
  omega

/-- The preprocessing never ends: there are no blocks, or the tables of the first block
cannot be stored. -/
theorem partitions_stuck (rounds : Nat) :
    createPartitions fresh rounds (tour.array spare) = none := by
  have filled : 0 < (tour.array spare).totalElems := tour_filled tour
  rw [createPartitions]
  cases ids : setBlockIds rounds (tour.array spare) (blockSize (tour.array spare).totalElems) with
  | none => rfl
  | some eulertour =>
      have total := ids_keep_total ids
      have sizes : blockSize (tour.array spare).totalElems = 1 ∧ FirstId eulertour 0 ∨
          2 ≤ blockSize (tour.array spare).totalElems ∧ 0 < eulertour.totalElems := by
        match size : blockSize (tour.array spare).totalElems with
        | 0 =>
            rw [size, setBlockIds, no_progress rounds filled] at ids
            cases ids
        | 1 =>
            rw [size] at ids
            exact .inl ⟨rfl, single_entries_first_id filled ids⟩
        | n + 2 => exact .inr ⟨by omega, by omega⟩
      rw [Option.bind_some, first_round_stuck rounds filled (partition_stuck fresh sizes),
        Option.bind_none]

theorem never_right : ¬ Right fresh tour spare := by
  rintro ⟨bound, right⟩
  obtain ⟨eulertour, lub, built, _⟩ := right bound (Nat.le_refl bound)
  rw [partitions_stuck] at built
  cases built

/-- Fresh memory of zeros. -/
def zeros : Fresh where
  rows := fun _ => none
  elems := fun _ => none
  numIntra := 0
  intraMats := ⟨.null, nofun⟩
  tables := fun _ => none
  intraTable := fun _ => ⟨⟨.null, nofun⟩, 0, 0⟩
  blockMin := ⟨⟨.null, nofun⟩, 0, 0⟩
  interMat := ⟨⟨.null, nofun⟩, 0, 0⟩

/-- The tour of a root with one child. -/
def oneChild : EulerTour where
  entries := [(0, 1, 0), (1, 2, 0), (0, 1, 0)]
  odd_length := rfl
  neighbours := by decide

theorem one_child_wrong :
    ¬ ∀ (fresh : Fresh) (tour : EulerTour) (spare : List (Option Entry)), Right fresh tour spare := by
  intro right
  obtain ⟨bound, ends⟩ := right zeros oneChild []
  obtain ⟨eulertour, lub, built, _⟩ := ends bound (Nat.le_refl bound)
  rw [partitions_stuck] at built
  cases built

end Exactness

section Queries

/-- Whatever the tables hold: with one block between the two nodes the jump is the
logarithm of 0. -/
theorem one_block_between (eulertour : DynArray Entry) (lub : LubInfo)
    (prearr : DynArray (Elem Nat)) {lowerid upperid : Nat} (ordered : lowerid < upperid)
    (between : upperid / lub.blockSize = lowerid / lub.blockSize + 2) :
    treeLCAfromNodes eulertour lub prearr lowerid upperid = none := by
  have across : ∀ lblockid ublockid,
      acrossBlocks lub lblockid ublockid lowerid upperid = none := by
    intro lblockid ublockid
    have jump : floorLog2 (upperid / lub.blockSize - lowerid / lub.blockSize - 2) = none :=
      if_pos (by omega)
    have far : upperid / lub.blockSize > lowerid / lub.blockSize + 1 := by omega
    simp [acrossBlocks, jump, far]
  have apart : ¬ upperid / lub.blockSize = lowerid / lub.blockSize := by omega
  simp [treeLCAfromNodes, ordered, apart, across]

/-- With the tables that are meant, neighbours have their ancestor and two leaves have none. -/
example :
    let eulertour : DynArray Entry := ⟨.live ([(0, 1), (1, 2), (0, 1), (1, 3), (0, 1)].map
      fun entry => some ⟨entry.1, .live [entry.2, 0]⟩), 5, 5⟩
    let blockMin : DynArray Entry := ⟨.live ([(0, 0), (1, 1), (0, 2), (1, 3), (0, 4)].map
      fun entry => some ⟨entry.1, .live [entry.2]⟩), 5, 5⟩
    let row : List Int → Option (DynArray Entry) := fun values =>
      some ⟨.live (values.map fun value => some ⟨value, .null⟩), 3, 3⟩
    let interMat : Table := ⟨.live [row [0, 2, 4], row [2, 2, 4], row [2, 4, 4], row [4, 4, 4],
      row [4, 4, 4]], 5, 3⟩
    let lub : LubInfo := ⟨1, 1, blockMin, interMat, .live [some (single ⟨0, .null⟩)]⟩
    let prearr : DynArray (Elem Nat) := ⟨.live [some ⟨1, 10⟩, some ⟨2, 20⟩, some ⟨3, 30⟩], 3, 3⟩
    treeLCAfromNodes eulertour lub prearr 0 1 = some 10 ∧
      treeLCAfromNodes eulertour lub prearr 1 3 = none := by decide

/-- The last block gets the id of another one, although its depths go up and down and
those of the other down and up. -/
example :
    (setBlockIds 3 ⟨.live ([1, 0, 1, 2, 1, 2, 1].map fun depth =>
      some ⟨depth, .live [0, 0]⟩), 7, 7⟩ 4).bind (fun eulertour =>
        (getBlockId eulertour 0).bind fun first => (getBlockId eulertour 4).map (first, ·)) =
    some (4, 4) := by decide

end Queries

end Sac2c.RangeMinimum
