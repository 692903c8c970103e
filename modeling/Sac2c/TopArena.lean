import Sac2c.Wilderness
import Sac2c.LargeMachine
import Sac2c.LargeRequests

/-!
The top arena. Its memory comes from `SBRK`, which may answer with memory behind
the wilderness or elsewhere. Header words stay inside that memory in every run
that keeps clear of three steps: to cut a request from a fresh segment without
room for the wilderness that remains, to hand out an old wilderness from the
free list, and to melt one into the chunk before it.
-/

namespace Sac2c.TopArena

open Headers LargeChunks Blocks Links BoundaryTags FreeList FreeListWalks LargeMachine
open LargeRequests Wilderness Trace

/-- Arena 8 of SAC_HM_arenas[0]. -/
structure IsTop (arena : Arena) : Prop where
  kind : arena.num = Arenas.topArena
  least : arena.minChunkSize = Arenas.arenaMincs arena.num
  aligned : arena.self % 2 = 0

def LargeRequest (arena : Arena) (units : Int) : Prop := arena.minChunkSize ≤ units

/-- What SAC_HM_SetupMaster leaves: one wilderness of `units` units. -/
structure WildernessOnly (arena : Arena) (units : Int) (state : State) : Prop where
  placed : 0 < arena.freelist
  size : state.heap.largechunkSize arena.freelist = 0
  prevsize : state.heap.largechunkPrevsize arena.freelist = -1
  nextfree : state.heap.largechunkNextfree arena.freelist = 0
  wide : 3 ≤ units
  fresh : 0 < state.heap.wilderness arena.num
  apart : state.heap.wilderness arena.num + units ≤ arena.freelist ∨
    arena.freelist + 3 ≤ state.heap.wilderness arena.num
  wildSize : state.heap.largechunkSize (state.heap.wilderness arena.num) = units
  wildPrevsize : state.heap.largechunkPrevsize (state.heap.wilderness arena.num) = -1
  obtained : state.heap.obtained = [(state.heap.wilderness arena.num, units)]
  written : state.heap.written = []
  live : state.live = []

/-- The heap SAC_HM_ExtendTopArenaWilderness is called in, once the free list
has been coalesced. -/
def extensionAfterCoalescing (arena : Arena) (units : Int) (fuel : Nat) (heap : Heap) :
    Option Heap :=
  let wilderness := heap.wilderness arena.num
  if heap.largechunkPrevsize wilderness > 0 then
    match coalesceWilderness arena fuel heap wilderness with
    | none => none
    | some (wilderness, heap) =>
        if heap.largechunkSize wilderness ≥ units + 3 then none else some heap
  else some heap

/-- The heap it is called in for a request, if the request gets there. -/
def extensionHeap (arena : Arena) (units : Int) (fuel : Nat) (heap : Heap) : Option Heap :=
  match searchFreeList arena units heap fuel arena.freelist
      (heap.largechunkNextfree arena.freelist) 0 with
  | some (.exhausted bestp) =>
      if bestp ≠ 0 then none
      else if heap.largechunkSize (heap.wilderness arena.num) ≥ units + 3 then none
      else
        match coalesceFreeList arena units fuel heap arena.freelist
            (heap.largechunkNextfree arena.freelist) with
        | some (.exhausted heap) => extensionAfterCoalescing arena units fuel heap
        | _ => none
  | _ => none

/-- `SBRK` answers with `units` units at `mem` that lie in nothing the arena has. -/
def FreshMemory (arena : Arena) (obtained : List (Int × Int)) (mem units : Int) : Prop :=
  0 < mem ∧ ∀ unit, mem ≤ unit → unit < mem + units → ¬ InArena arena obtained unit

/-- The answers to the one or two requests for memory. -/
def FreshAnswers (arena : Arena) (heap : Heap) (units : Int) (supply : Supply) : Prop :=
  let wilderness := heap.wilderness arena.num
  let newMem := newMem units (heap.largechunkSize wilderness)
  FreshMemory arena heap.obtained supply.mem (newMem / Arenas.unitSize) ∧
    (supply.mem ≠ wilderness + heap.largechunkSize wilderness →
      newMem < sizeByte (units * Arenas.unitSize) →
      FreshMemory arena ((supply.mem, newMem / Arenas.unitSize) :: heap.obtained) supply.mem2
        (moreMem units newMem / Arenas.unitSize))

/-- Behind the request, the extended wilderness has room for its own header. -/
def Fills (arena : Arena) (heap : Heap) (units : Int) (supply : Supply) : Prop :=
  let wilderness := heap.wilderness arena.num
  let size := heap.largechunkSize wilderness
  let newMem := newMem units size
  if supply.mem = wilderness + size then units + 3 ≤ size + newMem / Arenas.unitSize
  else if newMem ≥ sizeByte (units * Arenas.unitSize) then
    units + 3 ≤ newMem / Arenas.unitSize
  else units + 3 ≤ (newMem + moreMem units newMem) / Arenas.unitSize

/-- Any behaviour of `SBRK` that returns fresh memory. -/
def Sbrk (arena : Arena) (heap : Heap) (units : Int) (supply : Supply) : Prop :=
  ∀ fuel entered, extensionHeap arena units fuel heap = some entered →
    FreshAnswers arena entered units supply

/-- The request takes none of the three harmful steps. -/
structure Unharmed (arena : Arena) (heap : Heap) (units : Int) (supply : Supply) : Prop where
  search : ∀ fuel found, searchFreeList arena units heap fuel arena.freelist
    (heap.largechunkNextfree arena.freelist) 0 = some found → SearchAvoids heap.retired found
  coalescing : ∀ fuel, searchFreeList arena units heap fuel arena.freelist
      (heap.largechunkNextfree arena.freelist) 0 = some (.exhausted 0) →
    heap.largechunkSize (heap.wilderness arena.num) < units + 3 →
    CoalescingAvoids heap.retired units fuel heap arena.freelist
      (heap.largechunkNextfree arena.freelist)
  extension : ∀ fuel entered, extensionHeap arena units fuel heap = some entered →
    Fills arena entered units supply

/-- The blocks of the top arena: there is a wilderness, and what was one before
is on record. -/
structure Topped (arena : Arena) (heap : Heap) (layout : Layout Status) : Prop where
  spans : Spans arena heap.obtained layout
  wild : ∃ chunk, layout.block (heap.wilderness arena.num) = some chunk ∧ chunk.state = .wild
  retired : ∀ header chunk, layout.block header = some chunk → chunk.state = .retired →
    header ∈ heap.retired

theorem topped_stable (arena : Arena) : Stable (Topped arena) := by
  rintro heap after layout renewed topped rearranges ⟨obtained, retired, wilderness⟩
  obtain ⟨chunk, atWild, isWild⟩ := topped.wild
  refine ⟨?_, ⟨chunk, ?_, isWild⟩, ?_⟩
  · rw [obtained]
    exact spans_rearranged topped.spans rearranges
  · rw [wilderness]
    refine (rearranges.fixed _ chunk ?_).mpr atWild
    rw [isWild]
    decide
  · intro header block atHeader isRetired
    rw [retired]
    refine topped.retired header block ((rearranges.fixed header block ?_).mp atHeader) isRetired
    rw [isRetired]
    decide

section Steps

variable {arena : Arena} {heap : Heap} {layout : Layout Status} {chain : List Int} {units : Int}
  {supply : Supply}

/-- A wilderness with room for the request and a header behind it serves it. -/
theorem split_wilderness_delivers (sound : Sound arena heap layout chain)
    (topped : Topped arena heap layout) (wide : 3 ≤ units)
    (room : units + 3 ≤ heap.largechunkSize (heap.wilderness arena.num)) :
    Delivers (Topped arena) arena units layout
      (splitWilderness arena units heap (heap.wilderness arena.num)) := by
  obtain ⟨chunk, atWild, isWild⟩ := topped.wild
  have sized := (sound.tagged.sized _ chunk atWild (Or.inr (Or.inr isWild))).2
  have lowSize : 0 < units := by omega
  have highSize : 0 < chunk.size - units := by omega
  have sum : units + (chunk.size - units) = chunk.size := by omega
  refine ⟨_, chain, sound_split_wilderness sound atWild isWild wide (by omega) lowSize highSize sum,
    ⟨?_, ⟨⟨chunk.size - units, .wild⟩, ?_, rfl⟩, ?_⟩, ?_⟩
  · intro unit
    exact (layout.covers_split atWild lowSize highSize sum unit).trans (topped.spans unit)
  · have moved : (splitWilderness arena units heap (heap.wilderness arena.num)).2.wilderness
        arena.num = heap.wilderness arena.num + units := by
      rw [split_wilderness_writes sized]
      simp [Heap.setLargechunkSize, Heap.setLargechunkPrevsize, Heap.setLargechunkArena,
        Heap.setFirst, Heap.setSecond, Heap.setWilderness]
    rw [moved]
    exact layout.split_high ⟨units, .live⟩ ⟨chunk.size - units, .wild⟩ atWild lowSize highSize sum
  · intro header block atHeader isRetired
    rcases layout.split_cases _ _ atWild lowSize highSize sum atHeader with
      ⟨_, rfl⟩ | ⟨_, rfl⟩ | ⟨_, old⟩
    · cases isRetired
    · cases isRetired
    · exact topped.retired header block old isRetired
  · have header : (splitWilderness arena units heap (heap.wilderness arena.num)).1 - 2 =
        heap.wilderness arena.num := by
      rw [split_wilderness_writes sized]
      dsimp only
      omega
    rw [header]
    refine ⟨?_, ⟨_, layout.split_low ⟨units, .live⟩ ⟨chunk.size - units, .wild⟩ atWild lowSize
      highSize sum, rfl, le_refl _⟩, ?_⟩
    · intro block atBlock isLive
      rw [atWild] at atBlock
      cases atBlock
      rw [isLive] at isWild
      cases isWild
    · intro start block differ isLive
      refine layout.split_iff _ _ atWild lowSize highSize sum (fun state => state = .live) ?_
        isLive (fun isLow => differ isLow.1) ?_
      · rw [isWild]
        intro wildLive
        cases wildLive
      · rintro ⟨_, rfl⟩
        cases isLive

/-- The old wilderness is retired and `total` fresh units become the new one;
`base` is the heap before its header is written. -/
theorem renewed_keeps (sound : Sound arena heap layout chain) (topped : Topped arena heap layout)
    {mem total : Int} (positive : 0 < mem) (wide : 3 ≤ total)
    (unused : ∀ unit, mem ≤ unit → unit < mem + total → ¬ InArena arena heap.obtained unit)
    {base : Heap} (first : base.first = heap.first)
    (second : base.second = ((heap.setLargechunkNextfree (heap.wilderness arena.num)
      (heap.largechunkNextfree arena.freelist)).setLargechunkNextfree arena.freelist
      (heap.wilderness arena.num)).second)
    (written : base.written ⊆ (arena.freelist + 2) :: (heap.wilderness arena.num + 2) ::
      heap.written)
    (retired : base.retired = heap.wilderness arena.num :: heap.retired)
    (wilderness : base.wilderness arena.num = mem)
    (segments : ∀ unit, InArena arena base.obtained unit ↔
      InArena arena heap.obtained unit ∨ (mem ≤ unit ∧ unit < mem + total)) :
    ∃ renewed nodes,
      Sound arena ((base.setLargechunkSize mem total).setLargechunkPrevsize mem (-1)) renewed
        nodes ∧
      Topped arena ((base.setLargechunkSize mem total).setLargechunkPrevsize mem (-1)) renewed ∧
      KeepsLive layout renewed := by
  obtain ⟨chunk, atWild, isWild⟩ := topped.wild
  have nonempty : 0 < total := by omega
  have soundRetired := (sound_retire sound atWild isWild).congr first second written
  -- the fresh units are outside the arena and so in no block
  have apart : ∀ unit, mem ≤ unit → unit < mem + total →
      ¬ (layout.retag _ chunk atWild .retired).Covers unit := by
    intro unit above below covered
    rw [layout.covers_retag, topped.spans] at covered
    exact unused unit above below covered
  have differ : ∀ start block, layout.block start = some block → start ≠ mem := by
    rintro start block atStart rfl
    exact unused start (le_refl _) (by omega) ((topped.spans start).mp (layout.covers_start atStart))
  have other : ∀ start, start ≠ mem → start ≠ heap.wilderness arena.num →
      ((layout.retag _ chunk atWild .retired).insert mem ⟨total, .wild⟩ nonempty apart).block start =
        layout.block start := by
    intro start notMem notWild
    rw [Layout.insert_block, if_neg notMem, layout.retag_other atWild .retired notWild]
  refine ⟨_, _, sound_new_wilderness soundRetired positive wide nonempty apart,
    ⟨?_, ⟨⟨total, .wild⟩, ?_, rfl⟩, ?_⟩, ?_⟩
  · intro unit
    rw [Layout.covers_insert, layout.covers_retag, topped.spans]
    exact (segments unit).symm
  · have kept : ((base.setLargechunkSize mem total).setLargechunkPrevsize mem (-1)).wilderness
        arena.num = mem := wilderness
    rw [kept, Layout.insert_block, if_pos rfl]
  · intro header block atHeader isRetired
    have recorded : ((base.setLargechunkSize mem total).setLargechunkPrevsize mem (-1)).retired =
        heap.wilderness arena.num :: heap.retired := retired
    rw [recorded]
    by_cases isMem : header = mem
    · rw [Layout.insert_block, if_pos isMem] at atHeader
      cases atHeader
      exact nomatch isRetired
    · by_cases isOld : header = heap.wilderness arena.num
      · exact List.mem_cons.mpr (Or.inl isOld)
      · rw [other header isMem isOld] at atHeader
        exact List.mem_cons_of_mem _ (topped.retired header block atHeader isRetired)
  · -- neither the fresh wilderness nor the retired one is live
    intro start block isLive
    by_cases isMem : start = mem
    · subst isMem
      constructor
      · intro atNew
        rw [Layout.insert_block, if_pos rfl] at atNew
        cases atNew
        exact nomatch isLive
      · exact fun atOld => absurd rfl (differ start block atOld)
    · by_cases isOld : start = heap.wilderness arena.num
      · subst isOld
        rw [Layout.insert_block, if_neg isMem, layout.retag_self, atWild]
        constructor
        · intro atNew
          cases atNew
          exact nomatch isLive
        · intro atOld
          cases atOld
          rw [isWild] at isLive
          exact nomatch isLive
      · rw [other start isMem isOld]

/-- Contiguous memory makes the wilderness larger. -/
theorem grown_keeps (sound : Sound arena heap layout chain) (topped : Topped arena heap layout)
    {more : Int} (positive : 0 < more)
    (unused : ∀ unit, heap.wilderness arena.num +
        heap.largechunkSize (heap.wilderness arena.num) ≤ unit →
      unit < heap.wilderness arena.num + heap.largechunkSize (heap.wilderness arena.num) + more →
      ¬ InArena arena heap.obtained unit) :
    ∃ renewed nodes,
      Sound arena ((heap.obtain (heap.wilderness arena.num +
        heap.largechunkSize (heap.wilderness arena.num)) more).setLargechunkSize
        (heap.wilderness arena.num) (heap.largechunkSize (heap.wilderness arena.num) + more))
        renewed nodes ∧
      Topped arena ((heap.obtain (heap.wilderness arena.num +
        heap.largechunkSize (heap.wilderness arena.num)) more).setLargechunkSize
        (heap.wilderness arena.num) (heap.largechunkSize (heap.wilderness arena.num) + more))
        renewed ∧
      KeepsLive layout renewed := by
  obtain ⟨chunk, atWild, isWild⟩ := topped.wild
  have sized := (sound.tagged.sized _ chunk atWild (Or.inr (Or.inr isWild))).2
  rw [sized] at unused ⊢
  have apart : ∀ unit, heap.wilderness arena.num + chunk.size ≤ unit →
      unit < heap.wilderness arena.num + chunk.size + more → ¬ layout.Covers unit :=
    fun unit above below covered => unused unit above below ((topped.spans unit).mp covered)
  have soundHeld : Sound arena (heap.obtain (heap.wilderness arena.num + chunk.size) more) layout
      chain := sound.congr rfl rfl (List.Subset.refl _)
  refine ⟨_, chain, sound_grow soundHeld atWild isWild positive apart,
    ⟨?_, ⟨⟨chunk.size + more, chunk.state⟩, ?_, isWild⟩, ?_⟩, ?_⟩
  · intro unit
    rw [layout.covers_grow, topped.spans]
    exact (in_arena_cons arena (heap.wilderness arena.num + chunk.size, more) heap.obtained
      unit).symm
  · exact (layout.grow_block atWild positive apart _).trans (if_pos rfl)
  · intro header block atHeader isRetired
    rw [layout.grow_block] at atHeader
    split_ifs at atHeader with same
    · cases atHeader
      rw [isWild] at isRetired
      exact nomatch isRetired
    · exact topped.retired header block atHeader isRetired
  · intro start block isLive
    rw [layout.grow_block]
    split_ifs with same
    · subst same
      rw [atWild]
      constructor
      · intro atNew
        cases atNew
        rw [isWild] at isLive
        exact nomatch isLive
      · intro atOld
        cases atOld
        rw [isWild] at isLive
        exact nomatch isLive
    · exact Iff.rfl

/-- Memory is asked for in whole units. -/
theorem round_up_units (size : Int) : ∃ count, roundUp size = count * Arenas.unitSize ∧
    0 ≤ count := by
  refine ⟨sizeByte (size + sbrkChunk) / sbrkChunk * 65536, ?_, ?_⟩
  · simp only [roundUp, sbrkChunk, Arenas.unitSize]
    omega
  · simp only [sizeByte, sbrkChunk]
    omega

theorem new_mem_units (units size : Int) :
    ∃ count, newMem units size = count * Arenas.unitSize ∧ 0 ≤ count := round_up_units _

theorem more_mem_units (units size : Int) :
    ∃ count, moreMem units size = count * Arenas.unitSize ∧ 0 ≤ count := round_up_units _

theorem in_units {size count : Int} (whole : size = count * Arenas.unitSize) :
    size / Arenas.unitSize = count := by
  rw [whole]
  exact Int.mul_ediv_cancel count (by decide)

/-- After the extension the wilderness holds the request and a header. -/
theorem extension_keeps (sound : Sound arena heap layout chain) (topped : Topped arena heap layout)
    (wide : 3 ≤ units) (short : heap.largechunkSize (heap.wilderness arena.num) < units + 3)
    (fresh : FreshAnswers arena heap units supply) (fills : Fills arena heap units supply)
    {wilderness : Int} {after : Heap}
    (extended : extendTopArenaWilderness arena supply units heap = some (wilderness, after)) :
    wilderness = after.wilderness arena.num ∧ units + 3 ≤ after.largechunkSize wilderness ∧
      ∃ renewed nodes, Sound arena after renewed nodes ∧ Topped arena after renewed ∧
        KeepsLive layout renewed := by
  obtain ⟨⟨memPlaced, memUnused⟩, second⟩ := fresh
  simp only [Fills] at fills
  simp only [extendTopArenaWilderness, Heap.size_obtain] at extended
  by_cases contiguous : supply.mem = heap.wilderness arena.num +
      heap.largechunkSize (heap.wilderness arena.num)
  · rw [if_pos contiguous] at extended fills
    cases extended
    refine ⟨rfl, ?_, ?_⟩
    · rw [Heap.size_set_size, if_pos rfl]
      exact fills
    · rw [contiguous] at memUnused ⊢
      exact grown_keeps sound topped (by omega) memUnused
  · rw [if_neg contiguous] at extended fills
    by_cases enough : newMem units (heap.largechunkSize (heap.wilderness arena.num)) ≥
        sizeByte (units * Arenas.unitSize)
    · rw [if_pos enough] at extended fills
      cases extended
      refine ⟨(if_pos rfl).symm, ?_, ?_⟩
      · rw [Heap.size_set_prevsize, if_neg (by omega), Heap.size_set_size, if_pos rfl]
        exact fills
      · refine renewed_keeps sound topped memPlaced (by omega) memUnused rfl rfl
          (List.Subset.refl _) rfl (if_pos rfl) ?_
        exact in_arena_cons arena (supply.mem, _) heap.obtained
    · rw [if_neg enough] at extended fills
      obtain ⟨_, mem2Unused⟩ := second contiguous (not_le.mp enough)
      split_ifs at extended with adjacent
      -- the second answer continues the first one, so that both are one segment
      have meets := not_not.mp adjacent
      cases extended
      obtain ⟨less, newUnits, lessOk⟩ := new_mem_units units
        (heap.largechunkSize (heap.wilderness arena.num))
      obtain ⟨more, moreUnits, moreOk⟩ := more_mem_units units
        (newMem units (heap.largechunkSize (heap.wilderness arena.num)))
      have total : (newMem units (heap.largechunkSize (heap.wilderness arena.num)) +
          moreMem units (newMem units (heap.largechunkSize (heap.wilderness arena.num)))) /
          Arenas.unitSize = less + more := by
        rw [newUnits] at moreUnits ⊢
        rw [moreUnits]
        simp only [Arenas.unitSize]
        omega
      rw [total] at fills ⊢
      rw [in_units newUnits] at memUnused meets mem2Unused ⊢
      rw [in_units moreUnits] at mem2Unused ⊢
      refine ⟨(if_pos rfl).symm, ?_, ?_⟩
      · rw [Heap.size_set_prevsize, if_neg (by omega), Heap.size_set_size, if_pos rfl]
        exact fills
      · refine renewed_keeps sound topped memPlaced (by omega) ?_ rfl rfl (List.Subset.refl _) rfl
          (if_pos rfl) ?_
        · intro unit above below inside
          by_cases early : unit < supply.mem + less
          · exact memUnused unit above early inside
          · exact mem2Unused unit (by omega) (by omega)
              ((in_arena_cons arena _ _ unit).mpr (Or.inl inside))
        · intro unit
          refine (in_arena_cons arena (supply.mem2, more) ((supply.mem, less) :: heap.obtained)
            unit).trans ?_
          rw [in_arena_cons, or_assoc]
          refine or_congr_right ?_
          dsimp only
          omega

theorem extend_outcome (top : IsTop arena) (sound : Sound arena heap layout chain)
    (topped : Topped arena heap layout) (wide : 3 ≤ units)
    (short : heap.largechunkSize (heap.wilderness arena.num) < units + 3)
    (fresh : FreshAnswers arena heap units supply) (fills : Fills arena heap units supply)
    (enough : Prop) :
    Outcome (Delivers (Topped arena) arena units layout) enough
      (extendTopArenaWilderness arena supply units heap = none)
      (extendArena arena supply units heap) := by
  rw [extendArena, if_pos top.kind]
  cases extended : extendTopArenaWilderness arena supply units heap with
  | none => exact fun _ => rfl
  | some result =>
      obtain ⟨wilderness, after⟩ := result
      obtain ⟨rfl, room, renewed, nodes, soundNew, toppedNew, keeps⟩ :=
        extension_keeps sound topped wide short fresh fills extended
      exact delivers_after keeps (split_wilderness_delivers soundNew toppedNew wide room)

/-- A tag before the wilderness is that of a free chunk on the list, and the
wilderness swallows it. -/
theorem coalesce_wilderness_keeps (sound : Sound arena heap layout chain)
    (topped : Topped arena heap layout)
    (tagged : heap.largechunkPrevsize (heap.wilderness arena.num) > 0) (fuel : Nat) :
    (∀ result, coalesceWilderness arena fuel heap (heap.wilderness arena.num) = some result →
      result.1 = result.2.wilderness arena.num ∧ ∃ renewed nodes,
        Sound arena result.2 renewed nodes ∧ Topped arena result.2 renewed ∧
        KeepsLive layout renewed) ∧
    (chain.length < fuel → ∃ result,
      coalesceWilderness arena fuel heap (heap.wilderness arena.num) = some result) := by
  obtain ⟨chunk, atWild, isWild⟩ := topped.wild
  have isChunk : chunk.state.IsChunk := Or.inr (Or.inr isWild)
  have sized := (sound.tagged.sized _ chunk atWild isChunk).2
  rcases sound.tagged.begun _ chunk atWild isChunk with untagged | ⟨prevp, previous, atPrev,
    prevFree, adjacent⟩
  · omega
  · have prevClosed : previous.state.IsClosed := Or.inr prevFree
    obtain ⟨prevWide, prevSized⟩ := sound.tagged.sized prevp previous atPrev (Or.inl prevClosed)
    obtain ⟨prevTag, _⟩ := sound.tagged.ended prevp previous atPrev prevClosed
    rw [adjacent, prevFree, tag_free] at prevTag
    have isPrev : heap.wilderness arena.num - previous.size = prevp := by omega
    have member : prevp ∈ chain :=
      (sound.listed.listed prevp).mpr ⟨previous, atPrev, Or.inl prevFree⟩
    have notLive : chunk.state ≠ .live := by
      rw [isWild]
      exact nofun
    -- the walk reads links only, and the new SIZE is none
    have path : Linked (heap.setLargechunkSize prevp
        (previous.size + chunk.size)).largechunkNextfree arena.freelist chain := sound.listed.linked
    simp only [coalesceWilderness, prevTag, isPrev, prevSized, sized]
    cases walked : findPredecessor (heap.setLargechunkSize prevp (previous.size + chunk.size))
        prevp fuel arena.freelist with
    | none =>
        refine ⟨nofun, fun enough => ?_⟩
        obtain ⟨lastp, some⟩ := predecessor_returns fuel path member enough
        rw [walked] at some
        exact nomatch some
    | some lastp =>
        refine ⟨?_, fun _ => ⟨_, rfl⟩⟩
        intro result same
        obtain ⟨front, back, rfl, rfl⟩ := predecessor_found fuel path member walked
        cases same
        refine ⟨(if_pos rfl).symm, layout.merge prevp _ previous chunk atPrev atWild adjacent .wild,
          front ++ back, (sound_merge_wilderness sound atPrev prevFree atWild isWild adjacent).congr
            rfl rfl (List.Subset.refl _), ⟨?_, ⟨⟨previous.size + chunk.size, .wild⟩, ?_, rfl⟩, ?_⟩,
          keeps_live_merge atPrev prevFree atWild notLive adjacent nofun⟩
        · intro unit
          exact (layout.covers_merge atPrev atWild adjacent .wild unit).trans (topped.spans unit)
        · exact (congrArg _ (if_pos rfl)).trans (layout.merge_low atPrev atWild adjacent .wild)
        · intro header block atHeader isRetired
          by_cases isLow : header = prevp
          · subst isLow
            rw [layout.merge_low] at atHeader
            cases atHeader
            exact nomatch isRetired
          · by_cases isHigh : header = heap.wilderness arena.num
            · rw [isHigh, layout.merge_high] at atHeader
              exact nomatch atHeader
            · rw [layout.merge_other atPrev atWild adjacent .wild isLow isHigh] at atHeader
              exact topped.retired header block atHeader isRetired

theorem top_after_coalescing_outcome (top : IsTop arena) (sound : Sound arena heap layout chain)
    (topped : Topped arena heap layout) (wide : 3 ≤ units)
    (short : heap.largechunkSize (heap.wilderness arena.num) < units + 3) {fuel : Nat}
    (answers : ∀ entered, extensionAfterCoalescing arena units fuel heap = some entered →
      FreshAnswers arena entered units supply ∧ Fills arena entered units supply) :
    Outcome (Delivers (Topped arena) arena units layout) (chain.length < fuel)
      (∃ entered, extensionAfterCoalescing arena units fuel heap = some entered ∧
        extendTopArenaWilderness arena supply units entered = none)
      (afterCoalescing arena supply fuel units heap) := by
  simp only [extensionAfterCoalescing, afterCoalescing] at answers ⊢
  by_cases tagged : heap.largechunkPrevsize (heap.wilderness arena.num) > 0
  · simp only [if_pos tagged] at answers ⊢
    obtain ⟨melted, walks⟩ := coalesce_wilderness_keeps sound topped tagged fuel
    cases coalesced : coalesceWilderness arena fuel heap (heap.wilderness arena.num) with
    | none =>
        intro enough
        obtain ⟨result, some⟩ := walks enough
        rw [coalesced] at some
        cases some
    | some result =>
        obtain ⟨wilderness, after⟩ := result
        obtain ⟨isWilderness, renewed, nodes, soundNew, toppedNew, keeps⟩ := melted _ coalesced
        dsimp only at isWilderness
        subst isWilderness
        simp only [coalesced] at answers ⊢
        by_cases large : after.largechunkSize (after.wilderness arena.num) ≥ units + 3
        · simp only [if_pos large]
          exact delivers_after keeps (split_wilderness_delivers soundNew toppedNew wide large)
        · simp only [if_neg large] at answers ⊢
          obtain ⟨fresh, fills⟩ := answers after rfl
          exact (extend_outcome top soundNew toppedNew wide (not_le.mp large) fresh fills _).imp
            (fun _ => delivers_after keeps) id (fun isNone => ⟨after, rfl, isNone⟩)
  · simp only [if_neg tagged] at answers ⊢
    obtain ⟨fresh, fills⟩ := answers heap rfl
    exact (extend_outcome top sound topped wide short fresh fills _).imp (fun _ => id) id
      (fun isNone => ⟨heap, rfl, isNone⟩)

/-- A request that takes no harmful step is served, unless the program ends for
want of contiguous memory. -/
theorem top_malloc_outcome (top : IsTop arena) (sound : Sound arena heap layout chain)
    (topped : Topped arena heap layout) (request : LargeRequest arena units)
    (sbrk : Sbrk arena heap units supply) (unharmed : Unharmed arena heap units supply)
    (fuel : Nat) :
    Outcome (Delivers (Topped arena) arena units layout) (chain.length < fuel)
      (∃ entered, extensionHeap arena units fuel heap = some entered ∧
        extendTopArenaWilderness arena supply units entered = none)
      (mallocLargeChunk arena supply fuel units heap) := by
  have min : 3 ≤ arena.minChunkSize := by
    rw [top.least, top.kind]
    decide
  have wide : 3 ≤ units := le_trans min request
  refine malloc_outcome (topped_stable arena) sound topped wide min topped.retired
    (unharmed.search fuel) ?_
  intro found
  refine after_search_outcome (topped_stable arena) sound topped wide min topped.retired
    (split_wilderness_delivers sound topped wide) (unharmed.coalescing fuel found) ?_
  intro after renewed nodes short coalesced soundAfter toppedAfter rearranges records
  have entered : extensionHeap arena units fuel heap =
      extensionAfterCoalescing arena units fuel after := by
    simp only [extensionHeap, found, coalesced, if_neg (not_le.mpr short)]
    exact if_neg (not_not.mpr rfl)
  have shortAfter : after.largechunkSize (after.wilderness arena.num) < units + 3 := by
    obtain ⟨chunk, atWild, isWild⟩ := toppedAfter.wild
    have isChunk : chunk.state.IsChunk := Or.inr (Or.inr isWild)
    have isOpen : ¬ chunk.state.IsClosed := isWild ▸ wild_not_closed
    have atOld := (rearranges.fixed _ chunk isOpen).mp atWild
    have sized := (soundAfter.tagged.sized _ chunk atWild isChunk).2
    rw [sized, ← (sound.tagged.sized _ chunk atOld isChunk).2, records.2.2]
    exact short
  rw [entered]
  refine top_after_coalescing_outcome top soundAfter toppedAfter wide shortAfter ?_
  intro heap' isHeap
  rw [← entered] at isHeap
  exact ⟨sbrk fuel heap' isHeap, unharmed.extension fuel heap' isHeap⟩

end Steps

/-- No header word outside the memory of the arena has been written, and the
chunks handed out are the arena's own, large enough and apart. -/
structure Safe (arena : Arena) (state : State) : Prop where
  inside : ∀ unit, unit ∈ state.heap.written → InArena arena state.heap.obtained unit
  owner : ∀ header, header ∈ state.headers → state.heap.largechunkArena header = arena.self
  large : ∀ entry, entry ∈ state.live → entry.2 ≤ state.heap.largechunkSize entry.1
  apart : state.live.Pairwise (fun first second =>
    first.1 + state.heap.largechunkSize first.1 ≤ second.1 ∨
      second.1 + state.heap.largechunkSize second.1 ≤ first.1)

/-- The invariant behind it. -/
def Valid (arena : Arena) (state : State) : Prop :=
  ∃ layout chain, Sound arena state.heap layout chain ∧ Topped arena state.heap layout ∧
    Owns state.live layout

section Runs

variable {arena : Arena} {state : State}

theorem valid_safe (valid : Valid arena state) : Safe arena state := by
  obtain ⟨layout, chain, sound, topped, owns⟩ := valid
  refine ⟨fun unit written => (topped.spans unit).mp (sound.inside unit written), ?_,
    held_large sound owns, held_apart sound owns⟩
  intro header held
  obtain ⟨chunk, atHeader, isLive⟩ := (owns.headers header).mp held
  exact sound.tagged.owned header chunk atHeader (Or.inl isLive)

theorem wilderness_only_valid {units : Int} (initial : WildernessOnly arena units state) :
    Valid arena state := by
  have unused : ∀ unit, state.heap.wilderness arena.num ≤ unit →
      unit < state.heap.wilderness arena.num + units →
      ¬ (dummyLayout arena.freelist).Covers unit := by
    rintro unit above below ⟨start, block, atStart, low, high⟩
    obtain ⟨rfl, rfl⟩ := dummy_layout_block atStart
    have apart := initial.apart
    dsimp only at high
    omega
  have wide := initial.wide
  have nonempty : 0 < units := by omega
  -- the header of the wilderness is there already; writing it again changes nothing
  have same : (((state.heap.setLargechunkSize (state.heap.wilderness arena.num)
      units).setLargechunkPrevsize (state.heap.wilderness arena.num) (-1)).first) =
      state.heap.first := by
    funext unit
    rw [Heap.first_set_prevsize, Heap.first_set_size]
    split_ifs with isStart isSize
    · rw [isStart]
      exact initial.wildPrevsize.symm
    · rw [isSize]
      exact initial.wildSize.symm
    · rfl
  have dummy := dummy_sound initial.placed initial.size initial.prevsize initial.nextfree
    initial.written
  have noWrites : state.heap.written ⊆ ((state.heap.setLargechunkSize
      (state.heap.wilderness arena.num) units).setLargechunkPrevsize
      (state.heap.wilderness arena.num) (-1)).written := by
    rw [initial.written]
    exact List.nil_subset _
  have sound := (sound_new_wilderness dummy initial.fresh wide nonempty unused).congr same.symm rfl
    noWrites
  have block : ∀ start block, ((dummyLayout arena.freelist).insert
      (state.heap.wilderness arena.num) ⟨units, .wild⟩ nonempty unused).block start = some block →
      (start = state.heap.wilderness arena.num ∧ block.state = .wild) ∨
        (start = arena.freelist ∧ block.state = .dummy) := by
    intro start block atStart
    rw [Layout.insert_block] at atStart
    split_ifs at atStart with isWild
    · cases atStart
      exact Or.inl ⟨isWild, rfl⟩
    · obtain ⟨isDummy, rfl⟩ := dummy_layout_block atStart
      exact Or.inr ⟨isDummy, rfl⟩
  refine ⟨_, [], sound, ⟨?_, ⟨⟨units, .wild⟩, ?_, rfl⟩, ?_⟩, ?_⟩
  · intro unit
    rw [Layout.covers_insert, dummy_spans arena unit, initial.obtained]
    exact (in_arena_cons arena (state.heap.wilderness arena.num, units) [] unit).symm
  · rw [Layout.insert_block, if_pos rfl]
  · intro header chunk atHeader isRetired
    rcases block header chunk atHeader with ⟨_, isWild⟩ | ⟨_, isDummy⟩
    · rw [isRetired] at isWild
      exact nomatch isWild
    · rw [isRetired] at isDummy
      exact nomatch isDummy
  · rw [initial.live]
    refine ⟨?_, List.nodup_nil, fun entry held => absurd held List.not_mem_nil⟩
    intro header
    refine iff_of_false List.not_mem_nil ?_
    rintro ⟨chunk, atHeader, isLive⟩
    rcases block header chunk atHeader with ⟨_, isWild⟩ | ⟨_, isDummy⟩
    · rw [isLive] at isWild
      exact nomatch isWild
    · rw [isLive] at isDummy
      exact nomatch isDummy

theorem valid_step (top : IsTop arena) (arenaAt : Int → Arena) (before : State) (label : Label)
    (after : State) (valid : Valid arena before)
    (step : Step arena arenaAt (LargeRequest arena)
      (fun heap units supply => Sbrk arena heap units supply ∧ Unharmed arena heap units supply)
      before label after) : Valid arena after := by
  obtain ⟨layout, chain, sound, topped, owns⟩ := valid
  cases step with
  | malloc units pointer supply fuel heap request answers returned =>
      have outcome := top_malloc_outcome top sound topped request answers.1 answers.2 fuel
      rw [returned] at outcome
      obtain ⟨renewed, nodes, soundNew, toppedNew, serves⟩ := outcome
      exact ⟨renewed, nodes, soundNew, toppedNew, owns_served owns serves⟩
  | free pointer held =>
      obtain ⟨chunk, atHeader, isLive, freed⟩ :=
        free_large_chunk sound owns top.aligned arenaAt held
      rw [freed]
      exact ⟨_, _, sound_free sound atHeader isLive, topped_stable arena _ _ _ _ topped
        (rearranges_retag atHeader (Or.inl isLive) status_free_closed) ⟨rfl, rfl, rfl⟩,
        owns_freed owns atHeader⟩
  | store first second kept =>
      exact ⟨layout, chain, sound_store sound topped.spans owns kept,
        ⟨topped.spans, topped.wild, topped.retired⟩, owns⟩

/-- In a run whose requests take no harmful step the arena stays safe, and the
next such request is served unless the program ends for want of contiguous
memory. -/
theorem unharmed_run_safe (arena : Arena) (top : IsTop arena) (arenaAt : Int → Arena)
    (units : Int) (start after : State) (labels : List Label)
    (initial : WildernessOnly arena units start)
    (run : Run (Step arena arenaAt (LargeRequest arena)
      (fun heap units supply => Sbrk arena heap units supply ∧ Unharmed arena heap units supply))
      start labels after) :
    Safe arena after ∧ ∀ units supply, LargeRequest arena units →
      Sbrk arena after.heap units supply → Unharmed arena after.heap units supply →
      ∃ needed, ∀ fuel, needed < fuel →
        (∃ result, mallocLargeChunk arena supply fuel units after.heap = some result) ∨
          ∃ entered, extensionHeap arena units fuel after.heap = some entered ∧
            extendTopArenaWilderness arena supply units entered = none := by
  have valid := run.invariant (Valid arena) (valid_step top arenaAt) (wilderness_only_valid initial)
  refine ⟨valid_safe valid, ?_⟩
  obtain ⟨layout, chain, sound, topped, owns⟩ := valid
  intro units supply request sbrk unharmed
  refine ⟨chain.length, fun fuel enough => ?_⟩
  have outcome := top_malloc_outcome top sound topped request sbrk unharmed fuel
  cases result : mallocLargeChunk arena supply fuel units after.heap with
  | none =>
      rw [result] at outcome
      exact Or.inr (outcome enough)
  | some value => exact Or.inl ⟨value, rfl⟩

end Runs

section Example

def arena8 : Arena := ⟨8, 4096, 16, 0, 8193⟩

/-- The top arena after SAC_HM_SetupMaster with 1 MB at unit 1000. -/
def setUp : State where
  heap :=
    { first := fun unit => if unit = 16 then -1 else if unit = 1000 then -1
        else if unit = 1001 then 65536 else 0
      second := fun unit => if unit = 1001 then 4096 else 0
      wilderness := fun _ => 1000
      written := []
      obtained := [(1000, 65536)]
      retired := [] }
  live := []

theorem arena8_is_top : IsTop arena8 := ⟨rfl, rfl, by decide⟩

theorem set_up_wilderness_only : WildernessOnly arena8 65536 setUp :=
  ⟨by decide, rfl, rfl, rfl, by decide, by decide, by decide, rfl, rfl, rfl, rfl, rfl⟩

/-- 65536 units do not fit into the first wilderness, whose last three units are
kept; the call asks for 1 MB, just the units of the request. -/
theorem set_up_answers : Sbrk arena8 setUp.heap 65536 ⟨0, 100000, 0⟩ := by
  intro fuel entered isEntered
  cases fuel with
  | zero => exact nomatch isEntered
  | succ fuel =>
      have there : extensionHeap arena8 65536 (fuel + 1) setUp.heap = some setUp.heap := rfl
      rw [there] at isEntered
      cases isEntered
      refine ⟨⟨by decide, ?_⟩, fun _ less => absurd less (by decide)⟩
      rintro unit above below (⟨segment, member, inside⟩ | ⟨_, dummy⟩)
      · cases List.mem_singleton.mp member
        have high : unit < 66536 := inside.2
        have low : 100000 ≤ unit := above
        omega
      · have high : unit < 19 := dummy
        have low : 100000 ≤ unit := above
        omega

theorem tight_segment_unsafe :
    IsTop arena8 ∧ WildernessOnly arena8 65536 setUp ∧ ∃ after,
      Run (Step arena8 (fun _ => arena8) (LargeRequest arena8) (Sbrk arena8)) setUp
        [.malloc 65536 ⟨0, 100000, 0⟩ 100002] after ∧ ¬ Safe arena8 after := by
  refine ⟨arena8_is_top, set_up_wilderness_only, _, Run.next (Step.malloc setUp 65536 100002
    ⟨0, 100000, 0⟩ 1 _ (show (8193 : Int) ≤ 65536 by decide) set_up_answers rfl) (Run.refl _), ?_⟩
  intro safe
  -- the SIZE of the wilderness behind the request
  rcases safe.inside 165537 (by decide) with ⟨segment, member, inside⟩ | ⟨_, dummy⟩
  · have either : segment ∈ [((100000 : Int), (65536 : Int)), (1000, 65536)] := member
    rcases List.mem_cons.mp either with rfl | last
    · exact absurd inside.2 (by decide)
    · cases List.mem_singleton.mp last
      exact absurd inside.2 (by decide)
  · exact absurd dummy (by decide)

/-- A request cut from the first wilderness needs no answer and meets no chunk. -/
theorem first_request_unharmed :
    Sbrk arena8 setUp.heap 8193 ⟨0, 0, 0⟩ ∧ Unharmed arena8 setUp.heap 8193 ⟨0, 0, 0⟩ := by
  have never : ∀ fuel entered, extensionHeap arena8 8193 fuel setUp.heap ≠ some entered := by
    intro fuel entered
    cases fuel with
    | zero => exact nofun
    | succ fuel =>
        have there : extensionHeap arena8 8193 (fuel + 1) setUp.heap = none := rfl
        rw [there]
        exact nofun
  refine ⟨fun fuel entered isEntered => absurd isEntered (never fuel entered), ⟨?_, ?_, ?_⟩⟩
  · intro fuel found _
    cases found <;> exact List.not_mem_nil
  · exact fun fuel _ _ => coalescing_avoids_none 8193 fuel setUp.heap _ _
  · exact fun fuel entered isEntered => absurd isEntered (never fuel entered)

theorem unharmed_run_safe_first_request :
    ∃ after, Run (Step arena8 (fun _ => arena8) (LargeRequest arena8)
        (fun heap units supply => Sbrk arena8 heap units supply ∧
          Unharmed arena8 heap units supply)) setUp
        [.malloc 8193 ⟨0, 0, 0⟩ 1002, .free 1002] after ∧ Safe arena8 after := by
  have run : ∃ after, Run (Step arena8 (fun _ => arena8) (LargeRequest arena8)
      (fun heap units supply => Sbrk arena8 heap units supply ∧
        Unharmed arena8 heap units supply)) setUp
      [.malloc 8193 ⟨0, 0, 0⟩ 1002, .free 1002] after :=
    ⟨_, Run.next (Step.malloc setUp 8193 1002 ⟨0, 0, 0⟩ 1 _
      (show (8193 : Int) ≤ 8193 by decide) first_request_unharmed rfl)
      (Run.next (Step.free _ 1002 (List.mem_singleton.mpr rfl)) (Run.refl _))⟩
  obtain ⟨after, run⟩ := run
  exact ⟨after, run, (unharmed_run_safe arena8 arena8_is_top _ 65536 setUp after _
    set_up_wilderness_only run).1⟩

end Example

end Sac2c.TopArena
