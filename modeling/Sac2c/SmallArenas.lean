import Sac2c.ArenaOfArenas
import Mathlib.Logic.Function.Basic

/-!
The small-chunk arenas 1 to 4. A bin falls into chunks of one size, live or
free, and the wilderness they are cut from; its size stays a multiple of theirs.
The words of a piece and of a dummy entry are written by their own arena only,
so what one arena does leaves the others in order.
-/

namespace Sac2c.SmallArenas

open Headers SmallChunks Blocks Links ArenaOfArenas Trace

inductive Use where
  | wild
  | live
  | free

structure Piece where
  num : Nat
  use : Use

/-- The pieces of the small arenas' bins and what their words say. -/
structure Stocked (arenas : Nat → Arena) (heap : Heap) (bins : Layout Share)
    (pieces : Layout Piece) (chains : Nat → List Int) : Prop where
  within : ∀ start piece, pieces.block start = some piece → IsSmall piece.state.num ∧
    ∃ bin found, bins.block bin = some found ∧ found.state = .bin piece.state.num ∧
      bin ≤ start ∧ start + piece.size ≤ bin + found.size
  chunk : ∀ start piece, pieces.block start = some piece → piece.state.use ≠ .wild →
    piece.size = chunkUnits piece.state.num ∧
      heap.smallchunkArena start = (arenas piece.state.num).self
  wild : ∀ start piece, pieces.block start = some piece → piece.state.use = .wild →
    start = heap.wilderness piece.state.num ∧ heap.smallchunkSize start = piece.size ∧
      chunkUnits piece.state.num ∣ piece.size
  wilderness : ∀ num, IsSmall num → heap.wilderness num = (arenas num).freelist ∨
    ∃ size, pieces.block (heap.wilderness num) = some ⟨size, ⟨num, .wild⟩⟩
  dummy : ∀ num, IsSmall num → bins.block (arenas num).freelist = some ⟨3, .dummy⟩ ∧
    heap.smallchunkSize (arenas num).freelist = 0
  linked : ∀ num, IsSmall num →
    Linked heap.smallchunkNextfree (arenas num).freelist (chains num)
  distinct : ∀ num, IsSmall num → (chains num).Nodup
  listed : ∀ num, IsSmall num → ∀ header, header ∈ chains num ↔
    ∃ size, pieces.block header = some ⟨size, ⟨num, .free⟩⟩

/-- Where a link of arena `num` may be stored: in its dummy entry or a piece. -/
def IsEntry (arenas : Nat → Arena) (pieces : Layout Piece) (num : Nat) (entry : Int) : Prop :=
  entry = (arenas num).freelist ∨
    ∃ piece, pieces.block entry = some piece ∧ piece.state.num = num

section Pieces

variable {arenas : Nat → Arena} {heap : Heap} {bins : Layout Share} {pieces : Layout Piece}
  {chains : Nat → List Int} {num : Nat}

theorem small_units (thread : IsThread arenas) (small : IsSmall num) :
    2 ≤ chunkUnits num ∧ chunkUnits num < (arenas num).binsize ∧
      chunkUnits num ∣ (arenas num).binsize := by
  obtain ⟨low, high⟩ := small
  rw [thread.binsize num (by omega)]
  have cases : num = 1 ∨ num = 2 ∨ num = 3 ∨ num = 4 := by omega
  rcases cases with rfl | rfl | rfl | rfl <;> decide

/-- Every piece has room for a header and a link. -/
theorem Stocked.wide (stocked : Stocked arenas heap bins pieces chains)
    (thread : IsThread arenas) {start : Int} {piece : Block Piece}
    (atStart : pieces.block start = some piece) :
    chunkUnits piece.state.num ≤ piece.size ∧ 2 ≤ piece.size := by
  have units := (small_units thread (stocked.within start piece atStart).1).1
  have size := pieces.nonempty start piece atStart
  by_cases isWild : piece.state.use = .wild
  · have atLeast := Int.le_of_dvd size (stocked.wild start piece atStart isWild).2.2
    exact ⟨atLeast, by omega⟩
  · have exactly := (stocked.chunk start piece atStart isWild).1
    exact ⟨by omega, by omega⟩

/-- The dummy entries lie outside the bins. -/
theorem Stocked.dummy_clear (stocked : Stocked arenas heap bins pieces chains) {start : Int}
    {piece : Block Piece} (atStart : pieces.block start = some piece) (small : IsSmall num) :
    start + piece.size ≤ (arenas num).freelist ∨ (arenas num).freelist + 3 ≤ start := by
  obtain ⟨_, bin, found, atBin, isBin, above, ends⟩ := stocked.within start piece atStart
  have atDummy := (stocked.dummy num small).1
  have differ : bin ≠ (arenas num).freelist := by
    rintro rfl
    rw [atDummy] at atBin
    cases atBin
    exact nomatch isBin
  rcases bins.apart_or atBin atDummy differ with before | after
  · exact Or.inl (by omega)
  · exact Or.inr (by dsimp only at after; omega)

theorem Stocked.chain_entry (stocked : Stocked arenas heap bins pieces chains)
    (small : IsSmall num) {entry : Int}
    (isEntry : entry = (arenas num).freelist ∨ entry ∈ chains num) :
    IsEntry arenas pieces num entry := by
  rcases isEntry with isDummy | member
  · exact Or.inl isDummy
  · obtain ⟨size, atEntry⟩ := (stocked.listed num small entry).mp member
    exact Or.inr ⟨_, atEntry, rfl⟩

/-- Two arenas share no entry. -/
theorem Stocked.entries_differ (stocked : Stocked arenas heap bins pieces chains)
    (thread : IsThread arenas) {low high : Nat} (lowSmall : IsSmall low)
    (highSmall : IsSmall high) (differ : low ≠ high) {first second : Int}
    (isFirst : IsEntry arenas pieces low first) (isSecond : IsEntry arenas pieces high second) :
    first ≠ second := by
  rintro rfl
  rcases isFirst with firstDummy | ⟨piece, atPiece, isLow⟩
  · rcases isSecond with secondDummy | ⟨other, atOther, _⟩
    · have apart := thread.apart low high lowSmall.2 highSmall.2 differ
      omega
    · have clear := stocked.dummy_clear atOther lowSmall
      have size := pieces.nonempty first other atOther
      omega
  · rcases isSecond with secondDummy | ⟨other, atOther, isHigh⟩
    · have clear := stocked.dummy_clear atPiece highSmall
      have size := pieces.nonempty first piece atPiece
      omega
    · rw [atPiece] at atOther
      cases atOther
      exact differ (isLow.symm.trans isHigh)

/-- A link lies in its entry, behind the first unit of any piece. -/
theorem Stocked.start_not_link (stocked : Stocked arenas heap bins pieces chains)
    (thread : IsThread arenas) (small : IsSmall num) {entry start : Int} {piece : Block Piece}
    (isEntry : IsEntry arenas pieces num entry) (atStart : pieces.block start = some piece) :
    start ≠ entry + 1 := by
  rintro rfl
  rcases isEntry with isDummy | ⟨other, atOther, _⟩
  · have clear := stocked.dummy_clear atStart small
    have size := pieces.nonempty _ piece atStart
    omega
  · have wide := (stocked.wide thread atOther).2
    rw [pieces.block_inside atOther (by omega) (by omega)] at atStart
    exact nomatch atStart

/-- Only the headers of pieces, the links of free chunks and the dummy entries
count, and of the bins only that they are there. -/
theorem Stocked.frame (stocked : Stocked arenas heap bins pieces chains) {after : Heap}
    {renewed : Layout Share}
    (kept : ∀ start found, found.state ≠ .free → bins.block start = some found →
      renewed.block start = some found)
    (wilderness : after.wilderness = heap.wilderness)
    (headers : ∀ start piece, pieces.block start = some piece →
      after.first start = heap.first start ∧ after.second start = heap.second start)
    (links : ∀ start piece, pieces.block start = some piece → piece.state.use = .free →
      after.second (start + 1) = heap.second (start + 1))
    (dummies : ∀ num, IsSmall num →
      after.first (arenas num).freelist = heap.first (arenas num).freelist ∧
        after.second ((arenas num).freelist + 1) = heap.second ((arenas num).freelist + 1)) :
    Stocked arenas after renewed pieces chains where
  within := by
    intro start piece atStart
    obtain ⟨small, bin, found, atBin, isBin, inside⟩ := stocked.within start piece atStart
    refine ⟨small, bin, found, kept bin found ?_ atBin, isBin, inside⟩
    rw [isBin]
    exact nofun
  chunk := by
    intro start piece atStart notWild
    obtain ⟨size, owner⟩ := stocked.chunk start piece atStart notWild
    exact ⟨size, (headers start piece atStart).2.trans owner⟩
  wild := by
    intro start piece atStart isWild
    obtain ⟨same, size, whole⟩ := stocked.wild start piece atStart isWild
    rw [wilderness]
    exact ⟨same, (headers start piece atStart).1.trans size, whole⟩
  wilderness := by
    rw [wilderness]
    exact stocked.wilderness
  dummy := by
    intro num small
    obtain ⟨atDummy, size⟩ := stocked.dummy num small
    exact ⟨kept _ _ nofun atDummy, (dummies num small).1.trans size⟩
  linked := by
    intro num small
    refine reaches_congr (stocked.linked num small) ?_
    rintro entry (rfl | member)
    · exact (dummies num small).2
    · obtain ⟨size, atEntry⟩ := (stocked.listed num small entry).mp member
      exact links entry _ atEntry rfl
  distinct := stocked.distinct
  listed := stocked.listed

/-- A chunk of arena `num` changes between live and free, and links of that
arena are the only words written. -/
theorem Stocked.relinked (stocked : Stocked arenas heap bins pieces chains)
    (thread : IsThread arenas) (small : IsSmall num) {header : Int} {piece : Block Piece}
    (atHeader : pieces.block header = some piece) (isNum : piece.state.num = num)
    (notWild : piece.state.use ≠ .wild) {use : Use} (staysChunk : use ≠ .wild) (changed : Heap)
    (first : changed.first = heap.first) (wilderness : changed.wilderness = heap.wilderness)
    (second : ∀ unit, (∀ entry, IsEntry arenas pieces num entry → unit ≠ entry + 1) →
      changed.second unit = heap.second unit)
    {nodes : List Int} (linked : Linked changed.smallchunkNextfree (arenas num).freelist nodes)
    (distinct : nodes.Nodup)
    (listed : ∀ start, start ∈ nodes ↔ ∃ size,
      (pieces.retag header piece atHeader ⟨num, use⟩).block start = some ⟨size, ⟨num, .free⟩⟩) :
    Stocked arenas changed bins (pieces.retag header piece atHeader ⟨num, use⟩)
      (Function.update chains num nodes) := by
  -- a header word is no link
  have owners : ∀ start block, pieces.block start = some block →
      changed.second start = heap.second start :=
    fun start block atStart => second start
      (fun entry isEntry => stocked.start_not_link thread small isEntry atStart)
  constructor
  case within =>
    intro start block atStart
    rcases pieces.retag_cases atHeader _ atStart with ⟨rfl, rfl⟩ | ⟨_, old⟩
    · have inside := stocked.within start piece atHeader
      rw [isNum] at inside
      exact inside
    · exact stocked.within start block old
  case chunk =>
    intro start block atStart isChunk
    rcases pieces.retag_cases atHeader _ atStart with ⟨rfl, rfl⟩ | ⟨_, old⟩
    · obtain ⟨size, owner⟩ := stocked.chunk start piece atHeader notWild
      rw [isNum] at size owner
      exact ⟨size, (owners start piece atHeader).trans owner⟩
    · obtain ⟨size, owner⟩ := stocked.chunk start block old isChunk
      exact ⟨size, (owners start block old).trans owner⟩
  case wild =>
    intro start block atStart isWild
    rcases pieces.retag_cases atHeader _ atStart with ⟨_, rfl⟩ | ⟨_, old⟩
    · exact absurd isWild staysChunk
    · obtain ⟨same, size, whole⟩ := stocked.wild start block old isWild
      rw [wilderness]
      exact ⟨same, (congrFun first start).trans size, whole⟩
  case wilderness =>
    intro other otherSmall
    rw [wilderness]
    rcases stocked.wilderness other otherSmall with isDummy | ⟨size, atWild⟩
    · exact Or.inl isDummy
    · refine Or.inr ⟨size, ?_⟩
      rw [pieces.retag_other atHeader _ ?_]
      · exact atWild
      · intro same
        rw [same, atHeader] at atWild
        cases atWild
        exact notWild rfl
  case dummy =>
    intro other otherSmall
    obtain ⟨atDummy, size⟩ := stocked.dummy other otherSmall
    exact ⟨atDummy, (congrFun first _).trans size⟩
  case linked =>
    intro other otherSmall
    by_cases same : other = num
    · subst same
      rw [Function.update_self]
      exact linked
    · rw [Function.update_of_ne same]
      refine reaches_congr (stocked.linked other otherSmall) ?_
      intro entry member
      refine second (entry + 1) ?_
      intro link isEntry equal
      have isOther := stocked.chain_entry otherSmall member
      exact stocked.entries_differ thread otherSmall small same isOther isEntry (by omega)
  case distinct =>
    intro other otherSmall
    by_cases same : other = num
    · subst same
      rw [Function.update_self]
      exact distinct
    · rw [Function.update_of_ne same]
      exact stocked.distinct other otherSmall
  case listed =>
    intro other otherSmall start
    by_cases same : other = num
    · subst same
      rw [Function.update_self]
      exact listed start
    · rw [Function.update_of_ne same, stocked.listed other otherSmall]
      refine (pieces.retag_with_state atHeader _ ?_ ?_ start).symm
      · intro isFree
        rw [isFree] at isNum
        exact same isNum
      · intro isFree
        exact same (congrArg Piece.num isFree).symm

/-- The first chunk of the list becomes live. -/
theorem Stocked.pop (stocked : Stocked arenas heap bins pieces chains)
    (thread : IsThread arenas) (small : IsSmall num) {header : Int} {rest : List Int}
    (chain : chains num = header :: rest) {size : Int}
    (atHeader : pieces.block header = some ⟨size, ⟨num, .free⟩⟩) :
    Stocked arenas (heap.setSmallchunkNextfree (arenas num).freelist
        (heap.smallchunkNextfree header)) bins
      (pieces.retag header _ atHeader ⟨num, .live⟩) (Function.update chains num rest) := by
  have path := stocked.linked num small
  have distinct := stocked.distinct num small
  rw [chain] at path distinct
  obtain ⟨absent, distinctRest⟩ := List.nodup_cons.mp distinct
  have dummyAbsent : (arenas num).freelist ∉ header :: rest := by
    intro member
    rw [← chain] at member
    obtain ⟨other, atDummy⟩ := (stocked.listed num small _).mp member
    have clear := stocked.dummy_clear atDummy small
    have positive := pieces.nonempty _ _ atDummy
    omega
  have isFree : Use.free ≠ .wild := nofun
  have isLive : Use.live ≠ .wild := nofun
  refine stocked.relinked thread small atHeader rfl isFree isLive
    (heap.setSmallchunkNextfree (arenas num).freelist (heap.smallchunkNextfree header)) rfl rfl
    ?_ ?_ distinctRest ?_
  · intro unit notLink
    exact if_neg (notLink _ (Or.inl rfl))
  · have entries : ((arenas num).freelist :: ([] ++ header :: rest)).Nodup :=
      List.nodup_cons.mpr ⟨dummyAbsent, distinct⟩
    refine linked_unlink path entries ?_ ?_
    · exact (Heap.small_nextfree_set_nextfree ..).trans (if_pos rfl)
    · intro entry differ
      exact (Heap.small_nextfree_set_nextfree ..).trans (if_neg differ)
  · intro start
    have before := stocked.listed num small start
    rw [chain, List.mem_cons] at before
    by_cases same : start = header
    · subst same
      refine iff_of_false absent ?_
      rintro ⟨other, atStart⟩
      rw [pieces.retag_self] at atStart
      cases atStart
    · rw [pieces.retag_other atHeader _ same, ← before]
      exact ⟨Or.inr, fun either => either.resolve_left same⟩

/-- A live chunk goes on top of the list. -/
theorem Stocked.push (stocked : Stocked arenas heap bins pieces chains)
    (thread : IsThread arenas) (small : IsSmall num) {header size : Int} (placed : 0 < header)
    (atHeader : pieces.block header = some ⟨size, ⟨num, .live⟩⟩) :
    Stocked arenas (doFreeSmallChunk (arenas num) heap header) bins
      (pieces.retag header _ atHeader ⟨num, .free⟩)
      (Function.update chains num (header :: chains num)) := by
  have notDummy : header ≠ (arenas num).freelist := by
    have clear := stocked.dummy_clear atHeader small
    have positive := pieces.nonempty _ _ atHeader
    omega
  have absent : header ∉ chains num := by
    intro member
    obtain ⟨other, atOther⟩ := (stocked.listed num small header).mp member
    rw [atHeader] at atOther
    cases atOther
  have isHeader : IsEntry arenas pieces num header := Or.inr ⟨_, atHeader, rfl⟩
  have isFree : Use.free ≠ .wild := nofun
  have isLive : Use.live ≠ .wild := nofun
  refine stocked.relinked thread small atHeader rfl isLive isFree
    (doFreeSmallChunk (arenas num) heap header) rfl rfl ?_ ?_
    (List.nodup_cons.mpr ⟨absent, stocked.distinct num small⟩) ?_
  · intro unit notLink
    exact (if_neg (notLink _ (Or.inl rfl))).trans (if_neg (notLink _ isHeader))
  · refine linked_push (stocked.linked num small) (by omega) ?_ ?_ ?_
    · exact (Heap.small_nextfree_set_nextfree ..).trans (if_pos rfl)
    · rw [doFreeSmallChunk, Heap.small_nextfree_set_nextfree, if_neg notDummy,
        Heap.small_nextfree_set_nextfree, if_pos rfl]
    · intro entry member
      have entryDiffers : entry ≠ (arenas num).freelist := by
        rintro rfl
        obtain ⟨other, atDummy⟩ := (stocked.listed num small _).mp member
        have clear := stocked.dummy_clear atDummy small
        have positive := pieces.nonempty _ _ atDummy
        omega
      have notHeader : entry ≠ header := fun same => absent (same ▸ member)
      rw [doFreeSmallChunk, Heap.small_nextfree_set_nextfree, if_neg entryDiffers,
        Heap.small_nextfree_set_nextfree, if_neg notHeader]
  · intro start
    rw [List.mem_cons, stocked.listed num small]
    by_cases same : start = header
    · subst same
      rw [pieces.retag_self]
      exact iff_of_true (Or.inl rfl) ⟨size, rfl⟩
    · rw [pieces.retag_other atHeader _ same]
      exact ⟨fun either => either.resolve_left same, Or.inr⟩

/-- The links of the free lists lie outside a wilderness. -/
theorem Stocked.link_clear (stocked : Stocked arenas heap bins pieces chains)
    (thread : IsThread arenas) {start : Int} {piece : Block Piece}
    (atStart : pieces.block start = some piece) (isWild : piece.state.use = .wild)
    (small : IsSmall num) {entry : Int}
    (isEntry : entry = (arenas num).freelist ∨ entry ∈ chains num) :
    entry + 2 ≤ start ∨ start + piece.size ≤ entry := by
  rcases isEntry with rfl | member
  · have clear := stocked.dummy_clear atStart small
    omega
  · obtain ⟨size, atEntry⟩ := (stocked.listed num small entry).mp member
    have wide := (stocked.wide thread atEntry).2
    have differ : entry ≠ start := by
      rintro rfl
      rw [atEntry] at atStart
      cases atStart
      exact nomatch isWild
    rcases pieces.apart_or atEntry atStart differ with before | after
    · exact Or.inl (by omega)
    · exact Or.inr after

/-- A chunk is cut from the top of the wilderness. -/
theorem Stocked.split (stocked : Stocked arenas heap bins pieces chains)
    (thread : IsThread arenas) (small : IsSmall num) {wilderness size units : Int}
    (atWild : pieces.block wilderness = some ⟨size, ⟨num, .wild⟩⟩)
    (isUnits : units = chunkUnits num) (lowSize : 0 < size - units)
    (highSize : 0 < units) (sum : size - units + units = size) :
    Stocked arenas ((heap.setSmallchunkSize wilderness (size - units)).setSmallchunkArena
        (wilderness + (size - units)) (arenas num).self) bins
      (pieces.split wilderness _ atWild ⟨size - units, ⟨num, .wild⟩⟩ ⟨units, ⟨num, .live⟩⟩
        lowSize highSize sum) chains := by
  have low := pieces.split_low ⟨size - units, ⟨num, .wild⟩⟩ ⟨units, ⟨num, .live⟩⟩ atWild lowSize
    highSize sum
  obtain ⟨isWilderness, sized, whole⟩ := stocked.wild wilderness _ atWild rfl
  have pieceOf : ∀ start piece, (pieces.split wilderness _ atWild ⟨size - units, ⟨num, .wild⟩⟩
      ⟨units, ⟨num, .live⟩⟩ lowSize highSize sum).block start = some piece →
      (start = wilderness ∧ piece = ⟨size - units, ⟨num, .wild⟩⟩) ∨
      (start = wilderness + (size - units) ∧ piece = ⟨units, ⟨num, .live⟩⟩) ∨
      ((start < wilderness ∨ wilderness + size ≤ start) ∧ pieces.block start = some piece) :=
    fun start piece => pieces.split_cases _ _ atWild lowSize highSize sum
  -- only the wilderness is written, and neither a dummy nor an entry of a chain lies in it
  have clear : ∀ other, IsSmall other → ∀ entry,
      (entry = (arenas other).freelist ∨ entry ∈ chains other) →
      entry + 2 ≤ wilderness ∨ wilderness + size ≤ entry :=
    fun _ otherSmall _ isEntry => stocked.link_clear thread atWild rfl otherSmall isEntry
  have within := stocked.within wilderness _ atWild
  constructor
  case within =>
    intro start piece atStart
    obtain ⟨_, bin, found, atBin, isBin, above, ends⟩ := within
    dsimp only at ends
    rcases pieceOf start piece atStart with ⟨rfl, rfl⟩ | ⟨rfl, rfl⟩ | ⟨_, old⟩
    · exact ⟨small, bin, found, atBin, isBin, above, by dsimp only; omega⟩
    · exact ⟨small, bin, found, atBin, isBin, by omega, by dsimp only; omega⟩
    · exact stocked.within start piece old
  case chunk =>
    intro start piece atStart notWild
    rw [Heap.small_arena_set_arena, Heap.small_arena_set_size]
    rcases pieceOf start piece atStart with ⟨rfl, rfl⟩ | ⟨rfl, rfl⟩ | ⟨out, old⟩
    · exact absurd rfl notWild
    · exact ⟨isUnits, if_pos rfl⟩
    · rw [if_neg (by omega)]
      exact stocked.chunk start piece old notWild
  case wild =>
    intro start piece atStart isWild
    rw [Heap.small_size_set_arena, Heap.small_size_set_size]
    rcases pieceOf start piece atStart with ⟨rfl, rfl⟩ | ⟨rfl, rfl⟩ | ⟨out, old⟩
    · refine ⟨isWilderness, if_pos rfl, ?_⟩
      rw [isUnits]
      exact Int.dvd_sub whole (Int.dvd_refl _)
    · exact nomatch isWild
    · rw [if_neg (by omega)]
      exact stocked.wild start piece old isWild
  case wilderness =>
    intro other otherSmall
    rcases stocked.wilderness other otherSmall with isDummy | ⟨otherSize, atOther⟩
    · exact Or.inl isDummy
    · by_cases same : heap.wilderness other = wilderness
      · have isWild : pieces.block wilderness = some ⟨otherSize, ⟨other, .wild⟩⟩ := same ▸ atOther
        rw [atWild] at isWild
        cases isWild
        exact Or.inr ⟨size - units, (congrArg _ same).trans low⟩
      · exact Or.inr ⟨otherSize, pieces.split_old _ _ atWild lowSize highSize sum atOther same⟩
  case dummy =>
    intro other otherSmall
    obtain ⟨atDummy, idle⟩ := stocked.dummy other otherSmall
    have away := clear other otherSmall _ (Or.inl rfl)
    rw [Heap.small_size_set_arena, Heap.small_size_set_size, if_neg (by omega)]
    exact ⟨atDummy, idle⟩
  case linked =>
    intro other otherSmall
    refine reaches_congr (stocked.linked other otherSmall) ?_
    intro entry isEntry
    have away := clear other otherSmall entry isEntry
    rw [Heap.small_nextfree_set_arena, Heap.small_nextfree_set_size,
      if_neg (by omega)]
  case distinct => exact stocked.distinct
  case listed =>
    intro other otherSmall header
    rw [stocked.listed other otherSmall]
    refine (pieces.split_with_state ⟨size - units, ⟨num, .wild⟩⟩ ⟨units, ⟨num, .live⟩⟩ atWild
      lowSize highSize sum ?_ ?_ ?_ header).symm <;> exact nofun

/-- The whole wilderness becomes a chunk. -/
theorem Stocked.take (stocked : Stocked arenas heap bins pieces chains)
    (thread : IsThread arenas) (small : IsSmall num) {wilderness size : Int}
    (atWild : pieces.block wilderness = some ⟨size, ⟨num, .wild⟩⟩)
    (exact : size = chunkUnits num) :
    Stocked arenas ((heap.setSmallchunkArena wilderness (arenas num).self).setWilderness num
        (arenas num).freelist) bins (pieces.retag wilderness _ atWild ⟨num, .live⟩) chains := by
  obtain ⟨isWilderness, _, _⟩ := stocked.wild wilderness _ atWild rfl
  constructor
  case within =>
    intro start piece atStart
    rcases pieces.retag_cases atWild _ atStart with ⟨rfl, rfl⟩ | ⟨_, old⟩
    · have inside := stocked.within start _ atWild
      exact inside
    · exact stocked.within start piece old
  case chunk =>
    intro start piece atStart notWild
    rcases pieces.retag_cases atWild _ atStart with ⟨rfl, rfl⟩ | ⟨differ, old⟩
    · exact ⟨exact, (Heap.small_arena_set_arena ..).trans (if_pos rfl)⟩
    · obtain ⟨fits, owner⟩ := stocked.chunk start piece old notWild
      exact ⟨fits, ((Heap.small_arena_set_arena ..).trans (if_neg differ)).trans owner⟩
  case wild =>
    intro start piece atStart isWild
    rcases pieces.retag_cases atWild _ atStart with ⟨_, rfl⟩ | ⟨differ, old⟩
    · exact nomatch isWild
    · obtain ⟨same, sized, whole⟩ := stocked.wild start piece old isWild
      refine ⟨same.trans (if_neg ?_).symm, sized, whole⟩
      intro isNum
      rw [isNum, ← isWilderness] at same
      exact differ same
  case wilderness =>
    intro other otherSmall
    by_cases same : other = num
    · subst same
      exact Or.inl (if_pos rfl)
    · have kept : ((heap.setSmallchunkArena wilderness (arenas num).self).setWilderness num
          (arenas num).freelist).wilderness other = heap.wilderness other := if_neg same
      rw [kept]
      rcases stocked.wilderness other otherSmall with isDummy | ⟨otherSize, atOther⟩
      · exact Or.inl isDummy
      · refine Or.inr ⟨otherSize, ?_⟩
        rw [pieces.retag_other atWild _ ?_]
        · exact atOther
        · intro isWild
          rw [isWild, atWild] at atOther
          cases atOther
          exact same rfl
  case dummy => exact stocked.dummy
  case linked =>
    intro other otherSmall
    refine reaches_congr (stocked.linked other otherSmall) ?_
    intro entry isEntry
    have away := stocked.link_clear thread atWild rfl otherSmall isEntry
    have positive := pieces.nonempty _ _ atWild
    exact (Heap.small_nextfree_set_arena ..).trans (if_neg (by dsimp only at away positive; omega))
  case distinct => exact stocked.distinct
  case listed =>
    intro other otherSmall header
    rw [stocked.listed other otherSmall]
    refine (pieces.retag_with_state atWild ⟨num, .live⟩ ?_ ?_ header).symm <;>
      exact nofun

/-- A bin the small arenas have not used becomes a wilderness. -/
theorem Stocked.insert (stocked : Stocked arenas heap bins pieces chains)
    (thread : IsThread arenas) (small : IsSmall num)
    (isDummy : heap.wilderness num = (arenas num).freelist) {bin size : Int}
    (atBin : bins.block bin = some ⟨size, .bin num⟩)
    (isSize : size = (arenas num).binsize) (nonempty : 0 < size)
    (unused : ∀ unit, bin ≤ unit → unit < bin + size → ¬ pieces.Covers unit) :
    Stocked arenas ((heap.setSmallchunkSize bin size).setWilderness num bin) bins
      (pieces.insert bin ⟨size, ⟨num, .wild⟩⟩ nonempty unused) chains := by
  -- the wilderness of the arena is its dummy, which is no piece
  have noWild : ∀ start piece, pieces.block start = some piece → piece.state.use = .wild →
      piece.state.num ≠ num := by
    intro start piece atStart isWild isNum
    have same := (stocked.wild start piece atStart isWild).1
    rw [isNum, isDummy] at same
    have clear := stocked.dummy_clear atStart small
    have positive := pieces.nonempty start piece atStart
    omega
  have differ : ∀ start piece, pieces.block start = some piece → start ≠ bin :=
    fun _ _ atStart => pieces.insert_apart ⟨size, ⟨num, .wild⟩⟩ nonempty unused atStart
  have wilderness : ∀ other, other ≠ num →
      ((heap.setSmallchunkSize bin size).setWilderness num bin).wilderness other =
        heap.wilderness other := fun other notNum => if_neg notNum
  constructor
  case within =>
    intro start piece atStart
    rcases pieces.insert_cases nonempty unused atStart with ⟨rfl, rfl⟩ | ⟨_, old⟩
    · exact ⟨small, start, _, atBin, rfl, le_refl _, le_refl _⟩
    · exact stocked.within start piece old
  case chunk =>
    intro start piece atStart notWild
    rcases pieces.insert_cases nonempty unused atStart with ⟨_, rfl⟩ | ⟨_, old⟩
    · exact absurd rfl notWild
    · exact stocked.chunk start piece old notWild
  case wild =>
    intro start piece atStart isWild
    rcases pieces.insert_cases nonempty unused atStart with ⟨rfl, rfl⟩ | ⟨_, old⟩
    · refine ⟨(if_pos rfl).symm, (Heap.small_size_set_size ..).trans (if_pos rfl), ?_⟩
      rw [isSize]
      exact (small_units thread small).2.2
    · obtain ⟨same, sized, whole⟩ := stocked.wild start piece old isWild
      rw [wilderness _ (noWild start piece old isWild)]
      exact ⟨same, ((Heap.small_size_set_size ..).trans (if_neg (differ start piece old))).trans
        sized, whole⟩
  case wilderness =>
    intro other otherSmall
    by_cases same : other = num
    · subst same
      refine Or.inr ⟨size, ?_⟩
      have isBin : ((heap.setSmallchunkSize bin size).setWilderness other bin).wilderness other =
          bin := if_pos rfl
      rw [isBin, pieces.insert_block, if_pos rfl]
    · rw [wilderness other same]
      rcases stocked.wilderness other otherSmall with isOther | ⟨otherSize, atOther⟩
      · exact Or.inl isOther
      · refine Or.inr ⟨otherSize, ?_⟩
        rw [pieces.insert_block, if_neg (differ _ _ atOther)]
        exact atOther
  case dummy =>
    intro other otherSmall
    obtain ⟨atDummy, idle⟩ := stocked.dummy other otherSmall
    refine ⟨atDummy, ((Heap.small_size_set_size ..).trans (if_neg ?_)).trans idle⟩
    intro same
    rw [same, atBin] at atDummy
    cases atDummy
  case linked => exact stocked.linked
  case distinct => exact stocked.distinct
  case listed =>
    intro other otherSmall header
    rw [stocked.listed other otherSmall]
    refine (pieces.insert_with_state ⟨size, ⟨num, .wild⟩⟩ nonempty unused ?_ header).symm
    exact nofun

end Pieces

end Sac2c.SmallArenas
