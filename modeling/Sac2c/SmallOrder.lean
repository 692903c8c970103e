import Sac2c.SmallArenas

/-!
One thread's small-chunk arenas and its arena of arenas in use: chunks are asked
for and given back, the large-chunk arenas fetch bins, and the program writes
into what it holds, in any order. Live chunks and bins stay apart, and each
freed chunk is on its list until it is handed out again.
-/

namespace Sac2c.SmallOrder

open Headers SmallChunks Blocks Links ArenaOfArenas SmallArenas Trace

/-- `live` and `freed` have the arena and the header of each chunk the program
holds or has given back, `bins` the arena and the start of each bin. -/
structure State where
  heap : Heap
  live : List (Nat × Int)
  freed : List (Nat × Int)
  bins : List (Nat × Int)

inductive Label where
  | malloc (num : Nat) (block pointer : Int)
  | free (num : Nat) (pointer : Int)
  | bin (num : Nat) (block start : Int)
  | store

/-- Neither the free list nor the wilderness serves the next request. -/
def NeedsBin (arena : Arena) (heap : Heap) : Prop :=
  heap.smallchunkNextfree arena.freelist = 0 ∧
    heap.smallchunkSize (heap.wilderness arena.num) < chunkUnits arena.num

instance (arena : Arena) (heap : Heap) : Decidable (NeedsBin arena heap) :=
  inferInstanceAs (Decidable (_ ∧ _))

/-- The units of a live chunk behind its header unit. -/
def InPayload (state : State) (unit : Int) : Prop :=
  ∃ entry, entry ∈ state.live ∧ entry.2 + 1 ≤ unit ∧
    unit < entry.2 + chunkUnits entry.1

def InLargeBin (arenas : Nat → Arena) (state : State) (unit : Int) : Prop :=
  ∃ bin, bin ∈ state.bins ∧ 5 ≤ bin.1 ∧ bin.2 ≤ unit ∧ unit < bin.2 + (arenas bin.1).binsize

/-- `block` is the answer of the top arena in case one is needed. Arenas 5 to 7
do with their bins what they like. -/
inductive Step (arenas : Nat → Arena) : State → Label → State → Prop where
  | malloc (state : State) (num : Nat) (block pointer : Int) (fuel : Nat) (after : Heap) :
      IsSmall num → FreshBlock arenas state.heap block →
      mallocSmallChunk (arenas num) (arenas 0) block fuel (chunkUnits num) state.heap =
        some (pointer, after) →
      Step arenas state (.malloc num block pointer)
        { heap := after
          live := (num, pointer - 1) :: state.live
          freed := state.freed.filter (fun entry => entry ≠ (num, pointer - 1))
          bins := if NeedsBin (arenas num) state.heap then (num, after.wilderness num) :: state.bins
            else state.bins }
  | free (state : State) (num : Nat) (pointer : Int) : (num, pointer - 1) ∈ state.live →
      Step arenas state (.free num pointer)
        { heap := freeSmallChunk (arenas num) state.heap pointer
          live := state.live.filter (fun entry => entry ≠ (num, pointer - 1))
          freed := (num, pointer - 1) :: state.freed
          bins := state.bins }
  | bin (state : State) (num : Nat) (block start : Int) (fuel : Nat) (after : Heap) :
      5 ≤ num ∧ num ≤ 7 → FreshBlock arenas state.heap block →
      allocateNewBinInArenaOfArenas (arenas 0) block fuel (arenas num).binsize state.heap =
        some (start, after) →
      Step arenas state (.bin num block start)
        { state with heap := after, bins := (num, start) :: state.bins }
  | store (state : State) (first second : Int → Int) :
      (∀ unit, InMemory arenas state.heap.obtained unit → ¬ InPayload state unit →
        ¬ InLargeBin arenas state unit →
        first unit = state.heap.first unit ∧ second unit = state.heap.second unit) →
      Step arenas state .store
        { state with heap := { state.heap with first := first, second := second } }

structure Sound (arenas : Nat → Arena) (heap : Heap) (layout : Layout Share) (nodes : List Int)
    (pieces : Layout Piece) (chains : Nat → List Int) : Prop where
  carved : Carved (arenas 0) heap layout nodes
  spans : Spans arenas heap.obtained layout
  stocked : Stocked arenas heap layout pieces chains

/-- The chunk at `header` becomes live, no other. -/
structure Serves (arenas : Nat → Arena) (num : Nat) (before after : Layout Piece)
    (header : Int) : Prop where
  fresh : ∀ piece, before.block header = some piece →
    piece.state.num = num ∧ piece.state.use ≠ .live
  served : after.block header = some ⟨chunkUnits num, ⟨num, .live⟩⟩
  others : ∀ start piece, start ≠ header → piece.state.use ≠ .wild →
    (after.block start = some piece ↔ before.block start = some piece)

/-- A chunk of arena `num` has been handed out, from a new bin if need be. -/
def HandsOut (arenas : Nat → Arena) (num : Nat) (heap : Heap) (layout : Layout Share)
    (pieces : Layout Piece) (result : Int × Heap) : Prop :=
  ∃ renewed nodes after chains, Sound arenas result.2 renewed nodes after chains ∧
    Serves arenas num pieces after (result.1 - 1) ∧
    if NeedsBin (arenas num) heap then
      Carves num (arenas num).binsize layout renewed (result.2.wilderness num)
    else renewed = layout

section Requests

variable {arenas : Nat → Arena} {heap : Heap} {layout : Layout Share} {nodes : List Int}
  {pieces : Layout Piece} {chains : Nat → List Int} {num : Nat} {block : Int}

/-- A unit of a piece or of a small arena's dummy entry. -/
def SmallUnit (arenas : Nat → Arena) (pieces : Layout Piece) (unit : Int) : Prop :=
  pieces.Covers unit ∨ ∃ num, IsSmall num ∧ (arenas num).freelist ≤ unit ∧
    unit < (arenas num).freelist + 3

/-- Small arenas write to no SIZE word or link of the arena of arenas. -/
theorem small_unit_clear (thread : IsThread arenas) (carved : Carved (arenas 0) heap layout nodes)
    {other : Heap} (stocked : Stocked arenas other layout pieces chains) {unit : Int}
    (isSmall : SmallUnit arenas pieces unit) :
    ∀ entry, entry = (arenas 0).freelist ∨ entry ∈ nodes → unit ≠ entry ∧ unit ≠ entry + 1 := by
  intro entry isEntry
  obtain ⟨chunk, atEntry, wide, own⟩ := carved.entry isEntry
  have apart : ∀ start found, layout.block start = some found → found.state ≠ .free →
      start ≠ (arenas 0).freelist → start ≤ unit → unit < start + found.size →
      unit < entry ∨ entry + 3 ≤ unit := by
    intro start found atStart notFree notDummy above below
    have differ : entry ≠ start := by
      rintro rfl
      rw [atEntry] at atStart
      cases atStart
      rcases own with isFree | isDummy
      · exact notFree isFree
      · exact notDummy isDummy
    rcases layout.apart_or atEntry atStart differ with before | after
    · exact Or.inr (by omega)
    · exact Or.inl (by omega)
  have sides : unit < entry ∨ entry + 3 ≤ unit := by
    rcases isSmall with ⟨start, piece, atStart, above, below⟩ | ⟨small, isSmall, above, below⟩
    · obtain ⟨_, bin, found, atBin, isBin, low, high⟩ := stocked.within start piece atStart
      refine apart bin found atBin ?_ ?_ (by omega) (by omega)
      · rw [isBin]
        exact nofun
      · rintro rfl
        rw [carved.dummy] at atBin
        cases atBin
        exact nomatch isBin
    · have differ : small ≠ 0 := by
        have low := isSmall.1
        omega
      have dummies := thread.apart small 0 isSmall.2 (by decide) differ
      exact apart _ _ (stocked.dummy small isSmall).1 nofun (by omega) above below
  omega

theorem carved_set_first (carved : Carved (arenas 0) heap layout nodes) {unit : Int}
    (clear : ∀ entry, entry = (arenas 0).freelist ∨ entry ∈ nodes →
      unit ≠ entry ∧ unit ≠ entry + 1) (value : Int) :
    Carved (arenas 0) (heap.setFirst unit value) layout nodes :=
  carved.congr (fun entry isEntry => ⟨if_neg (clear entry isEntry).1.symm, rfl⟩)

theorem carved_set_second (carved : Carved (arenas 0) heap layout nodes) {unit : Int}
    (clear : ∀ entry, entry = (arenas 0).freelist ∨ entry ∈ nodes →
      unit ≠ entry ∧ unit ≠ entry + 1) (value : Int) :
    Carved (arenas 0) (heap.setSecond unit value) layout nodes :=
  carved.congr (fun entry isEntry => ⟨rfl, if_neg (clear entry isEntry).2.symm⟩)

/-- A chunk of the arena becomes live. -/
theorem serves_retag {header size : Int} {use : Use}
    (atHeader : pieces.block header = some ⟨size, ⟨num, use⟩⟩) (notLive : use ≠ .live)
    (fits : size = chunkUnits num) :
    Serves arenas num pieces (pieces.retag header _ atHeader ⟨num, .live⟩) header where
  fresh := by
    intro piece atPiece
    rw [atHeader] at atPiece
    cases atPiece
    exact ⟨rfl, notLive⟩
  served := by
    rw [pieces.retag_self, fits]
  others := by
    intro start piece differ _
    rw [pieces.retag_other atHeader _ differ]

/-- A chunk is cut from a wilderness. -/
theorem serves_split {wilderness size : Int}
    (atWild : pieces.block wilderness = some ⟨size, ⟨num, .wild⟩⟩)
    (lowSize : 0 < size - chunkUnits num) (highSize : 0 < chunkUnits num)
    (sum : size - chunkUnits num + chunkUnits num = size) :
    Serves arenas num pieces
      (pieces.split wilderness _ atWild ⟨size - chunkUnits num, ⟨num, .wild⟩⟩
        ⟨chunkUnits num, ⟨num, .live⟩⟩ lowSize highSize sum)
      (wilderness + (size - chunkUnits num)) where
  fresh := by
    intro piece atPiece
    rw [pieces.block_inside atWild (by omega) (by dsimp only; omega)] at atPiece
    exact nomatch atPiece
  served := pieces.split_high ⟨size - chunkUnits num, ⟨num, .wild⟩⟩
    ⟨chunkUnits num, ⟨num, .live⟩⟩ atWild lowSize highSize sum
  others := by
    intro start piece differ notWild
    exact pieces.split_iff _ _ atWild lowSize highSize sum (fun state => state.use ≠ .wild)
      (fun notSo => notSo rfl) notWild (fun isLow => notWild (by rw [isLow.2]))
      (fun isHigh => differ isHigh.1)

theorem pop_hands_out (thread : IsThread arenas) (small : IsSmall num)
    (sound : Sound arenas heap layout nodes pieces chains)
    (nonempty : heap.smallchunkNextfree (arenas num).freelist ≠ 0) :
    HandsOut arenas num heap layout pieces
      (heap.smallchunkNextfree (arenas num).freelist + 1,
        heap.setSmallchunkNextfree (arenas num).freelist
          (heap.smallchunkNextfree (heap.smallchunkNextfree (arenas num).freelist))) := by
  have path := sound.stocked.linked num small
  cases chain : chains num with
  | nil =>
      rw [chain] at path
      exact absurd path nonempty
  | cons header rest =>
      rw [chain] at path
      obtain ⟨isHeader, _, _⟩ := path
      rw [isHeader]
      obtain ⟨size, atHeader⟩ := (sound.stocked.listed num small header).mp
        (chain ▸ List.mem_cons_self ..)
      have isFree : Use.free ≠ .wild := nofun
      have notLive : Use.free ≠ .live := nofun
      have stocked := sound.stocked.pop thread small chain atHeader
      have link : SmallUnit arenas pieces ((arenas num).freelist + 1) :=
        Or.inr ⟨num, small, by omega, by omega⟩
      have clear := small_unit_clear thread sound.carved sound.stocked link
      have noBin : ¬ NeedsBin (arenas num) heap := fun needs => nonempty needs.1
      have back : header + 1 - 1 = header := by omega
      refine ⟨layout, nodes, _, _, ⟨carved_set_second sound.carved clear _, sound.spans, stocked⟩,
        ?_, ?_⟩
      · dsimp only
        rw [back]
        exact serves_retag atHeader notLive (sound.stocked.chunk header _ atHeader isFree).1
      · rw [if_neg noBin]

/-- The wilderness of an arena, unless it is the dummy entry. -/
theorem wilderness_piece (small : IsSmall num)
    (stocked : Stocked arenas heap layout pieces chains)
    (nonempty : 0 < heap.smallchunkSize (heap.wilderness num)) :
    pieces.block (heap.wilderness num) =
      some ⟨heap.smallchunkSize (heap.wilderness num), ⟨num, .wild⟩⟩ := by
  rcases stocked.wilderness num small with isDummy | ⟨size, atWild⟩
  · rw [isDummy, (stocked.dummy num small).2] at nonempty
    exact absurd nonempty (by decide)
  · have sized := (stocked.wild _ _ atWild rfl).2.1
    rw [atWild, sized]

theorem split_hands_out (thread : IsThread arenas) (small : IsSmall num)
    (sound : Sound arenas heap layout nodes pieces chains)
    (large : heap.smallchunkSize (heap.wilderness num) > chunkUnits num) :
    HandsOut arenas num heap layout pieces
      (splitWilderness (arenas num) (chunkUnits num) heap (heap.wilderness num)) := by
  obtain ⟨wide, _, _⟩ := small_units thread small
  have atWild := wilderness_piece small sound.stocked (by omega)
  have lowSize : 0 < heap.smallchunkSize (heap.wilderness num) - chunkUnits num := by
    omega
  have highSize : 0 < chunkUnits num := by omega
  have sum : heap.smallchunkSize (heap.wilderness num) - chunkUnits num +
      chunkUnits num = heap.smallchunkSize (heap.wilderness num) := by omega
  have stocked := sound.stocked.split thread small atWild rfl lowSize highSize sum
  have unit : ∀ unit, heap.wilderness num ≤ unit →
      unit < heap.wilderness num + heap.smallchunkSize (heap.wilderness num) →
      SmallUnit arenas pieces unit :=
    fun unit above below => Or.inl ⟨_, _, atWild, above, below⟩
  have writes : splitWilderness (arenas num) (chunkUnits num) heap (heap.wilderness num) =
      (heap.wilderness num + (heap.smallchunkSize (heap.wilderness num) -
        chunkUnits num) + 1,
        (heap.setSmallchunkSize (heap.wilderness num) (heap.smallchunkSize (heap.wilderness num) -
          chunkUnits num)).setSmallchunkArena (heap.wilderness num +
          (heap.smallchunkSize (heap.wilderness num) - chunkUnits num))
          (arenas num).self) := by
    simp only [splitWilderness, Heap.small_size_set_size, if_true]
  have noBin : ¬ NeedsBin (arenas num) heap := by
    rintro ⟨_, short⟩
    rw [thread.num num small] at short
    omega
  rw [writes]
  refine ⟨layout, nodes, _, chains, ⟨carved_set_second (carved_set_first sound.carved
    (small_unit_clear thread sound.carved sound.stocked (unit _ (le_refl _) (by omega))) _)
    (small_unit_clear thread sound.carved sound.stocked (unit _ (by omega) (by omega))) _,
    sound.spans, stocked⟩, ?_, ?_⟩
  · have back : ∀ header : Int, header + 1 - 1 = header := fun header => by omega
    dsimp only
    rw [back]
    exact serves_split atWild lowSize highSize sum
  · rw [if_neg noBin]

theorem take_hands_out (thread : IsThread arenas) (small : IsSmall num)
    (sound : Sound arenas heap layout nodes pieces chains)
    (exact : heap.smallchunkSize (heap.wilderness num) = chunkUnits num) :
    HandsOut arenas num heap layout pieces
      (takeWilderness (arenas num) heap (heap.wilderness num)) := by
  obtain ⟨wide, _, _⟩ := small_units thread small
  have atWild := wilderness_piece small sound.stocked (by omega)
  have stocked := sound.stocked.take thread small atWild exact
  have header : SmallUnit arenas pieces (heap.wilderness num) :=
    Or.inl (pieces.covers_start atWild)
  have noBin : ¬ NeedsBin (arenas num) heap := by
    rintro ⟨_, short⟩
    rw [thread.num num small] at short
    omega
  have notLive : Use.wild ≠ .live := nofun
  have carved := carved_set_second sound.carved
    (small_unit_clear thread sound.carved sound.stocked header) (arenas num).self
  rw [takeWilderness, thread.num num small]
  refine ⟨layout, nodes, _, chains, ⟨carved.congr (fun _ _ => ⟨rfl, rfl⟩), sound.spans, stocked⟩,
    ?_, ?_⟩
  · have back : heap.wilderness num + 1 - 1 = heap.wilderness num := by omega
    dsimp only
    rw [back]
    exact serves_retag atWild notLive exact
  · rw [if_neg noBin]

/-- Cutting a bin leaves the small arenas' words alone. -/
theorem stocked_after_bin (thread : IsThread arenas)
    (sound : Sound arenas heap layout nodes pieces chains) {owner : Nat} {units bin : Int}
    {after : Heap} {renewed : Layout Share} (carves : Carves owner units layout renewed bin)
    (untouched : Untouched (arenas 0) layout heap after) :
    Stocked arenas after renewed pieces chains := by
  have inBin : ∀ start piece, pieces.block start = some piece → ∀ unit, start ≤ unit →
      unit < start + piece.size →
      after.first unit = heap.first unit ∧ after.second unit = heap.second unit := by
    intro start piece atStart unit above below
    obtain ⟨_, other, found, atOther, isBin, low, high⟩ := sound.stocked.within start piece atStart
    refine untouched.words other found atOther ?_ ?_ unit (by omega) (by omega)
    · rw [isBin]
      exact nofun
    · rintro rfl
      rw [sound.carved.dummy] at atOther
      cases atOther
      exact nomatch isBin
  refine sound.stocked.frame ?_ untouched.wilderness ?_ ?_ ?_
  · intro start found notFree atStart
    refine (carves.others start found ?_ notFree).mpr atStart
    rintro rfl
    exact notFree (carves.fresh found atStart)
  · intro start piece atStart
    have size := pieces.nonempty start piece atStart
    exact inBin start piece atStart start (le_refl _) (by omega)
  · intro start piece atStart _
    have wide := (sound.stocked.wide thread atStart).2
    exact (inBin start piece atStart (start + 1) (by omega) (by omega)).2
  · intro small isSmall
    have atDummy := (sound.stocked.dummy small isSmall).1
    have positive := isSmall.1
    have dummies := thread.apart small 0 isSmall.2 (by decide) (by omega)
    have words := untouched.words _ _ atDummy nofun (by omega)
    exact ⟨(words _ (le_refl _) (by dsimp only; omega)).1,
      (words _ (by omega) (by dsimp only; omega)).2⟩

/-- No piece lies in a bin just cut. -/
theorem bin_unused (sound : Sound arenas heap layout nodes pieces chains) {owner : Nat}
    {units bin : Int} {renewed : Layout Share} (carves : Carves owner units layout renewed bin)
    (unit : Int) (above : bin ≤ unit) (below : unit < bin + units) : ¬ pieces.Covers unit := by
  rintro ⟨start, piece, atStart, low, high⟩
  obtain ⟨_, other, found, atOther, isBin, inside, ends⟩ := sound.stocked.within start piece atStart
  have notFree : found.state ≠ .free := by
    rw [isBin]
    exact nofun
  have differ : other ≠ bin := by
    rintro rfl
    exact notFree (carves.fresh found atOther)
  have atNew := (carves.others other found differ notFree).mpr atOther
  rcases renewed.apart_or atNew carves.handed differ with before | after
  · omega
  · dsimp only at after
    omega

/-- Pieces come in, and no chunk changes. -/
theorem Serves.after {before middle after : Layout Piece} {header : Int}
    (serves : Serves arenas num middle after header)
    (kept : ∀ start piece, before.block start = some piece → middle.block start = some piece)
    (chunks : ∀ start piece, piece.state.use ≠ .wild → middle.block start = some piece →
      before.block start = some piece) : Serves arenas num before after header where
  fresh := fun piece atHeader => serves.fresh piece (kept header piece atHeader)
  served := serves.served
  others := fun start piece differ notWild => (serves.others start piece differ notWild).trans
    ⟨chunks start piece notWild, kept start piece⟩

/-- The chunk is cut from a bin that becomes the wilderness. -/
theorem new_wilderness_hands_out (thread : IsThread arenas) (small : IsSmall num)
    (sound : Sound arenas heap layout nodes pieces chains) (needs : NeedsBin (arenas num) heap)
    {bin : Int} {after : Heap}
    (handsOut : HandsOutBin arenas num (arenas num).binsize heap layout (bin, after)) :
    HandsOut arenas num heap layout pieces
      (newWilderness (arenas num) (chunkUnits num) after bin) := by
  obtain ⟨renewed, others, carved, spans, carves, untouched⟩ := handsOut
  dsimp only at carved spans carves untouched
  obtain ⟨wide, room, _⟩ := small_units thread small
  have lowSize : 0 < (arenas num).binsize - chunkUnits num := by omega
  have highSize : 0 < chunkUnits num := by omega
  have sum : (arenas num).binsize - chunkUnits num + chunkUnits num =
      (arenas num).binsize := by omega
  -- a wilderness that is too small for a chunk is none
  have isDummy : heap.wilderness num = (arenas num).freelist := by
    rcases sound.stocked.wilderness num small with isDummy | ⟨size, atWild⟩
    · exact isDummy
    · have short := needs.2
      rw [thread.num num small, (sound.stocked.wild _ _ atWild rfl).2.1] at short
      have atLeast := (sound.stocked.wide thread atWild).1
      exact absurd short (not_lt.mpr atLeast)
  have moved : after.wilderness num = (arenas num).freelist := by
    rw [untouched.wilderness]
    exact isDummy
  have unused := bin_unused sound carves
  have nonempty : 0 < (arenas num).binsize := by omega
  have inserted := (stocked_after_bin thread sound carves untouched).insert thread small moved
    carves.handed rfl nonempty unused
  have atBin : (pieces.insert bin ⟨(arenas num).binsize, ⟨num, .wild⟩⟩ nonempty unused).block bin =
      some ⟨(arenas num).binsize, ⟨num, .wild⟩⟩ := by
    rw [pieces.insert_block, if_pos rfl]
  have split := inserted.split thread small atBin rfl lowSize highSize sum
  have unit : ∀ unit, bin ≤ unit → unit < bin + (arenas num).binsize → SmallUnit arenas
      (pieces.insert bin ⟨(arenas num).binsize, ⟨num, .wild⟩⟩ nonempty unused) unit :=
    fun unit above below => Or.inl ⟨_, _, atBin, above, below⟩
  have writes : newWilderness (arenas num) (chunkUnits num) after bin =
      (bin + ((arenas num).binsize - chunkUnits num) + 1,
        ((after.setSmallchunkSize bin ((arenas num).binsize -
          chunkUnits num)).setWilderness num bin).setSmallchunkArena
          (bin + ((arenas num).binsize - chunkUnits num)) (arenas num).self) := by
    simp only [newWilderness, thread.num num small]
    have sized : ((after.setSmallchunkSize bin ((arenas num).binsize -
        chunkUnits num)).setWilderness num bin).smallchunkSize bin =
        (arenas num).binsize - chunkUnits num := if_pos rfl
    rw [sized]
  have words : ((after.setSmallchunkSize bin ((arenas num).binsize -
      chunkUnits num)).setWilderness num bin).first =
      (((after.setSmallchunkSize bin (arenas num).binsize).setWilderness num
        bin).setSmallchunkSize bin ((arenas num).binsize - chunkUnits num)).first := by
    funext other
    rw [Heap.first_set_small_size]
    by_cases same : other = bin
    · exact (if_pos same).trans (if_pos same).symm
    · refine (if_neg same).trans (Eq.trans ?_ (if_neg same).symm)
      exact (if_neg same).symm
  rw [writes]
  refine ⟨renewed, others, _, chains, ⟨?_, spans, split.frame (fun _ _ _ => id) rfl ?_ ?_ ?_⟩,
    ?_, ?_⟩
  · have first := carved_set_first carved
      (small_unit_clear thread carved inserted (unit bin (le_refl _) (by omega)))
      ((arenas num).binsize - chunkUnits num)
    have placed : Carved (arenas 0) ((after.setSmallchunkSize bin ((arenas num).binsize -
        chunkUnits num)).setWilderness num bin) renewed others :=
      first.congr (fun _ _ => ⟨rfl, rfl⟩)
    exact carved_set_second placed
      (small_unit_clear thread carved inserted (unit _ (by omega) (by omega))) _
  · exact fun start _ _ => ⟨congrFun words start, rfl⟩
  · exact fun _ _ _ _ => rfl
  · exact fun other _ => ⟨congrFun words _, rfl⟩
  · have back : ∀ header : Int, header + 1 - 1 = header := fun header => by omega
    dsimp only
    rw [back]
    refine (serves_split atBin lowSize highSize sum).after ?_ ?_
    · intro start piece atStart
      rw [pieces.insert_block, if_neg (pieces.insert_apart ⟨_, ⟨num, .wild⟩⟩ nonempty unused atStart)]
      exact atStart
    · intro start piece notWild atStart
      rcases pieces.insert_cases nonempty unused atStart with ⟨_, rfl⟩ | ⟨_, old⟩
      · exact absurd rfl notWild
      · exact old
  · rw [if_pos needs]
    have isBin : (((after.setSmallchunkSize bin ((arenas num).binsize -
        chunkUnits num)).setWilderness num bin).setSmallchunkArena
        (bin + ((arenas num).binsize - chunkUnits num)) (arenas num).self).wilderness
        num = bin := if_pos rfl
    dsimp only
    rw [isBin]
    exact carves

/-- Every request for a small chunk is served. -/
theorem malloc_outcome (thread : IsThread arenas) (small : IsSmall num)
    (sound : Sound arenas heap layout nodes pieces chains) (fresh : FreshBlock arenas heap block)
    (fuel : Nat) :
    Outcome (HandsOut arenas num heap layout pieces) (nodes.length < fuel) False
      (mallocSmallChunk (arenas num) (arenas 0) block fuel (chunkUnits num) heap) := by
  rw [mallocSmallChunk, if_neg (not_lt.mpr (thread.units num small)), thread.num num small]
  dsimp only
  by_cases nonempty : heap.smallchunkNextfree (arenas num).freelist ≠ 0
  · rw [if_pos nonempty]
    exact pop_hands_out thread small sound nonempty
  · rw [if_neg nonempty]
    by_cases large : heap.smallchunkSize (heap.wilderness num) > chunkUnits num
    · rw [if_pos large]
      exact split_hands_out thread small sound large
    · rw [if_neg large]
      by_cases exact : heap.smallchunkSize (heap.wilderness num) = chunkUnits num
      · rw [if_pos exact]
        exact take_hands_out thread small sound exact
      · rw [if_neg exact]
        have needs : NeedsBin (arenas num) heap := by
          refine ⟨not_not.mp nonempty, ?_⟩
          rw [thread.num num small]
          omega
        obtain ⟨low, high⟩ := small
        obtain ⟨whole, positive, room⟩ := bin_units thread ⟨low, (by omega : num ≤ 7)⟩
        have allocated := allocate_outcome num thread sound.carved sound.spans fresh whole
          positive room fuel
        cases result : allocateNewBinInArenaOfArenas (arenas 0) block fuel (arenas num).binsize
            heap with
        | none =>
            rw [result] at allocated
            exact allocated
        | some value =>
            rw [result] at allocated
            exact new_wilderness_hands_out thread ⟨low, high⟩ sound needs allocated

end Requests

/-- The records of the state agree with the two layouts. -/
structure Held (arenas : Nat → Arena) (state : State) (layout : Layout Share)
    (pieces : Layout Piece) : Prop where
  live : ∀ num header, (num, header) ∈ state.live ↔
    ∃ size, pieces.block header = some ⟨size, ⟨num, .live⟩⟩
  freed : ∀ num header, (num, header) ∈ state.freed ↔
    ∃ size, pieces.block header = some ⟨size, ⟨num, .free⟩⟩
  bins : ∀ num start, (num, start) ∈ state.bins ↔
    layout.block start = some ⟨(arenas num).binsize, .bin num⟩
  sizes : ∀ num start found, layout.block start = some found → found.state = .bin num →
    found.size = (arenas num).binsize
  liveDistinct : state.live.Nodup
  binsDistinct : state.bins.Nodup

/-- What the program may rely on. -/
structure InOrder (arenas : Nat → Arena) (state : State) : Prop where
  liveApart : state.live.Pairwise (fun first second =>
    first.2 + chunkUnits first.1 ≤ second.2 ∨
      second.2 + chunkUnits second.1 ≤ first.2)
  binsApart : state.bins.Pairwise (fun first second =>
    first.2 + (arenas first.1).binsize ≤ second.2 ∨
      second.2 + (arenas second.1).binsize ≤ first.2)
  inBin : ∀ num header, (num, header) ∈ state.live ∨ (num, header) ∈ state.freed →
    ∃ bin, (num, bin) ∈ state.bins ∧ bin ≤ header ∧
      header + chunkUnits num ≤ bin + (arenas num).binsize
  owner : ∀ num header, (num, header) ∈ state.live ∨ (num, header) ∈ state.freed →
    state.heap.smallchunkArena header = (arenas num).self
  freed : ∀ num, IsSmall num → ∃ chain,
    Linked state.heap.smallchunkNextfree (arenas num).freelist chain ∧
      ∀ header, chain.count header = if (num, header) ∈ state.freed then 1 else 0
  linkClear : ∃ chain, Linked state.heap.smallchunkNextfree (arenas 0).freelist chain ∧
    ∀ freep, freep ∈ chain → 4 ≤ state.heap.smallchunkSize freep ∧
      ∀ bin, bin ∈ state.bins → freep + 1 < bin.2 ∨ bin.2 + (arenas bin.1).binsize ≤ freep + 1

/-- The invariant that carries it over a run. -/
def Valid (arenas : Nat → Arena) (state : State) : Prop :=
  ∃ layout nodes pieces chains, Sound arenas state.heap layout nodes pieces chains ∧
    Held arenas state layout pieces

section Runs

variable {arenas : Nat → Arena} {state : State}

theorem bin_owner {size larger : Int} {num other : Nat}
    (same : some (⟨size, .bin num⟩ : Block Share) = some ⟨larger, .bin other⟩) : num = other := by
  have states : Share.bin num = .bin other := congrArg Block.state (Option.some.inj same)
  exact Share.bin.inj states

/-- The chunk of a record. -/
theorem Held.chunk {layout : Layout Share} {pieces : Layout Piece}
    (held : Held arenas state layout pieces) {num : Nat} {header : Int}
    (member : (num, header) ∈ state.live ∨ (num, header) ∈ state.freed) :
    ∃ size use, pieces.block header = some ⟨size, ⟨num, use⟩⟩ ∧ use ≠ .wild := by
  rcases member with isLive | isFreed
  · obtain ⟨size, atHeader⟩ := (held.live num header).mp isLive
    exact ⟨size, .live, atHeader, nofun⟩
  · obtain ⟨size, atHeader⟩ := (held.freed num header).mp isFreed
    exact ⟨size, .free, atHeader, nofun⟩

section Records

variable {layout : Layout Share} {nodes : List Int} {pieces : Layout Piece}
  {chains : Nat → List Int}

theorem live_apart (sound : Sound arenas state.heap layout nodes pieces chains)
    (held : Held arenas state layout pieces) {num other : Nat} {header start : Int}
    (first : (num, header) ∈ state.live) (second : (other, start) ∈ state.live)
    (differ : (num, header) ≠ (other, start)) :
    header + chunkUnits num ≤ start ∨ start + chunkUnits other ≤ header := by
  have isLive : Use.live ≠ .wild := nofun
  obtain ⟨size, atHeader⟩ := (held.live num header).mp first
  obtain ⟨otherSize, atStart⟩ := (held.live other start).mp second
  have fits := (sound.stocked.chunk header _ atHeader isLive).1
  have otherFits := (sound.stocked.chunk start _ atStart isLive).1
  dsimp only at fits otherFits
  have apart : header ≠ start := by
    rintro rfl
    rw [atHeader] at atStart
    cases atStart
    exact differ rfl
  rw [← fits, ← otherFits]
  exact pieces.apart_or atHeader atStart apart

theorem bins_on_record_apart (held : Held arenas state layout pieces) {num other : Nat}
    {bin start : Int} (first : (num, bin) ∈ state.bins) (second : (other, start) ∈ state.bins)
    (differ : (num, bin) ≠ (other, start)) :
    bin + (arenas num).binsize ≤ start ∨ start + (arenas other).binsize ≤ bin := by
  have atBin := (held.bins num bin).mp first
  have atStart := (held.bins other start).mp second
  have apart : bin ≠ start := by
    rintro rfl
    rw [atBin] at atStart
    exact differ (by rw [bin_owner atStart])
  exact layout.apart_or atBin atStart apart

/-- A chunk, in use or not, lies in a bin of its arena. -/
theorem chunk_in_bin (sound : Sound arenas state.heap layout nodes pieces chains)
    (held : Held arenas state layout pieces) {num : Nat} {header : Int}
    (member : (num, header) ∈ state.live ∨ (num, header) ∈ state.freed) :
    ∃ bin, (num, bin) ∈ state.bins ∧ bin ≤ header ∧
      header + chunkUnits num ≤ bin + (arenas num).binsize := by
  obtain ⟨size, use, atHeader, notWild⟩ := held.chunk member
  have fits := (sound.stocked.chunk header _ atHeader notWild).1
  obtain ⟨_, bin, found, atBin, isBin, low, high⟩ := sound.stocked.within header _ atHeader
  have sized := held.sizes num bin found atBin isBin
  have member : (num, bin) ∈ state.bins := by
    refine (held.bins num bin).mpr ?_
    cases found
    cases isBin
    cases sized
    exact atBin
  dsimp only at fits high
  exact ⟨bin, member, low, by omega⟩

theorem freed_counted (sound : Sound arenas state.heap layout nodes pieces chains)
    (held : Held arenas state layout pieces) {num : Nat} (small : IsSmall num) (header : Int) :
    (chains num).count header = if (num, header) ∈ state.freed then 1 else 0 := by
  have listed := (sound.stocked.listed num small header).trans (held.freed num header).symm
  split_ifs with member
  · exact List.count_eq_one_of_mem (sound.stocked.distinct num small) (listed.mpr member)
  · exact List.count_eq_zero.mpr (fun inChain => member (listed.mp inChain))

/-- What the arena of arenas has left over is large enough for its link, and in no bin. -/
theorem link_clear (sound : Sound arenas state.heap layout nodes pieces chains)
    (held : Held arenas state layout pieces) {freep : Int} (member : freep ∈ nodes) :
    4 ≤ state.heap.smallchunkSize freep ∧
      ∀ bin, bin ∈ state.bins →
        freep + 1 < bin.2 ∨ bin.2 + (arenas bin.1).binsize ≤ freep + 1 := by
  obtain ⟨chunk, atFree, isFree⟩ := (sound.carved.listed freep).mp member
  have wide := sound.carved.wide atFree isFree
  have sized := (sound.carved.sized freep chunk atFree isFree).2
  refine ⟨sized ▸ wide, ?_⟩
  rintro ⟨num, bin⟩ inBins
  have atBin := (held.bins num bin).mp inBins
  have differ : freep ≠ bin := by
    rintro rfl
    rw [atFree] at atBin
    cases atBin
    exact nomatch isFree
  dsimp only
  rcases layout.apart_or atFree atBin differ with before | after
  · exact Or.inl (by omega)
  · exact Or.inr (by dsimp only at after; omega)

end Records

theorem in_order (valid : Valid arenas state) : InOrder arenas state := by
  obtain ⟨layout, nodes, pieces, chains, sound, held⟩ := valid
  constructor
  case liveApart => exact held.liveDistinct.imp_of_mem (live_apart sound held)
  case binsApart => exact held.binsDistinct.imp_of_mem (bins_on_record_apart held)
  case inBin => exact fun num header => chunk_in_bin sound held
  case owner =>
    intro num header member
    obtain ⟨size, use, atHeader, notWild⟩ := held.chunk member
    exact (sound.stocked.chunk header _ atHeader notWild).2
  case freed =>
    intro num small
    exact ⟨chains num, sound.stocked.linked num small, freed_counted sound held small⟩
  case linkClear => exact ⟨nodes, sound.carved.linked, fun freep => link_clear sound held⟩

/-- A bin that has been cut goes on record. -/
theorem bins_recorded {bins : List (Nat × Int)} {layout renewed : Layout Share} {num : Nat}
    {bin : Int} (recorded : ∀ other start, (other, start) ∈ bins ↔
      layout.block start = some ⟨(arenas other).binsize, .bin other⟩)
    (carves : Carves num (arenas num).binsize layout renewed bin) (other : Nat) (start : Int) :
    (other, start) ∈ (num, bin) :: bins ↔
      renewed.block start = some ⟨(arenas other).binsize, .bin other⟩ := by
  have notFree : Share.bin other ≠ .free := nofun
  rw [List.mem_cons, Prod.mk.injEq, recorded]
  by_cases same : start = bin
  · subst same
    rw [carves.handed]
    constructor
    · rintro (⟨rfl, _⟩ | before)
      · rfl
      · exact absurd (carves.fresh _ before) notFree
    · intro isBin
      exact Or.inl ⟨(bin_owner isBin).symm, rfl⟩
  · rw [carves.others start ⟨(arenas other).binsize, .bin other⟩ same notFree]
    exact ⟨fun either => either.resolve_left (fun both => same both.2), Or.inr⟩

theorem sizes_recorded {layout renewed : Layout Share} {num : Nat} {bin : Int}
    (sizes : ∀ other start found, layout.block start = some found → found.state = .bin other →
      found.size = (arenas other).binsize)
    (carves : Carves num (arenas num).binsize layout renewed bin) :
    ∀ other start found, renewed.block start = some found → found.state = .bin other →
      found.size = (arenas other).binsize := by
  intro other start found atStart isBin
  by_cases same : start = bin
  · subst same
    rw [carves.handed] at atStart
    cases atStart
    cases isBin
    rfl
  · refine sizes other start found ((carves.others start found same ?_).mp atStart) isBin
    rw [isBin]
    exact nofun

theorem bin_unrecorded {bins : List (Nat × Int)} {layout renewed : Layout Share} {num : Nat}
    {bin : Int} (recorded : ∀ other start, (other, start) ∈ bins ↔
      layout.block start = some ⟨(arenas other).binsize, .bin other⟩)
    (carves : Carves num (arenas num).binsize layout renewed bin) : (num, bin) ∉ bins := by
  intro member
  have isFree := carves.fresh _ ((recorded num bin).mp member)
  exact nomatch isFree

section Served

variable {pieces after : Layout Piece} {num : Nat} {header : Int}

/-- A chunk that is handed out changes the use of no other chunk. -/
theorem Serves.piece (serves : Serves arenas num pieces after header) {other : Nat}
    {start : Int} {use : Use} (notWild : use ≠ .wild) (differ : start ≠ header) :
    (∃ size, after.block start = some ⟨size, ⟨other, use⟩⟩) ↔
      ∃ size, pieces.block start = some ⟨size, ⟨other, use⟩⟩ :=
  exists_congr (fun _ => serves.others start _ differ notWild)

theorem served_live {live : List (Nat × Int)} (recorded : ∀ other start, (other, start) ∈ live ↔
      ∃ size, pieces.block start = some ⟨size, ⟨other, .live⟩⟩)
    (serves : Serves arenas num pieces after header) (other : Nat) (start : Int) :
    (other, start) ∈ (num, header) :: live ↔
      ∃ size, after.block start = some ⟨size, ⟨other, .live⟩⟩ := by
  rw [List.mem_cons, Prod.mk.injEq, recorded]
  by_cases same : start = header
  · subst same
    rw [serves.served]
    constructor
    · rintro (⟨rfl, _⟩ | ⟨size, before⟩)
      · exact ⟨_, rfl⟩
      · exact absurd rfl (serves.fresh _ before).2
    · rintro ⟨size, isLive⟩
      have states : (⟨num, .live⟩ : Piece) = ⟨other, .live⟩ :=
        congrArg Block.state (Option.some.inj isLive)
      cases states
      exact Or.inl ⟨rfl, rfl⟩
  · rw [serves.piece (nofun : Use.live ≠ .wild) same]
    exact ⟨fun either => either.resolve_left (fun both => same both.2), Or.inr⟩

theorem served_freed {freed : List (Nat × Int)} (recorded : ∀ other start,
      (other, start) ∈ freed ↔ ∃ size, pieces.block start = some ⟨size, ⟨other, .free⟩⟩)
    (serves : Serves arenas num pieces after header) (other : Nat) (start : Int) :
    (other, start) ∈ freed.filter (fun entry => entry ≠ (num, header)) ↔
      ∃ size, after.block start = some ⟨size, ⟨other, .free⟩⟩ := by
  rw [List.mem_filter, decide_eq_true_eq, recorded]
  by_cases same : start = header
  · subst same
    rw [serves.served]
    constructor
    · rintro ⟨⟨size, before⟩, differ⟩
      have isNum := (serves.fresh _ before).1
      dsimp only at isNum
      exact absurd (by rw [isNum]) differ
    · rintro ⟨size, isFree⟩
      cases isFree
  · rw [serves.piece (nofun : Use.free ≠ .wild) same]
    refine ⟨And.left, fun before => ⟨before, ?_⟩⟩
    intro equal
    exact same (Prod.mk.inj equal).2

end Served

theorem malloc_held {num : Nat} {header bin : Int} {layout renewed : Layout Share}
    {pieces after : Layout Piece} {heap : Heap} (needs : Prop) [Decidable needs]
    (held : Held arenas state layout pieces) (serves : Serves arenas num pieces after header)
    (carves : if needs then Carves num (arenas num).binsize layout renewed bin
      else renewed = layout) :
    Held arenas { heap := heap, live := (num, header) :: state.live
                  freed := state.freed.filter (fun entry => entry ≠ (num, header))
                  bins := if needs then (num, bin) :: state.bins else state.bins }
      renewed after := by
  have absent : (num, header) ∉ state.live := by
    intro member
    obtain ⟨size, atHeader⟩ := (held.live num header).mp member
    exact (serves.fresh _ atHeader).2 rfl
  have bins : (∀ other start, (other, start) ∈
      (if needs then (num, bin) :: state.bins else state.bins) ↔
      renewed.block start = some ⟨(arenas other).binsize, .bin other⟩) ∧
      (∀ other start found, renewed.block start = some found → found.state = .bin other →
        found.size = (arenas other).binsize) ∧
      (if needs then (num, bin) :: state.bins else state.bins).Nodup := by
    split_ifs at carves ⊢ with isNeeded
    · exact ⟨bins_recorded held.bins carves, sizes_recorded held.sizes carves,
        List.nodup_cons.mpr ⟨bin_unrecorded held.bins carves, held.binsDistinct⟩⟩
    · rw [carves]
      exact ⟨held.bins, held.sizes, held.binsDistinct⟩
  exact ⟨served_live held.live serves, served_freed held.freed serves, bins.1, bins.2.1,
    List.nodup_cons.mpr ⟨absent, held.liveDistinct⟩, bins.2.2⟩

theorem free_valid (thread : IsThread arenas) {num : Nat} {header : Int}
    (valid : Valid arenas state) (member : (num, header) ∈ state.live) :
    Valid arenas { heap := doFreeSmallChunk (arenas num) state.heap header
                   live := state.live.filter (fun entry => entry ≠ (num, header))
                   freed := (num, header) :: state.freed
                   bins := state.bins } := by
  obtain ⟨layout, nodes, pieces, chains, sound, held⟩ := valid
  obtain ⟨size, atHeader⟩ := (held.live num header).mp member
  obtain ⟨small, bin, found, atBin, _, low, _⟩ := sound.stocked.within header _ atHeader
  have placed : 0 < header := lt_of_lt_of_le (sound.carved.placed bin found atBin) low
  have wide := (sound.stocked.wide thread atHeader).2
  have ownLink : SmallUnit arenas pieces (header + 1) :=
    Or.inl ⟨header, _, atHeader, by omega, by omega⟩
  have dummyLink : SmallUnit arenas pieces ((arenas num).freelist + 1) :=
    Or.inr ⟨num, small, by omega, by omega⟩
  have carved := carved_set_second (carved_set_second sound.carved
    (small_unit_clear thread sound.carved sound.stocked ownLink)
    (state.heap.smallchunkNextfree (arenas num).freelist))
    (small_unit_clear thread sound.carved sound.stocked dummyLink) header
  refine ⟨layout, nodes, _, _, ⟨carved, sound.spans,
    sound.stocked.push thread small placed atHeader⟩, ⟨?_, ?_, held.bins, held.sizes,
    held.liveDistinct.filter _, held.binsDistinct⟩⟩
  · intro other start
    rw [List.mem_filter, decide_eq_true_eq, held.live]
    by_cases same : start = header
    · subst same
      rw [pieces.retag_self, atHeader]
      constructor
      · rintro ⟨⟨otherSize, isLive⟩, differ⟩
        cases isLive
        exact absurd rfl differ
      · rintro ⟨otherSize, isFree⟩
        cases isFree
    · rw [pieces.retag_other atHeader _ same]
      refine ⟨And.left, fun isLive => ⟨isLive, ?_⟩⟩
      intro equal
      exact same (Prod.mk.inj equal).2
  · intro other start
    rw [List.mem_cons, Prod.mk.injEq, held.freed]
    by_cases same : start = header
    · subst same
      rw [pieces.retag_self, atHeader]
      constructor
      · rintro (⟨rfl, _⟩ | ⟨otherSize, isFree⟩)
        · exact ⟨size, rfl⟩
        · cases isFree
      · rintro ⟨otherSize, isFree⟩
        cases isFree
        exact Or.inl ⟨rfl, rfl⟩
    · rw [pieces.retag_other atHeader _ same]
      exact ⟨fun either => either.resolve_left (fun both => same both.2), Or.inr⟩

theorem bin_valid (thread : IsThread arenas) {num : Nat} {start : Int} {after : Heap}
    {layout : Layout Share} {nodes : List Int} {pieces : Layout Piece} {chains : Nat → List Int}
    (sound : Sound arenas state.heap layout nodes pieces chains)
    (held : Held arenas state layout pieces)
    (handsOut : HandsOutBin arenas num (arenas num).binsize state.heap layout (start, after)) :
    Valid arenas { state with heap := after, bins := (num, start) :: state.bins } := by
  obtain ⟨renewed, others, carved, spans, carves, untouched⟩ := handsOut
  exact ⟨renewed, others, pieces, chains,
    ⟨carved, spans, stocked_after_bin thread sound carves untouched⟩,
    ⟨held.live, held.freed, bins_recorded held.bins carves, sizes_recorded held.sizes carves,
      held.liveDistinct, List.nodup_cons.mpr ⟨bin_unrecorded held.bins carves,
        held.binsDistinct⟩⟩⟩

/-- The program writes to no word the arenas rely on. -/
theorem store_valid (thread : IsThread arenas) (valid : Valid arenas state)
    {first second : Int → Int}
    (kept : ∀ unit, InMemory arenas state.heap.obtained unit → ¬ InPayload state unit →
      ¬ InLargeBin arenas state unit →
      first unit = state.heap.first unit ∧ second unit = state.heap.second unit) :
    Valid arenas { state with heap := { state.heap with first := first, second := second } } := by
  obtain ⟨layout, nodes, pieces, chains, sound, held⟩ := valid
  -- the program may write to a unit only if it lies in a bin
  have inBin : ∀ start block unit, layout.block start = some block → start ≤ unit →
      unit < start + block.size → (∀ num, block.state ≠ .bin num) →
      first unit = state.heap.first unit ∧ second unit = state.heap.second unit := by
    intro start block unit atStart above below notBin
    have clash : ∀ num bin found, layout.block bin = some found → found.state = .bin num →
        bin ≤ unit → unit < bin + found.size → False := by
      intro num bin found atBin isBin low high
      have same := layout.block_unique atBin atStart ⟨low, high⟩ ⟨above, below⟩
      subst same
      rw [atStart] at atBin
      cases atBin
      exact notBin num isBin
    refine kept unit ((sound.spans unit).mp ⟨start, block, atStart, above, below⟩) ?_ ?_
    · rintro ⟨⟨num, header⟩, member, low, high⟩
      obtain ⟨size, atHeader⟩ := (held.live num header).mp member
      obtain ⟨_, bin, found, atBin, isBin, beneath, ends⟩ := sound.stocked.within header _ atHeader
      have fits := (sound.stocked.chunk header _ atHeader nofun).1
      dsimp only at low high fits ends
      exact clash num bin found atBin isBin (by omega) (by omega)
    · rintro ⟨⟨num, bin⟩, member, _, low, high⟩
      exact clash num bin _ ((held.bins num bin).mp member) rfl low high
  -- in a small arena's bin, only if it is payload of a live chunk
  have inPiece : ∀ start piece unit, pieces.block start = some piece → start ≤ unit →
      unit < start + piece.size → (unit = start ∨ piece.state.use = .free) →
      first unit = state.heap.first unit ∧ second unit = state.heap.second unit := by
    intro start piece unit atStart above below aside
    obtain ⟨small, bin, found, atBin, isBin, beneath, ends⟩ :=
      sound.stocked.within start piece atStart
    refine kept unit ((sound.spans unit).mp ⟨bin, found, atBin, by omega, by omega⟩) ?_ ?_
    · rintro ⟨⟨num, header⟩, member, low, high⟩
      obtain ⟨size, atHeader⟩ := (held.live num header).mp member
      have fits := (sound.stocked.chunk header _ atHeader nofun).1
      dsimp only at low high fits
      have same := pieces.block_unique atStart atHeader ⟨above, below⟩
        ⟨by omega, by dsimp only; omega⟩
      subst same
      rw [atStart] at atHeader
      cases atHeader
      rcases aside with isStart | isFree
      · omega
      · exact nomatch isFree
    · rintro ⟨⟨num, other⟩, member, large, low, high⟩
      have atOther := (held.bins num other).mp member
      have same := layout.block_unique atBin atOther ⟨by omega, by omega⟩ ⟨low, high⟩
      subst same
      rw [atBin] at atOther
      cases atOther
      have isNum : piece.state.num = num := (Share.bin.inj isBin).symm
      have bound := small.2
      dsimp only at large
      omega
  have entries : ∀ entry, entry = (arenas 0).freelist ∨ entry ∈ nodes →
      first entry = state.heap.first entry ∧
        second (entry + 1) = state.heap.second (entry + 1) := by
    intro entry isEntry
    obtain ⟨block, atEntry, wide, own⟩ := sound.carved.entry isEntry
    have notBin : ∀ num, block.state ≠ .bin num := by
      intro num isBin
      rcases own with isFree | rfl
      · rw [isFree] at isBin
        exact nomatch isBin
      · rw [sound.carved.dummy] at atEntry
        cases atEntry
        exact nomatch isBin
    exact ⟨(inBin entry block entry atEntry (le_refl _) (by omega) notBin).1,
      (inBin entry block (entry + 1) atEntry (by omega) (by omega) notBin).2⟩
  refine ⟨layout, nodes, pieces, chains, ⟨sound.carved.congr entries, sound.spans,
    sound.stocked.frame (fun _ _ _ => id) rfl ?_ ?_ ?_⟩, ⟨held.live, held.freed, held.bins,
    held.sizes, held.liveDistinct, held.binsDistinct⟩⟩
  · intro start piece atStart
    have size := pieces.nonempty start piece atStart
    exact inPiece start piece start atStart (le_refl _) (by omega) (Or.inl rfl)
  · intro start piece atStart isFree
    have wide := (sound.stocked.wide thread atStart).2
    exact (inPiece start piece (start + 1) atStart (by omega) (by omega) (Or.inr isFree)).2
  · intro num small
    have atDummy := (sound.stocked.dummy num small).1
    have notBin : ∀ other, Share.dummy ≠ .bin other := nofun
    exact ⟨(inBin _ _ _ atDummy (le_refl _) (by dsimp only; omega) notBin).1,
      (inBin _ _ ((arenas num).freelist + 1) atDummy (by omega) (by dsimp only; omega) notBin).2⟩

theorem valid_step (thread : IsThread arenas) (before : State) (label : Label) (after : State)
    (valid : Valid arenas before) (step : Step arenas before label after) :
    Valid arenas after := by
  cases step with
  | malloc num block pointer fuel heap small fresh returned =>
      obtain ⟨layout, nodes, pieces, chains, sound, held⟩ := valid
      have outcome := malloc_outcome thread small sound fresh fuel
      rw [returned] at outcome
      obtain ⟨renewed, others, renewedPieces, renewedChains, soundNew, serves, bins⟩ := outcome
      exact ⟨renewed, others, renewedPieces, renewedChains, soundNew,
        malloc_held _ held serves bins⟩
  | free num pointer member =>
      exact free_valid thread valid member
  | bin num block start fuel heap isLarge fresh returned =>
      obtain ⟨layout, nodes, pieces, chains, sound, held⟩ := valid
      obtain ⟨whole, positive, room⟩ := bin_units thread ⟨(by omega : 1 ≤ num), isLarge.2⟩
      have outcome := allocate_outcome num thread sound.carved sound.spans fresh whole positive
        room fuel
      rw [returned] at outcome
      exact bin_valid thread sound held outcome
  | store first second kept =>
      exact store_valid thread valid kept

end Runs

/-- What SAC_HM_SetupMaster and SAC_HM_SetupWorkers leave: empty small arenas and
no memory, or one chunk of the arena of arenas. -/
structure SetUp (arenas : Nat → Arena) (state : State) : Prop where
  small : ∀ num, IsSmall num →
    state.heap.smallchunkNextfree (arenas num).freelist = 0 ∧
      state.heap.smallchunkSize (arenas num).freelist = 0 ∧
      state.heap.wilderness num = (arenas num).freelist
  memory : (state.heap.obtained = [] ∧
      state.heap.smallchunkNextfree (arenas 0).freelist = 0) ∨
    ∃ chunk size, state.heap.obtained = [(chunk, size)] ∧ 0 < chunk ∧ 0 < size ∧ 4 ∣ size ∧
      state.heap.smallchunkSize chunk = size ∧ state.heap.smallchunkNextfree chunk = 0 ∧
      state.heap.smallchunkNextfree (arenas 0).freelist = chunk ∧
      ∀ num, num ≤ 4 → chunk + size ≤ (arenas num).freelist ∨ (arenas num).freelist + 3 ≤ chunk
  live : state.live = []
  freed : state.freed = []
  bins : state.bins = []

section Start

variable {arenas : Nat → Arena} {state : State}

/-- The dummy entries of arenas 0 to 4. -/
def dummies (thread : IsThread arenas) : Layout Share where
  block := fun start =>
    if ∃ num ∈ List.range 5, (arenas num).freelist = start then some ⟨3, .dummy⟩ else none
  nonempty := by
    intro start found atStart
    split_ifs at atStart
    cases atStart
    decide
  apart := by
    intro low high first second atLow atHigh below
    split_ifs at atLow atHigh with isLow isHigh
    obtain ⟨num, numSmall, rfl⟩ := isLow
    obtain ⟨other, otherSmall, rfl⟩ := isHigh
    rw [List.mem_range] at numSmall otherSmall
    have differ : num ≠ other := by
      rintro rfl
      exact absurd below (lt_irrefl _)
    have apart := thread.apart num other (by omega) (by omega) differ
    cases atLow
    dsimp only
    omega

theorem dummies_at (thread : IsThread arenas) {num : Nat} (small : num ≤ 4) :
    (dummies thread).block (arenas num).freelist = some ⟨3, .dummy⟩ :=
  if_pos ⟨num, List.mem_range.mpr (by omega), rfl⟩

theorem dummies_block (thread : IsThread arenas) {start : Int} {block : Block Share}
    (atStart : (dummies thread).block start = some block) :
    (∃ num, num ≤ 4 ∧ (arenas num).freelist = start) ∧ block = ⟨3, .dummy⟩ := by
  simp only [dummies] at atStart
  split_ifs at atStart with isDummy
  obtain ⟨num, member, isStart⟩ := isDummy
  rw [List.mem_range] at member
  exact ⟨⟨num, by omega, isStart⟩, (Option.some.inj atStart).symm⟩

theorem dummies_spans (thread : IsThread arenas) : Spans arenas [] (dummies thread) := by
  intro unit
  constructor
  · rintro ⟨start, block, atStart, low, high⟩
    obtain ⟨⟨num, small, rfl⟩, rfl⟩ := dummies_block thread atStart
    exact Or.inr ⟨num, small, low, high⟩
  · rintro (⟨segment, member, _⟩ | ⟨num, small, low, high⟩)
    · exact absurd member List.not_mem_nil
    · exact ⟨_, _, dummies_at thread small, low, high⟩

theorem dummies_carved (thread : IsThread arenas) (heap : Heap)
    (nextfree : heap.smallchunkNextfree (arenas 0).freelist = 0) :
    Carved (arenas 0) heap (dummies thread) [] := by
  have noFree : ∀ start block, (dummies thread).block start = some block → block.state ≠ .free := by
    intro start block atStart
    obtain ⟨_, rfl⟩ := dummies_block thread atStart
    exact nofun
  refine ⟨?_, dummies_at thread (by decide), ?_, nextfree, List.nodup_nil, ?_⟩
  · exact fun start block atStart isFree => absurd isFree (noFree start block atStart)
  · intro start block atStart
    obtain ⟨⟨num, small, rfl⟩, _⟩ := dummies_block thread atStart
    exact thread.placed num small
  · intro freep
    refine iff_of_false List.not_mem_nil ?_
    rintro ⟨block, atFree, isFree⟩
    exact noFree freep block atFree isFree

def noPieces : Layout Piece where
  block := fun _ => none
  nonempty := nofun
  apart := nofun

/-- Without pieces only the dummy entries of the small arenas count. -/
theorem no_pieces_valid (setUp : SetUp arenas state) {layout : Layout Share} {nodes : List Int}
    (carved : Carved (arenas 0) state.heap layout nodes)
    (spans : Spans arenas state.heap.obtained layout)
    (atDummy : ∀ num, IsSmall num →
      layout.block (arenas num).freelist = some ⟨3, .dummy⟩)
    (noBin : ∀ num start found, layout.block start = some found → found.state ≠ .bin num) :
    Valid arenas state := by
  have absent : ∀ start piece, noPieces.block start = some piece → False := fun _ _ => nofun
  refine ⟨layout, nodes, noPieces, fun _ => [], ⟨carved, spans,
    ⟨?_, ?_, ?_, ?_, ?_, ?_, ?_, ?_⟩⟩, ⟨?_, ?_, ?_, ?_, ?_, ?_⟩⟩
  · exact fun start piece atStart => absurd atStart (absent start piece)
  · exact fun start piece atStart => absurd atStart (absent start piece)
  · exact fun start piece atStart => absurd atStart (absent start piece)
  · exact fun num small => Or.inl (setUp.small num small).2.2
  · exact fun num small => ⟨atDummy num small, (setUp.small num small).2.1⟩
  · exact fun num small => (setUp.small num small).1
  · exact fun _ _ => List.nodup_nil
  · exact fun _ _ header => iff_of_false List.not_mem_nil (fun ⟨_, atHeader⟩ => absent _ _ atHeader)
  · rw [setUp.live]
    exact fun _ _ => iff_of_false List.not_mem_nil (fun ⟨_, atHeader⟩ => absent _ _ atHeader)
  · rw [setUp.freed]
    exact fun _ _ => iff_of_false List.not_mem_nil (fun ⟨_, atHeader⟩ => absent _ _ atHeader)
  · rw [setUp.bins]
    exact fun num start => iff_of_false List.not_mem_nil
      (fun atStart => noBin num start _ atStart rfl)
  · exact fun num start found atStart isBin => absurd isBin (noBin num start found atStart)
  · rw [setUp.live]
    exact List.nodup_nil
  · rw [setUp.bins]
    exact List.nodup_nil

theorem set_up_valid (thread : IsThread arenas) (setUp : SetUp arenas state) :
    Valid arenas state := by
  have notBin : ∀ num start found, (dummies thread).block start = some found →
      found.state ≠ .bin num := by
    intro num start found atStart
    obtain ⟨_, rfl⟩ := dummies_block thread atStart
    exact nofun
  rcases setUp.memory with ⟨obtained, nextfree⟩ | ⟨chunk, size, obtained, placed, nonempty, whole,
    sized, ended, nextfree, apart⟩
  · refine no_pieces_valid setUp (dummies_carved thread state.heap nextfree) ?_
      (fun num small => dummies_at thread small.2) notBin
    rw [obtained]
    exact dummies_spans thread
  · have unused : ∀ unit, chunk ≤ unit → unit < chunk + size →
        ¬ (dummies thread).Covers unit := by
      rintro unit above below ⟨start, block, atStart, low, high⟩
      obtain ⟨⟨num, small, rfl⟩, rfl⟩ := dummies_block thread atStart
      have clear := apart num small
      dsimp only at high
      omega
    have differ : ∀ num, num ≤ 4 → (arenas num).freelist ≠ chunk := by
      intro num small
      have clear := apart num small
      omega
    -- the chunk and the link to it are there already; appending it writes them again
    have empty := dummies_carved thread
      (state.heap.setSmallchunkNextfree (arenas 0).freelist 0)
      ((Heap.small_nextfree_set_nextfree ..).trans (if_pos rfl))
    have appended := carved_append empty placed whole nonempty unused
    have carved : Carved (arenas 0) state.heap
        ((dummies thread).insert chunk ⟨size, .free⟩ nonempty unused) [chunk] := by
      refine appended.congr ?_
      have isLast : lastEntry (arenas 0).freelist [] = (arenas 0).freelist := rfl
      rw [isLast]
      rintro entry (rfl | member)
      · refine ⟨(if_neg (differ 0 (by decide))).symm, ?_⟩
        exact nextfree.trans (if_pos rfl).symm
      · cases List.mem_singleton.mp member
        refine ⟨sized.trans (if_pos rfl).symm, ?_⟩
        refine ended.trans (Eq.symm ?_)
        have notDummy := (differ 0 (by decide)).symm
        exact (if_neg (by omega)).trans (if_pos rfl)
    refine no_pieces_valid setUp carved ?_ ?_ ?_
    · intro unit
      rw [Layout.covers_insert, dummies_spans thread unit, obtained]
      exact (in_memory_cons arenas (chunk, size) [] unit).symm
    · intro num small
      rw [Layout.insert_block, if_neg (differ num small.2)]
      exact dummies_at thread small.2
    · intro num start found atStart
      rw [Layout.insert_block] at atStart
      split_ifs at atStart with isChunk
      · cases atStart
        exact nofun
      · exact notBin num start found atStart

/-- Whatever the program does, its small chunks and the bins stay in order, and
every request is served. -/
theorem small_arenas_in_order (arenas : Nat → Arena) (thread : IsThread arenas)
    (start after : State) (labels : List Label) (setUp : SetUp arenas start)
    (run : Run (Step arenas) start labels after) :
    InOrder arenas after ∧
      (∀ num block, IsSmall num → FreshBlock arenas after.heap block → ∃ needed, ∀ fuel,
        needed < fuel → ∃ result, mallocSmallChunk (arenas num) (arenas 0) block fuel
          (chunkUnits num) after.heap = some result) ∧
      ∀ num block, 5 ≤ num ∧ num ≤ 7 → FreshBlock arenas after.heap block → ∃ needed, ∀ fuel,
        needed < fuel → ∃ result, allocateNewBinInArenaOfArenas (arenas 0) block fuel
          (arenas num).binsize after.heap = some result := by
  have valid := run.invariant (Valid arenas) (valid_step thread) (set_up_valid thread setUp)
  refine ⟨in_order valid, ?_⟩
  obtain ⟨layout, nodes, pieces, chains, sound, _⟩ := valid
  constructor
  · intro num block small fresh
    refine ⟨nodes.length, fun fuel enough => ?_⟩
    have outcome := malloc_outcome thread small sound fresh fuel
    cases result : mallocSmallChunk (arenas num) (arenas 0) block fuel
        (chunkUnits num) after.heap with
    | none =>
        rw [result] at outcome
        exact absurd (outcome enough) not_false
    | some value => exact ⟨value, rfl⟩
  · intro num block isLarge fresh
    refine ⟨nodes.length, fun fuel enough => ?_⟩
    obtain ⟨whole, positive, room⟩ := bin_units thread ⟨(by omega : 1 ≤ num), isLarge.2⟩
    have outcome := allocate_outcome num thread sound.carved sound.spans fresh whole positive
      room fuel
    cases result : allocateNewBinInArenaOfArenas (arenas 0) block fuel (arenas num).binsize
        after.heap with
    | none =>
        rw [result] at outcome
        exact absurd (outcome enough) not_false
    | some value => exact ⟨value, rfl⟩

end Start

section Example

/-- The arenas of a worker thread, 8 units apart. -/
def worker (num : Nat) : Arena :=
  ⟨num, 8 * num, 8 * num + 1, Arenas.arenaBinsize num, Arenas.arenaMincs num⟩

def setUp : State where
  heap :=
    { first := fun _ => 0
      second := fun _ => 0
      wilderness := fun num => (worker num).freelist
      written := []
      obtained := []
      retired := [] }
  live := []
  freed := []
  bins := []

theorem worker_is_thread : IsThread worker where
  num := fun _ _ => rfl
  binsize := fun _ _ => rfl
  least := rfl
  units := by
    rintro num ⟨low, high⟩
    have cases : num = 1 ∨ num = 2 ∨ num = 3 ∨ num = 4 := by omega
    rcases cases with rfl | rfl | rfl | rfl <;> decide
  placed := by
    intro num _
    dsimp only [worker]
    omega
  apart := by
    intro low high _ _ differ
    dsimp only [worker]
    omega

theorem set_up_empty : SetUp worker setUp :=
  ⟨fun _ _ => ⟨rfl, rfl, rfl⟩, Or.inl ⟨rfl, rfl⟩, rfl, rfl, rfl⟩

theorem first_block_fresh : FreshBlock worker setUp.heap 100 := by
  refine ⟨by decide, ?_⟩
  rintro unit above _ (⟨segment, member, _⟩ | ⟨num, small, _, below⟩)
  · exact absurd member List.not_mem_nil
  · dsimp only [worker] at below
    omega

theorem small_arenas_in_order_first_chunk :
    ∃ after, Run (Step worker) setUp [.malloc 1 100 131171, .free 1 131171] after ∧
      InOrder worker after := by
  have run : ∃ after,
      Run (Step worker) setUp [.malloc 1 100 131171, .free 1 131171] after :=
    ⟨_, Run.next
      (Step.malloc setUp 1 100 131171 1 _ ⟨by decide, by decide⟩ first_block_fresh rfl)
      (Run.next (Step.free _ 1 131171 (List.mem_singleton.mpr rfl)) (Run.refl _))⟩
  obtain ⟨after, run⟩ := run
  exact ⟨after, run,
    (small_arenas_in_order worker worker_is_thread setUp after _ set_up_empty run).1⟩

end Example

end Sac2c.SmallOrder
