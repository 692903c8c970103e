import Sac2c.GeneratorIntersection

/-!
BuildNewGens of arrayopt/WithloopFusion.c: the generators of two with-loops are intersected, so
that both get the same ones in the same order. If too many arise, the new ones are freed again.
Generators have constant bounds, steps and widths, which are ints without overflow.
-/

namespace Sac2c.WithloopFusion

open LinearTransformations (Grid)
open GeneratorIntersection (newStep gridStep gridWidth new_step_spec)
open CollectedPieces CommonRuns

section Model

/-- N_generator; `step` and `width` are both there or both NULL. -/
structure Generator (dim : Nat) where
  bound1 : Fin dim → Int
  bound2 : Fin dim → Int
  grid : Option (Grid dim)

/-- N_part; `code` is the address of the N_code node. -/
structure Part (dim : Nat) where
  withid : Int
  code : Int
  generator : Generator dim

variable {dim : Nat}

/-- What is the same in all copies of a gridinfo. -/
structure GridInfo (dim : Nat) where
  offset1 : Fin dim → Int
  offset2 : Fin dim → Int
  step1 : Fin dim → Int
  step2 : Fin dim → Int
  width1 : Fin dim → Int
  width2 : Fin dim → Int
  withid1 : Int
  withid2 : Int
  ncode1 : Int
  ncode2 : Int

/-- What each copy has of its own: whether NPARTS_1 and NPARTS_2 are not NULL, and where in the
chains NPART_1 and NPART_2 are. -/
structure Links where
  nparts1 : Bool
  nparts2 : Bool
  npart1 : Nat
  npart2 : Nat

/-- The nodes that all copies point into: the new bounds, step and width, both chains of new
parts and the references to each N_code. -/
structure Nodes (dim : Nat) where
  new : Stepped dim
  parts1 : List (Part dim)
  parts2 : List (Part dim)
  used : Int → Int

/-- Match. -/
def gridMatch (info : GridInfo dim) (d : Fin dim) (position : Int) : Bool :=
  decide ((position + info.offset1 d).tmod (info.step1 d) < info.width1 d) &&
    decide ((position + info.offset2 d).tmod (info.step2 d) < info.width2 d)

/-- CODE_INC_USED. -/
def incUsed (code : Int) (used : Int → Int) : Int → Int :=
  Function.update used code (used code + 1)

/-- PART_NEXT of the part at `npart`; what was behind it is cut off. -/
def link (parts : List (Part dim)) (npart : Nat) (part : Part dim) : List (Part dim) :=
  parts.take (npart + 1) ++ [part]

/-- Both parts for a new generator. -/
def newParts (info : GridInfo dim) (new : Stepped dim) : Part dim × Part dim :=
  let genn : Generator dim := ⟨new.l, new.u, some ⟨new.step, new.width⟩⟩
  (⟨info.withid1, info.ncode1, genn⟩, ⟨info.withid2, info.ncode2, genn⟩)

def createParts (info : GridInfo dim) (links : Links) (nodes : Nodes dim) : Links × Nodes dim :=
  let (part1, part2) := newParts info nodes.new
  let used := incUsed info.ncode2 (incUsed info.ncode1 nodes.used)
  if links.nparts1 then
    ({ links with npart1 := links.npart1 + 1, npart2 := links.npart2 + 1 },
      { nodes with
        parts1 := link nodes.parts1 links.npart1 part1
        parts2 := link nodes.parts2 links.npart2 part2
        used := used })
  else (⟨true, true, 0, 0⟩, { nodes with parts1 := [part1], parts2 := [part2], used := used })

/-- GridInfoUpdate. -/
def gridInfoUpdate (links new : Links) : Links :=
  if links.nparts1 then { links with npart1 := new.npart1, npart2 := new.npart2 } else new

def Nodes.setLb (nodes : Nodes dim) (d : Fin dim) (lb : Int) : Nodes dim :=
  { nodes with new := { nodes.new with l := Function.update nodes.new.l d lb } }

def Nodes.setWidth (nodes : Nodes dim) (d : Fin dim) (width : Int) : Nodes dim :=
  { nodes with new := { nodes.new with width := Function.update nodes.new.width d width } }

/-- IntersectGrids for the first dimension of the list and all behind it. The copy for the inner
dimensions is the gridinfo with its vectors one element further. -/
def intersectGrids (info : GridInfo dim) :
    List (Fin dim) → Links × Nodes dim → Links × Nodes dim
  | [], state => state
  | d :: inner, state =>
      searchRuns (gridMatch info d) (state.2.new.step d)
        (fun first last state => (state.1, state.2.setWidth d (last - first)))
        (fun state first => decide (state.2.new.l d + first < state.2.new.u d))
        (fun first _ state =>
          let nodes := state.2.setLb d (state.2.new.l d + first)
          if inner.isEmpty then
            let (links, nodes) := createParts info state.1 nodes
            (links, nodes.setLb d (nodes.new.l d - first))
          else
            let (new, nodes) := intersectGrids info inner (state.1, nodes)
            (gridInfoUpdate state.1 new, nodes.setLb d (nodes.new.l d - first)))
        (state.2.new.step d).toNat 0 state

/-- The state of IntersectParts. -/
structure State (dim : Nat) where
  nparts1 : List (Part dim)
  nparts2 : List (Part dim)
  genCounter : Int
  used : Int → Int

/-- CreateEntryFlatArray with zeros. -/
def zeros (_ : Fin dim) : Int := 0

/-- The offsets, which are written in full for each pair of parts. -/
def writeOffset (lb : Fin dim → Int) (gen : Generator dim) : Fin dim → Int :=
  match gen.grid with
  | some grid => fun d => (lb d - gen.bound1 d).tmod (grid.step d)
  | none => zeros

/-- FillGridInfo, with dummies of ones for the step and width of a generator without them. -/
def fillGridInfo (lb : Fin dim → Int) (part1 part2 : Part dim) : GridInfo dim :=
  { offset1 := writeOffset lb part1.generator
    offset2 := writeOffset lb part2.generator
    step1 := gridStep part1.generator.grid
    step2 := gridStep part2.generator.grid
    width1 := gridWidth part1.generator.grid
    width2 := gridWidth part2.generator.grid
    withid1 := part1.withid
    withid2 := part2.withid
    ncode1 := part1.code
    ncode2 := part2.code }

/-- The loop to the last of the new parts. -/
def countParts : List (Part dim) → Int → Int
  | [], genCounter => genCounter
  | _ :: parts, genCounter => countParts parts (genCounter + 1)

/-- The new parts behind those that are there. -/
def State.append (state : State dim) (parts1 parts2 : List (Part dim)) : State dim :=
  if state.nparts1.isEmpty then
    { state with
      nparts1 := parts1
      nparts2 := parts2
      genCounter := countParts parts1.tail (state.genCounter + 1) }
  else
    { state with
      nparts1 := state.nparts1 ++ parts1
      nparts2 := state.nparts2 ++ parts2
      genCounter := countParts parts1 state.genCounter }

/-- A round of the inner loop; an error is the way to DONE where all is rolled back. -/
def intersectPair (maxNewgens : Int) (part1 part2 : Part dim) (state : State dim) :
    Except (State dim) (State dim) :=
  let gen1 := part1.generator
  let gen2 := part2.generator
  let (new, nonempty) := intersectBounds gen1.bound1 gen1.bound2 gen2.bound1 gen2.bound2
    (List.finRange dim) ⟨zeros, zeros, zeros, zeros⟩
  if nonempty && decide (state.genCounter < maxNewgens) then
    if gen1.grid.isSome || gen2.grid.isSome then
      let new := { new with step := newStep gen1.grid gen2.grid zeros }
      let (links, nodes) := intersectGrids (fillGridInfo new.l part1 part2) (List.finRange dim)
        (⟨false, false, 0, 0⟩, ⟨new, [], [], state.used⟩)
      let state := { state with used := nodes.used }
      let state := if links.nparts1 then state.append nodes.parts1 nodes.parts2 else state
      if state.genCounter > maxNewgens then .error state else .ok state
    else
      let genn : Generator dim := ⟨new.l, new.u, none⟩
      .ok
        { nparts1 := state.nparts1 ++ [⟨part1.withid, part1.code, genn⟩]
          nparts2 := state.nparts2 ++ [⟨part2.withid, part2.code, genn⟩]
          genCounter := state.genCounter + 1
          used := incUsed part2.code (incUsed part1.code state.used) }
  else if nonempty then .error state
  else .ok state

/-- Both loops of IntersectParts. -/
def intersectRounds (maxNewgens : Int) (parts1 parts2 : List (Part dim)) (used : Int → Int) :
    Except (State dim) (State dim) :=
  parts1.foldlM
    (fun state part1 =>
      parts2.foldlM (fun state part2 => intersectPair maxNewgens part1 part2 state) state)
    ⟨[], [], 0, used⟩

/-- FREEdoFreeTree of a chain of parts; it stops the compiler for NULL. -/
def freeParts (parts : List (Part dim)) (used : Int → Int) : Option (Int → Int) :=
  if parts.isEmpty then none
  else
    some (parts.foldl (fun used part => Function.update used part.code (used part.code - 1)) used)

/-- IntersectParts, with both chains of new parts. The rank is read from the first of `parts1`. -/
def intersectParts (maxNewgens : Int) (parts1 parts2 : List (Part dim)) (used : Int → Int) :
    Option (List (Part dim) × List (Part dim) × (Int → Int)) :=
  if parts1.isEmpty then none
  else
    match intersectRounds maxNewgens parts1 parts2 used with
    | .ok state => some (state.nparts1, state.nparts2, state.used)
    | .error state => do
        let used ← freeParts state.nparts1 state.used
        let used ← freeParts state.nparts2 used
        some ([], [], used)

/-- N_with: its parts and its codes. -/
structure With (dim : Nat) where
  part : List (Part dim)
  code : List Int

/-- WLUTremoveUnusedCodes. -/
def removeUnusedCodes (used : Int → Int) (codes : List Int) : List Int :=
  codes.filter fun code => used code ≠ 0

/-- BuildNewGens, with both with-loops as it leaves them: the current one is the first. -/
def buildNewGens (maxNewgens : Int) (current fusionable : With dim) (used : Int → Int) :
    Option (Bool × With dim × With dim × (Int → Int)) := do
  let (newPartsFwl, newPartsCwl, used) ←
    intersectParts maxNewgens fusionable.part current.part used
  if newPartsFwl.isEmpty then some (false, current, fusionable, used)
  else
    let used ← freeParts fusionable.part used
    let fusionable : With dim := ⟨newPartsFwl, removeUnusedCodes used fusionable.code⟩
    let used ← freeParts current.part used
    let current : With dim := ⟨newPartsCwl, removeUnusedCodes used current.code⟩
    some (true, current, fusionable, used)

end Model

section Meaning

variable {dim : Nat}

def Generator.Contains (gen : Generator dim) (iv : Fin dim → Int) : Prop :=
  ∀ d, Within (gen.bound1 d) (gen.bound2 d) (gridStep gen.grid d) (gridWidth gen.grid d) (iv d)

def Part.Contains (part : Part dim) (iv : Fin dim → Int) : Prop := part.generator.Contains iv

def Part.WellFormed (part : Part dim) : Prop :=
  ∀ grid, part.generator.grid = some grid → ∀ d, 1 ≤ grid.width d ∧ grid.width d ≤ grid.step d

/-- Each index vector of the box is in just one of the parts, and no other is in any. -/
def Tiles (lower upper : Fin dim → Int) (parts : List (Part dim)) : Prop :=
  Apart Part.Contains parts ∧
    ∀ iv, (∃ part ∈ parts, part.Contains iv) ↔ ∀ d, lower d ≤ iv d ∧ iv d < upper d

/-- Each index vector keeps its code. -/
def KeepsCodes (parts nparts : List (Part dim)) : Prop :=
  ∀ part ∈ parts, ∀ new ∈ nparts, ∀ iv, part.Contains iv → new.Contains iv → new.code = part.code

/-- Both chains have the same generators, which tile the box. -/
structure CommonPartition (lower upper : Fin dim → Int)
    (parts1 parts2 nparts1 nparts2 : List (Part dim)) : Prop where
  same : nparts1.map Part.generator = nparts2.map Part.generator
  wellFormed : ∀ part ∈ nparts1, part.WellFormed
  tiles1 : Tiles lower upper nparts1
  tiles2 : Tiles lower upper nparts2
  keeps1 : KeepsCodes parts1 nparts1
  keeps2 : KeepsCodes parts2 nparts2

def RollsBack (maxNewgens : Int) (parts1 parts2 : List (Part dim)) (used : Int → Int) : Prop :=
  ∃ state, intersectRounds maxNewgens parts1 parts2 used = .error state

/-- The result is a common partition, or NULL with both with-loops left as they are. -/
def Partitions (maxNewgens : Int) (lower upper : Fin dim → Int) (parts1 parts2 : List (Part dim))
    (used : Int → Int) : Prop :=
  ∃ nparts1 nparts2 used', intersectParts maxNewgens parts1 parts2 used =
      some (nparts1, nparts2, used') ∧
    (¬ RollsBack maxNewgens parts1 parts2 used →
      CommonPartition lower upper parts1 parts2 nparts1 nparts2) ∧
    (RollsBack maxNewgens parts1 parts2 used → nparts1 = [] ∧ nparts2 = [] ∧
      ∀ codes1 codes2, buildNewGens maxNewgens ⟨parts2, codes2⟩ ⟨parts1, codes1⟩ used =
        some (false, ⟨parts2, codes2⟩, ⟨parts1, codes1⟩, used))

end Meaning

section Grids

variable {dim : Nat} {info : GridInfo dim}

/-- The tails are the last parts of their chains. -/
structure Linked (links : Links) (nodes : Nodes dim) : Prop where
  last1 : links.nparts1 = true → nodes.parts1.length = links.npart1 + 1
  last2 : links.nparts1 = true → nodes.parts2.length = links.npart2 + 1
  none_ : links.nparts1 = false → nodes.parts1 = [] ∧ nodes.parts2 = []

/-- What the rounds add to: both chains and the references. -/
def Nodes.out (nodes : Nodes dim) : List (Part dim) × List (Part dim) × (Int → Int) :=
  (nodes.parts1, nodes.parts2, nodes.used)

/-- New parts behind both chains. -/
def addParts (info : GridInfo dim) (out : List (Part dim) × List (Part dim) × (Int → Int))
    (new : Stepped dim) : List (Part dim) × List (Part dim) × (Int → Int) :=
  (out.1 ++ [(newParts info new).1], out.2.1 ++ [(newParts info new).2],
    incUsed info.ncode2 (incUsed info.ncode1 out.2.2))

theorem link_last {parts : List (Part dim)} {npart : Nat} (last : parts.length = npart + 1)
    (part : Part dim) : link parts npart part = parts ++ [part] := by
  rw [link, ← last, List.take_length]

theorem create_parts_linked {links : Links} {nodes : Nodes dim} (linked : Linked links nodes) :
    Linked (createParts info links nodes).1 (createParts info links nodes).2 ∧
      (createParts info links nodes).2.new = nodes.new ∧
      (createParts info links nodes).2.out = addParts info nodes.out nodes.new := by
  cases some_ : links.nparts1 with
  | true =>
      have last1 := linked.last1 some_
      have last2 := linked.last2 some_
      simp only [createParts, some_, if_true, link_last last1, link_last last2]
      refine ⟨⟨fun _ => ?_, fun _ => ?_, by simp⟩, trivial, rfl⟩
      · simp [last1]
      · simp [last2]
  | false =>
      have empty := linked.none_ some_
      simp only [createParts, some_, Bool.false_eq_true, if_false]
      refine ⟨⟨fun _ => rfl, fun _ => rfl, by simp⟩, trivial, ?_⟩
      simp [Nodes.out, addParts, empty.1, empty.2]

theorem add_all (pieces : List (Stepped dim))
    (out : List (Part dim) × List (Part dim) × (Int → Int)) :
    pieces.foldl (addParts info) out =
      (out.1 ++ pieces.map fun piece => (newParts info piece).1,
        out.2.1 ++ pieces.map fun piece => (newParts info piece).2,
        pieces.foldl (fun used _ => incUsed info.ncode2 (incUsed info.ncode1 used)) out.2.2) := by
  induction pieces generalizing out with
  | nil => simp
  | cons piece pieces ih => simp [ih, addParts]

/-- The links of the copy for the inner dimensions are taken over. -/
theorem Linked.update {links new : Links} {nodes after : Nodes dim} (linked : Linked links nodes)
    (deeper : Linked new after) (grows : nodes.parts1 <+: after.parts1) :
    Linked (gridInfoUpdate links new) after := by
  cases some_ : links.nparts1 with
  | true =>
      -- a chain that was there before is not NULL behind the inner dimensions either
      have some_new : new.nparts1 = true := by
        by_contra none_
        have length := linked.last1 some_
        obtain ⟨rest, same⟩ := grows
        rw [(deeper.none_ (Bool.eq_false_iff.mpr none_)).1, List.append_eq_nil_iff] at same
        rw [same.1] at length
        cases length
      simp only [gridInfoUpdate, some_, if_true]
      exact ⟨fun _ => deeper.last1 some_new, fun _ => deeper.last2 some_new, by simp⟩
  | false =>
      simp only [gridInfoUpdate, some_, Bool.false_eq_true, if_false]
      exact deeper

theorem Linked.setLb {links : Links} {nodes : Nodes dim} (linked : Linked links nodes)
    (d : Fin dim) (lb : Int) : Linked links (nodes.setLb d lb) :=
  ⟨linked.last1, linked.last2, linked.none_⟩

/-- IntersectGrids adds parts for all pieces of the new box. -/
theorem intersect_grids_pieces {dims : List (Fin dim)} (some_ : dims ≠ []) {links : Links}
    {nodes : Nodes dim} (linked : Linked links nodes) :
    Linked (intersectGrids info dims (links, nodes)).1 (intersectGrids info dims (links, nodes)).2 ∧
      Restored dims nodes.new (intersectGrids info dims (links, nodes)).2.new ∧
      (intersectGrids info dims (links, nodes)).2.out =
        (pieces (gridMatch info) dims nodes.new).foldl (addParts info) nodes.out := by
  induction dims generalizing links nodes with
  | nil => exact absurd rfl some_
  | cons d inner ih =>
      rw [← and_assoc]
      refine search_pieces
        (fun state : Links × Nodes dim =>
          Linked state.1 state.2 ∧ Restored (d :: inner) nodes.new state.2.new)
        (fun state => state.2.out) (addParts info)
        (fun first last state kept => ?_) (fun state first kept => ?_)
        (fun first last state kept => ?_) ⟨linked, .refl _ _⟩
      · exact ⟨⟨⟨kept.1.last1, kept.1.last2, kept.1.none_⟩, kept.2.widen _⟩, rfl⟩
      · rw [kept.2.l, kept.2.u]
      · obtain ⟨linked, restored⟩ := kept
        have part : pieces (gridMatch info) inner (state.2.new.cut d (first, last)) =
            pieces (gridMatch info) inner (nodes.new.cut d (first, last)) :=
          (restored.cut _).pieces_eq
        rw [← part]
        let inside : Nodes dim := { state.2 with new := state.2.new.cut d (first, last) }
        have entered : Linked state.1 inside := ⟨linked.last1, linked.last2, linked.none_⟩
        cases inner with
        | nil =>
            obtain ⟨created, new, out⟩ := @create_parts_linked _ info _ _ entered
            have kept : Restored [] (state.2.new.cut d (first, last))
                (createParts info state.1 inside).2.new := by
              rw [new]
              exact .refl _ _
            exact ⟨⟨created.setLb _ _, restored.uncut kept⟩, out⟩
        | cons next inner =>
            obtain ⟨deeper, kept, out⟩ := ih (List.cons_ne_nil next inner) entered
            have grows : state.2.parts1 <+:
                (intersectGrids info (next :: inner) (state.1, inside)).2.parts1 := by
              rw [add_all] at out
              exact ⟨_, (congrArg Prod.fst out).symm⟩
            exact ⟨⟨(linked.update deeper grows).setLb _ _, restored.uncut kept⟩, out⟩

end Grids

section Pair

variable {dim : Nat}

/-- The new parts of both chains that are made together contain the same index vectors. -/
def ItemContains (item : Part dim × Part dim) (iv : Fin dim → Int) : Prop := item.1.Contains iv

/-- The index vectors that both of a pair contain. -/
def both : Part dim × Part dim → (Fin dim → Int) → Prop := Both Part.Contains Part.Contains

/-- What is known of the new parts that are made for a pair. -/
structure FromPair (pair item : Part dim × Part dim) : Prop where
  same : item.1.generator = item.2.generator
  code1 : item.1.code = pair.1.code
  code2 : item.2.code = pair.2.code
  wellFormed : item.1.WellFormed

/-- The bounds of a pair overlap in each dimension. -/
def Overlaps (pair : Part dim × Part dim) : Prop :=
  ∀ d, max (pair.1.generator.bound1 d) (pair.2.generator.bound1 d) <
    min (pair.1.generator.bound2 d) (pair.2.generator.bound2 d)

variable {part1 part2 : Part dim}

theorem Part.WellFormed.steps {part : Part dim} (wellFormed : part.WellFormed) (d : Fin dim) :
    1 ≤ gridWidth part.generator.grid d ∧
      gridWidth part.generator.grid d ≤ gridStep part.generator.grid d := by
  cases here : part.generator.grid with
  | none => simp [gridStep, gridWidth]
  | some grid => exact wellFormed grid here d

/-- A position of the period, counted from the start of the grid. -/
theorem offset_match {gen : Generator dim} {lb : Fin dim → Int} {d : Fin dim}
    (positive : 0 < gridStep gen.grid d) (later : gen.bound1 d ≤ lb d) {j : Int} (nonneg : 0 ≤ j) :
    (j + writeOffset lb gen d).tmod (gridStep gen.grid d) < gridWidth gen.grid d ↔
      (j + (lb d - gen.bound1 d) % gridStep gen.grid d) % gridStep gen.grid d <
        gridWidth gen.grid d := by
  cases here : gen.grid with
  | none => simp [gridStep, gridWidth]
  | some grid =>
      rw [here] at positive
      have offset : (lb d - gen.bound1 d).tmod (grid.step d) =
          (lb d - gen.bound1 d) % grid.step d := Int.tmod_eq_emod_of_nonneg (by omega)
      have low : 0 ≤ (lb d - gen.bound1 d) % grid.step d :=
        Int.emod_nonneg _ (Int.ne_of_gt positive)
      simp [writeOffset, here, gridStep, gridWidth, offset,
        Int.tmod_eq_emod_of_nonneg (Int.add_nonneg nonneg low)]

/-- The pieces of the new box are what both parts contain. -/
theorem grids_collected (wellFormed1 : part1.WellFormed) (wellFormed2 : part2.WellFormed)
    (some_ : (part1.generator.grid.isSome || part2.generator.grid.isSome) = true)
    (base : Stepped dim) {step : Fin dim → Int}
    (period : base.step = newStep part1.generator.grid part2.generator.grid step)
    (bounds : ∀ d, base.l d = max (part1.generator.bound1 d) (part2.generator.bound1 d) ∧
      base.u d = min (part1.generator.bound2 d) (part2.generator.bound2 d)) :
    Collected Stepped.Contains both
      (fun _ piece => ∀ d, 1 ≤ piece.width d ∧ piece.width d ≤ piece.step d) [(part1, part2)]
      (pieces (gridMatch (fillGridInfo base.l part1 part2)) (List.finRange dim) base) := by
  have steps1 (d : Fin dim) : 0 < gridStep part1.generator.grid d := by
    have := wellFormed1.steps d
    omega
  have steps2 (d : Fin dim) : 0 < gridStep part2.generator.grid d := by
    have := wellFormed2.steps d
    omega
  have spec (d : Fin dim) := new_step_spec some_ (steps1 d) (steps2 d) step
  rw [← period] at spec
  refine pieces_collected (fun iv => Iff.rfl) List.mem_finRange (List.nodup_finRange dim)
    (fun d => (spec d).1) fun d i => ?_
  have later := (bounds d).1
  refine marks_iff (spec d).1 (bounds d).1 (bounds d).2 (spec d).2.1 (spec d).2.2
    fun j nonneg => ?_
  rw [gridMatch, Bool.and_eq_true, decide_eq_true_eq, decide_eq_true_eq]
  exact and_congr (offset_match (steps1 d) (by omega) nonneg)
    (offset_match (steps2 d) (by omega) nonneg)

/-- The new parts for the pieces. -/
theorem new_parts_collected (lb : Fin dim → Int) {parts : List (Stepped dim)}
    (collected : Collected Stepped.Contains both
      (fun _ piece => ∀ d, 1 ≤ piece.width d ∧ piece.width d ≤ piece.step d) [(part1, part2)]
      parts) :
    Collected ItemContains both FromPair [(part1, part2)]
      (parts.map (newParts (fillGridInfo lb part1 part2))) := by
  refine collected.map _ (fun _ _ => Iff.rfl) ?_
  rintro pair member piece widths
  cases List.mem_singleton.mp member
  refine ⟨rfl, rfl, rfl, ?_⟩
  rintro _ ⟨⟩
  exact widths

/-- Without grids the new parts have just the bounds. -/
theorem plain_collected (none_ : part1.generator.grid = none ∧ part2.generator.grid = none)
    {l u : Fin dim → Int}
    (bounds : ∀ d, l d = max (part1.generator.bound1 d) (part2.generator.bound1 d) ∧
      u d = min (part1.generator.bound2 d) (part2.generator.bound2 d)) :
    Collected ItemContains both FromPair [(part1, part2)]
      [(⟨part1.withid, part1.code, ⟨l, u, none⟩⟩, ⟨part2.withid, part2.code, ⟨l, u, none⟩⟩)] := by
  refine .single ⟨rfl, rfl, rfl, by simp [Part.WellFormed]⟩ fun iv => ?_
  simp only [both, Both, ItemContains, Part.Contains, Generator.Contains, ← forall_and, none_]
  exact forall_congr' fun d => plain_iff (bounds d).1 (bounds d).2

theorem both_overlap {pair : Part dim × Part dim} {iv : Fin dim → Int} (inside : both pair iv) :
    Overlaps pair := by
  intro d
  have inside1 := inside.1 d
  have inside2 := inside.2 d
  simp only [Within] at inside1 inside2
  omega

/-- Of two parts with bounds that overlap, the first contains its lower bound. -/
theorem overlap_inhabits {pair : Part dim × Part dim} (wellFormed : pair.1.WellFormed)
    (overlaps : Overlaps pair) : pair.1.Contains pair.1.generator.bound1 := by
  intro d
  have overlap := overlaps d
  have width := wellFormed.steps d
  refine ⟨Int.le_refl _, by omega, ?_⟩
  rw [Int.sub_self, Int.zero_emod]
  omega

/-- Nothing is in both parts if their bounds do not overlap. -/
theorem apart_collected (apart : ¬ Overlaps (part1, part2)) :
    Collected ItemContains both FromPair [(part1, part2)] [] :=
  .empty fun _ inside => apart (both_overlap inside)

end Pair

section Rounds

variable {dim : Nat} {maxNewgens : Int} {used : Int → Int}

/-- The references to the codes, with those of the new parts. -/
def references (items : List (Part dim × Part dim)) (used : Int → Int) : Int → Int :=
  items.foldl (fun used item => incUsed item.2.code (incUsed item.1.code used)) used

/-- The state of the loops, where `items` were made so far. -/
structure Holds (used : Int → Int) (items : List (Part dim × Part dim)) (state : State dim) :
    Prop where
  nparts1 : state.nparts1 = items.map Prod.fst
  nparts2 : state.nparts2 = items.map Prod.snd
  genCounter : state.genCounter = items.length
  used : state.used = references items used

/-- The end of some rounds: either the new parts are the intersections of the pairs, or too many
were made. If none are allowed, this is so at the first pair that overlaps. -/
inductive Outcome (maxNewgens : Int) (used : Int → Int) (items pairs : List (Part dim × Part dim)) :
    Except (State dim) (State dim) → Prop where
  | passed {after : State dim} (new : List (Part dim × Part dim))
      (holds : Holds used (items ++ new) after)
      (collected : Collected ItemContains both FromPair pairs new)
      (apart : maxNewgens ≤ 0 → new = [] ∧ ∀ pair ∈ pairs, ¬ Overlaps pair) :
      Outcome maxNewgens used items pairs (.ok after)
  | failed {after : State dim} (made : List (Part dim × Part dim)) (holds : Holds used made after)
      (full : maxNewgens ≤ made.length) (unchanged : maxNewgens ≤ 0 → made = items)
      (overlaps : ∃ pair ∈ pairs, Overlaps pair) :
      Outcome maxNewgens used items pairs (.error after)

variable {items new : List (Part dim × Part dim)} {state : State dim}

theorem count_parts (parts : List (Part dim)) (genCounter : Int) :
    countParts parts genCounter = genCounter + parts.length := by
  induction parts generalizing genCounter with
  | nil => simp [countParts]
  | cons part parts ih =>
      rw [countParts, ih, List.length_cons]
      omega

theorem references_append (items new : List (Part dim × Part dim)) (used : Int → Int) :
    references (items ++ new) used = references new (references items used) :=
  List.foldl_append

/-- The new parts of a pair behind the others. -/
theorem Holds.append (holds : Holds used items state) (some_ : new ≠ []) :
    Holds used (items ++ new)
      (State.append { state with used := references new state.used } (new.map Prod.fst)
        (new.map Prod.snd)) := by
  have counted := holds.genCounter
  cases items with
  | nil =>
      cases new with
      | nil => exact absurd rfl some_
      | cons item new =>
          have empty : state.nparts1.isEmpty = true := by simp [holds.nparts1]
          simp only [State.append, empty, if_true]
          refine ⟨rfl, rfl, ?_, ?_⟩
          · rw [count_parts, counted]
            simp
            omega
          · rw [references_append, ← holds.used]
  | cons first items =>
      have nonempty : state.nparts1.isEmpty = false := by simp [holds.nparts1]
      simp only [State.append, nonempty, Bool.false_eq_true, if_false]
      refine ⟨?_, ?_, ?_, ?_⟩
      · rw [holds.nparts1, List.map_append]
      · rw [holds.nparts2, List.map_append]
      · rw [count_parts, counted]
        simp
        omega
      · rw [references_append, ← holds.used]

/-- The new parts of IntersectGrids are taken over if there are any. -/
theorem Holds.grids {info : GridInfo dim} {links : Links} {nodes : Nodes dim}
    {parts : List (Stepped dim)} (holds : Holds used items state) (linked : Linked links nodes)
    (out : nodes.out = parts.foldl (addParts info) ([], [], state.used)) :
    Holds used (items ++ parts.map (newParts info))
      (if links.nparts1 then
        State.append { state with used := nodes.used } nodes.parts1 nodes.parts2
      else { state with used := nodes.used }) := by
  have used_ : nodes.used = references (parts.map (newParts info)) state.used := by
    have same := congrArg (fun out => out.2.2) out
    rw [add_all] at same
    rw [references, List.foldl_map]
    exact same
  have parts1 : nodes.parts1 = (parts.map (newParts info)).map Prod.fst := by
    have same := congrArg Prod.fst out
    rw [add_all] at same
    rw [List.map_map]
    exact same
  have parts2 : nodes.parts2 = (parts.map (newParts info)).map Prod.snd := by
    have same := congrArg (fun out => out.2.1) out
    rw [add_all] at same
    rw [List.map_map]
    exact same
  rw [used_, parts1, parts2]
  cases parts with
  | nil =>
      -- a chain would have a last part
      have none_ : ¬ links.nparts1 = true := by
        intro some_
        have length := linked.last1 some_
        rw [parts1] at length
        cases length
      rw [if_neg none_, List.map_nil, List.append_nil]
      exact ⟨holds.nparts1, holds.nparts2, holds.genCounter, holds.used⟩
  | cons piece parts =>
      have some_ : links.nparts1 = true := by
        by_contra none_
        have empty := (linked.none_ (Bool.eq_false_iff.mpr none_)).1
        rw [parts1] at empty
        cases empty
      rw [if_pos some_]
      exact holds.append (by simp)

/-- Behind the parts that IntersectGrids made the count is checked again. -/
theorem Holds.checked {pair : Part dim × Part dim} (holds : Holds used (items ++ new) state)
    (collected : Collected ItemContains both FromPair [pair] new) (some_ : 0 < maxNewgens)
    (overlaps : Overlaps pair) :
    Outcome maxNewgens used items [pair]
      (if state.genCounter > maxNewgens then .error state else .ok state) := by
  have length := holds.genCounter
  split
  next more =>
    exact .failed _ holds (by omega) (by omega) ⟨_, List.mem_singleton_self _, overlaps⟩
  next => exact .passed _ holds collected (by omega)

/-- A round of the inner loop. -/
theorem intersect_pair_outcome (rank : 0 < dim) {part1 part2 : Part dim}
    (wellFormed1 : part1.WellFormed) (wellFormed2 : part2.WellFormed)
    (holds : Holds used items state) :
    Outcome maxNewgens used items [(part1, part2)]
      (intersectPair maxNewgens part1 part2 state) := by
  have everywhere (d : Fin dim) : d ∈ List.finRange dim := List.mem_finRange d
  have dims : List.finRange dim ≠ [] := List.ne_nil_of_mem (everywhere ⟨0, rank⟩)
  have counted := holds.genCounter
  simp only [intersectPair]
  generalize bounded : intersectBounds part1.generator.bound1 part1.generator.bound2
    part2.generator.bound1 part2.generator.bound2 (List.finRange dim)
    ⟨zeros, zeros, zeros, zeros⟩ = result
  have overlaps_iff : result.2 = true ↔ Overlaps (part1, part2) := by
    rw [← bounded, intersect_bounds_complete]
    exact ⟨fun all d => all d (everywhere d), fun all d _ => all d⟩
  have bounds (complete : result.2 = true) (d : Fin dim) :
      result.1.l d = max (part1.generator.bound1 d) (part2.generator.bound1 d) ∧
        result.1.u d = min (part1.generator.bound2 d) (part2.generator.bound2 d) := by
    rw [← bounded] at complete ⊢
    exact intersect_bounds_written complete (everywhere d)
  by_cases complete : result.2 = true
  · have overlaps := overlaps_iff.mp complete
    by_cases room : state.genCounter < maxNewgens
    · simp only [complete, room, decide_true, Bool.and_self, if_true]
      by_cases some_ : (part1.generator.grid.isSome || part2.generator.grid.isSome) = true
      · rw [if_pos some_]
        -- no part is linked yet when IntersectGrids is called
        let base : Stepped dim :=
          { result.1 with step := newStep part1.generator.grid part2.generator.grid zeros }
        have start : Linked ⟨false, false, 0, 0⟩ (⟨base, [], [], state.used⟩ : Nodes dim) :=
          ⟨by simp, by simp, fun _ => ⟨rfl, rfl⟩⟩
        obtain ⟨linked, -, out⟩ :=
          @intersect_grids_pieces _ (fillGridInfo base.l part1 part2) _ dims _ _ start
        have made := holds.grids linked out
        have collected := new_parts_collected base.l
          (grids_collected wellFormed1 wellFormed2 some_ base (by rfl) (bounds complete))
        exact made.checked collected (by omega) overlaps
      · -- without a grid the intersection is a box, and one part is made of it
        rw [if_neg some_]
        simp only [Bool.or_eq_true, not_or, Bool.not_eq_true, Option.isSome_eq_false_iff,
          Option.isNone_iff_eq_none] at some_
        refine .passed [_] ⟨?_, ?_, ?_, ?_⟩ (plain_collected some_ (bounds complete)) (by omega)
        · rw [holds.nparts1, List.map_append]
          rfl
        · rw [holds.nparts2, List.map_append]
          rfl
        · simp [counted]
        · rw [references_append, ← holds.used]
          rfl
    · -- the box is not empty, but the count has reached its limit before
      simp only [complete, room, decide_false, Bool.and_false, Bool.false_eq_true, if_false,
        if_true]
      exact .failed items holds (by omega) (fun _ => rfl) ⟨_, List.mem_singleton_self _, overlaps⟩
  · have apart := mt overlaps_iff.mpr complete
    simp only [Bool.not_eq_true] at complete
    simp only [complete, Bool.false_and, Bool.false_eq_true, if_false]
    refine .passed [] (by simpa using holds) (apart_collected apart) fun _ =>
      ⟨rfl, fun pair member => ?_⟩
    rwa [List.mem_singleton.mp member]

/-- All rounds, in the order of both loops. -/
theorem rounds_outcome (rank : 0 < dim) {pairs : List (Part dim × Part dim)}
    (apart : Apart both pairs) (wellFormed : ∀ pair ∈ pairs, pair.1.WellFormed ∧ pair.2.WellFormed)
    (holds : Holds used items state) :
    Outcome maxNewgens used items pairs
      (pairs.foldlM (fun state pair => intersectPair maxNewgens pair.1 pair.2 state) state) := by
  induction pairs generalizing items state with
  | nil =>
      exact .passed [] (by simpa using holds) .nothing fun _ => ⟨rfl, by simp⟩
  | cons pair pairs ih =>
      obtain ⟨here, rest⟩ := List.forall_mem_cons.mp wellFormed
      obtain ⟨first_apart, apart⟩ := List.pairwise_cons.mp apart
      have first := @intersect_pair_outcome _ maxNewgens _ _ _ rank _ _ here.1 here.2 holds
      rw [List.foldlM_cons]
      generalize intersectPair maxNewgens pair.1 pair.2 state = result at first ⊢
      cases first with
      | failed made holds full unchanged overlaps =>
          obtain ⟨_, member, overlaps⟩ := overlaps
          cases List.mem_singleton.mp member
          exact .failed made holds full unchanged ⟨pair, List.mem_cons_self, overlaps⟩
      | @passed next new holds collected none_ =>
          have later := ih apart rest holds
          change Outcome _ _ _ _ (pairs.foldlM
            (fun state pair => intersectPair maxNewgens pair.1 pair.2 state) next)
          generalize pairs.foldlM (fun state pair => intersectPair maxNewgens pair.1 pair.2 state)
            next = result at later ⊢
          cases later with
          | failed made holds full unchanged overlaps =>
              -- if no part is allowed, this pair made none either
              obtain ⟨other, member, overlaps⟩ := overlaps
              refine .failed made holds full (fun none => ?_)
                ⟨other, List.mem_cons_of_mem pair member, overlaps⟩
              rw [unchanged none, (none_ none).1, List.append_nil]
          | passed new' holds collected' none' =>
              refine .passed (new ++ new') (by rwa [← List.append_assoc]) ?_ fun none => ?_
              · refine collected.append collected' fun source here other member iv => ?_
                cases List.mem_singleton.mp here
                exact first_apart other member iv
              · refine ⟨by rw [(none_ none).1, (none' none).1]; rfl, ?_⟩
                exact List.forall_mem_cons.mpr
                  ⟨(none_ none).2 pair List.mem_cons_self, (none' none).2⟩

theorem intersect_rounds_outcome (rank : 0 < dim) {parts1 parts2 : List (Part dim)}
    (apart1 : Apart Part.Contains parts1) (apart2 : Apart Part.Contains parts2)
    (wellFormed1 : ∀ part ∈ parts1, part.WellFormed)
    (wellFormed2 : ∀ part ∈ parts2, part.WellFormed) (maxNewgens : Int) (used : Int → Int) :
    Outcome maxNewgens used [] (pairs parts1 parts2)
      (intersectRounds maxNewgens parts1 parts2 used) := by
  rw [intersectRounds, ← foldlM_pairs]
  refine rounds_outcome rank (pairs_apart apart1 apart2) (fun pair member => ?_)
    ⟨rfl, rfl, rfl, rfl⟩
  have inLists := mem_pairs.mp member
  exact ⟨wellFormed1 _ inLists.1, wellFormed2 _ inLists.2⟩

end Rounds

section Freeing

variable {dim : Nat}

/-- How many of the parts have the code. -/
def namings (code : Int) (parts : List (Part dim)) : Nat :=
  parts.countP fun part => decide (part.code = code)

/-- One reference, if it is to the code. -/
def named (code : Int) (part : Part dim) : Nat := if part.code = code then 1 else 0

theorem namings_cons (code : Int) (part : Part dim) (parts : List (Part dim)) :
    namings code (part :: parts) = namings code parts + named code part := by
  simp [namings, named, List.countP_cons]

theorem inc_used_apply (part : Part dim) (used : Int → Int) (code : Int) :
    incUsed part.code used code = used code + named code part := by
  rw [incUsed, named, Function.update_apply]
  by_cases same : code = part.code
  · rw [if_pos same, if_pos same.symm, same]
    rfl
  · rw [if_neg same, if_neg (Ne.symm same)]
    exact (Int.add_zero _).symm

theorem references_count (items : List (Part dim × Part dim)) (used : Int → Int) (code : Int) :
    references items used code =
      used code + namings code (items.map Prod.fst) + namings code (items.map Prod.snd) := by
  induction items generalizing used with
  | nil => simp [references, namings]
  | cons item items ih =>
      have first := ih (incUsed item.2.code (incUsed item.1.code used))
      rw [references] at first
      rw [references, List.foldl_cons, first, inc_used_apply, inc_used_apply, List.map_cons,
        List.map_cons, namings_cons, namings_cons]
      omega

theorem free_parts {parts : List (Part dim)} (some_ : parts ≠ []) (used : Int → Int) :
    ∃ after, freeParts parts used = some after ∧
      ∀ code, after code = used code - namings code parts := by
  refine ⟨_, if_neg (by simpa using some_), fun code => ?_⟩
  clear some_
  induction parts generalizing used with
  | nil => simp [namings]
  | cons part parts ih =>
      rw [List.foldl_cons, ih, namings_cons, named, Function.update_apply]
      by_cases same : code = part.code
      · rw [if_pos same, if_pos same.symm, same]
        omega
      · rw [if_neg same, if_neg (Ne.symm same)]
        omega

/-- Freeing both chains takes back all references of the new parts. -/
theorem free_restores {items : List (Part dim × Part dim)} (some_ : items ≠ [])
    (used : Int → Int) : ∃ middle,
    freeParts (items.map Prod.fst) (references items used) = some middle ∧
      freeParts (items.map Prod.snd) middle = some used := by
  obtain ⟨middle, first, less⟩ :=
    @free_parts _ (items.map Prod.fst) (by simpa using some_) (references items used)
  obtain ⟨last, second, less'⟩ := @free_parts _ (items.map Prod.snd) (by simpa using some_) middle
  have back : last = used := by
    funext code
    rw [less', less, references_count]
    omega
  exact ⟨middle, first, back ▸ second⟩

end Freeing

section Partition

variable {dim : Nat} {lower upper : Fin dim → Int} {parts1 parts2 : List (Part dim)}
  {sources items : List (Part dim × Part dim)}

/-- One chain of new parts tiles the box that the pairs cover. -/
theorem side_tiles (collected : Collected ItemContains both FromPair sources items)
    (side : Part dim × Part dim → Part dim)
    (same : ∀ item ∈ items, ∀ iv, (side item).Contains iv ↔ ItemContains item iv)
    (box : ∀ iv, (∃ pair ∈ sources, both pair iv) ↔ ∀ d, lower d ≤ iv d ∧ iv d < upper d) :
    Tiles lower upper (items.map side) := by
  refine ⟨List.pairwise_map.mpr ?_, fun iv => ?_⟩
  · refine collected.apart.imp_of_mem fun {item other} member member' apart iv inside inside' => ?_
    exact apart iv ((same item member iv).mp inside) ((same other member' iv).mp inside')
  · rw [← box, ← collected.exact]
    simp only [List.mem_map, exists_exists_and_eq_and]
    exact exists_congr fun item => and_congr_right fun member => same item member iv

/-- The new parts of one chain have the codes of the old ones. -/
theorem side_keeps {parts : List (Part dim)}
    (collected : Collected ItemContains both FromPair sources items)
    (apart : Apart Part.Contains parts) (side : Part dim × Part dim → Part dim)
    (same : ∀ item ∈ items, ∀ iv, (side item).Contains iv ↔ ItemContains item iv)
    (old : ∀ pair ∈ sources, side pair ∈ parts ∧ ∀ iv, both pair iv → (side pair).Contains iv)
    (codes : ∀ pair item, FromPair pair item → (side item).code = (side pair).code) :
    KeepsCodes parts (items.map side) := by
  intro part member new listed iv inside inside'
  obtain ⟨item, made, rfl⟩ := List.mem_map.mp listed
  obtain ⟨pair, paired, from_, origin⟩ := collected.origin item made
  obtain ⟨inParts, contains⟩ := old pair paired
  have known := contains iv (origin iv ((same item made iv).mp inside'))
  rw [codes pair item from_, apart.only_one inParts member known inside]

/-- The intersections of all pairs are a common partition. -/
theorem collected_partition (tiles1 : Tiles lower upper parts1) (tiles2 : Tiles lower upper parts2)
    (collected : Collected ItemContains both FromPair (pairs parts1 parts2) items) :
    CommonPartition lower upper parts1 parts2 (items.map Prod.fst) (items.map Prod.snd) := by
  have same (item : Part dim × Part dim) (member : item ∈ items) :
      item.1.generator = item.2.generator := by
    obtain ⟨pair, -, from_, -⟩ := collected.origin item member
    exact from_.same
  have first (item : Part dim × Part dim) (_ : item ∈ items) (iv : Fin dim → Int) :
      item.1.Contains iv ↔ ItemContains item iv := Iff.rfl
  have second (item : Part dim × Part dim) (member : item ∈ items) (iv : Fin dim → Int) :
      item.2.Contains iv ↔ ItemContains item iv := by
    rw [ItemContains, Part.Contains, Part.Contains, same item member]
  have box (iv : Fin dim → Int) :
      (∃ pair ∈ pairs parts1 parts2, both pair iv) ↔ ∀ d, lower d ≤ iv d ∧ iv d < upper d := by
    constructor
    · rintro ⟨pair, member, inside, -⟩
      exact (tiles1.2 iv).mp ⟨pair.1, (mem_pairs.mp member).1, inside⟩
    · intro inBox
      obtain ⟨part1, member1, inside1⟩ := (tiles1.2 iv).mpr inBox
      obtain ⟨part2, member2, inside2⟩ := (tiles2.2 iv).mpr inBox
      exact ⟨(part1, part2), mem_pairs.mpr ⟨member1, member2⟩, inside1, inside2⟩
  exact
    { same := by
        rw [List.map_map, List.map_map]
        exact List.map_congr_left same
      wellFormed := by
        refine List.forall_mem_map.mpr fun item member => ?_
        obtain ⟨pair, -, from_, -⟩ := collected.origin item member
        exact from_.wellFormed
      tiles1 := side_tiles collected Prod.fst first box
      tiles2 := side_tiles collected Prod.snd second box
      keeps1 := side_keeps collected tiles1.1 Prod.fst first
        (fun pair member => ⟨(mem_pairs.mp member).1, fun iv inside => inside.1⟩)
        fun pair item from_ => from_.code1
      keeps2 := side_keeps collected tiles2.1 Prod.snd second
        (fun pair member => ⟨(mem_pairs.mp member).2, fun iv inside => inside.2⟩)
        fun pair item from_ => from_.code2 }

theorem parts_passed {maxNewgens : Int} {used : Int → Int} {after : State dim}
    (some_ : parts1 ≠ []) (rounds : intersectRounds maxNewgens parts1 parts2 used = .ok after) :
    intersectParts maxNewgens parts1 parts2 used =
      some (after.nparts1, after.nparts2, after.used) := by
  rw [intersectParts, if_neg (by simpa using some_), rounds]

/-- What was made is freed again, and with it the references to the codes. -/
theorem parts_failed {maxNewgens : Int} {used : Int → Int} {after : State dim}
    (some_ : parts1 ≠ []) (rounds : intersectRounds maxNewgens parts1 parts2 used = .error after)
    (holds : Holds used items after) (made : items ≠ []) :
    intersectParts maxNewgens parts1 parts2 used = some ([], [], used) := by
  obtain ⟨middle, first, second⟩ := free_restores made used
  rw [intersectParts, if_neg (by simpa using some_), rounds]
  simp only [holds.nparts1, holds.nparts2, holds.used, first, second, Option.bind_eq_bind,
    Option.bind_some]

/-- The lower corner of a box that is not empty is in a part of each list, so they overlap. -/
theorem corner_overlaps (tiles1 : Tiles lower upper parts1) (tiles2 : Tiles lower upper parts2)
    (inBox : ∀ d, lower d < upper d) : ∃ pair ∈ pairs parts1 parts2, Overlaps pair := by
  have corner (d : Fin dim) : lower d ≤ lower d ∧ lower d < upper d := ⟨Int.le_refl _, inBox d⟩
  obtain ⟨part1, member1, inside1⟩ := (tiles1.2 lower).mpr corner
  obtain ⟨part2, member2, inside2⟩ := (tiles2.2 lower).mpr corner
  exact ⟨(part1, part2), mem_pairs.mpr ⟨member1, member2⟩, both_overlap ⟨inside1, inside2⟩⟩

/-- Parts that overlap do not tile an empty box. -/
theorem overlaps_inside (wellFormed1 : ∀ part ∈ parts1, part.WellFormed)
    (tiles1 : Tiles lower upper parts1) {pair : Part dim × Part dim}
    (member : pair ∈ pairs parts1 parts2) (overlaps : Overlaps pair) (d : Fin dim) :
    lower d < upper d := by
  have inLists := mem_pairs.mp member
  have inside := overlap_inhabits (wellFormed1 pair.1 inLists.1) overlaps
  have inBox := (tiles1.2 _).mp ⟨pair.1, inLists.1, inside⟩ d
  omega

/-- If no new part is allowed, the first pair that overlaps stops the compiler. -/
theorem parts_stop {maxNewgens : Int} {used : Int → Int} (none_ : maxNewgens < 1)
    (overlaps : ∃ pair ∈ pairs parts1 parts2, Overlaps pair)
    (outcome : Outcome maxNewgens used [] (pairs parts1 parts2)
      (intersectRounds maxNewgens parts1 parts2 used)) :
    intersectParts maxNewgens parts1 parts2 used = none := by
  obtain ⟨pair, member, overlaps⟩ := overlaps
  rw [intersectParts]
  split
  · rfl
  · generalize intersectRounds maxNewgens parts1 parts2 used = result at outcome ⊢
    cases outcome with
    | passed new holds collected apart =>
        exact absurd overlaps ((apart (by omega)).2 pair member)
    | failed made holds full unchanged _ =>
        have nothing : made = [] := unchanged (by omega)
        simp only [holds.nparts1, nothing, List.map_nil]
        rfl

theorem partitions_of_passed {maxNewgens : Int} {used : Int → Int} {after : State dim}
    (tiles1 : Tiles lower upper parts1) (tiles2 : Tiles lower upper parts2) (some_ : parts1 ≠ [])
    (rounds : intersectRounds maxNewgens parts1 parts2 used = .ok after)
    (holds : Holds used items after)
    (collected : Collected ItemContains both FromPair (pairs parts1 parts2) items) :
    Partitions maxNewgens lower upper parts1 parts2 used := by
  have kept : ¬ RollsBack maxNewgens parts1 parts2 used := by
    rintro ⟨state, back⟩
    rw [rounds] at back
    cases back
  refine ⟨_, _, _, parts_passed some_ rounds, fun _ => ?_, fun back => absurd back kept⟩
  rw [holds.nparts1, holds.nparts2]
  exact collected_partition tiles1 tiles2 collected

theorem partitions_of_failed {maxNewgens : Int} {used : Int → Int} {after : State dim}
    (some_ : parts1 ≠ []) (rounds : intersectRounds maxNewgens parts1 parts2 used = .error after)
    (holds : Holds used items after) (made : items ≠ []) :
    Partitions maxNewgens lower upper parts1 parts2 used := by
  have back := parts_failed some_ rounds holds made
  refine ⟨_, _, _, back, fun kept => absurd ⟨after, rounds⟩ kept, fun _ =>
    ⟨rfl, rfl, fun codes1 codes2 => ?_⟩⟩
  simp only [buildNewGens, back, Option.bind_eq_bind, Option.bind_some, List.isEmpty_nil, if_true]

/-- An interval, and every other index of one. -/
def interval (l u code : Int) : Part 1 := ⟨0, code, fun _ => l, fun _ => u, none⟩

def stripes (l u code : Int) : Part 1 :=
  ⟨0, code, fun _ => l, fun _ => u, some ⟨fun _ => 2, fun _ => 1⟩⟩

theorem interval_contains (l u code : Int) (iv : Fin 1 → Int) :
    (interval l u code).Contains iv ↔ l ≤ iv 0 ∧ iv 0 < u := by
  simp [Part.Contains, Generator.Contains, interval, Within, gridStep, gridWidth]

theorem stripes_contains (l u code : Int) (iv : Fin 1 → Int) :
    (stripes l u code).Contains iv ↔ l ≤ iv 0 ∧ iv 0 < u ∧ (iv 0 - l) % 2 < 1 := by
  simp [Part.Contains, Generator.Contains, stripes, Within, gridStep, gridWidth]

theorem intervals_tile :
    Tiles (fun _ => 0) (fun _ => 6) [interval 0 4 3, interval 4 6 4] := by
  refine ⟨List.pairwise_pair.mpr fun iv left right => ?_, fun iv => ?_⟩
  · rw [interval_contains] at left right
    omega
  · simp only [List.mem_cons, List.not_mem_nil, or_false, exists_eq_or_imp, exists_eq_left,
      interval_contains, Fin.forall_fin_one]
    omega

theorem stripes_tile : Tiles (fun _ => 0) (fun _ => 6) [stripes 0 6 1, stripes 1 6 2] := by
  refine ⟨List.pairwise_pair.mpr fun iv even odd => ?_, fun iv => ?_⟩
  · rw [stripes_contains] at even odd
    omega
  · simp only [List.mem_cons, List.not_mem_nil, or_false, exists_eq_or_imp, exists_eq_left,
      stripes_contains, Fin.forall_fin_one]
    omega

end Partition

end Sac2c.WithloopFusion
