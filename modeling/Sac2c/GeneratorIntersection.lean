import Sac2c.BlockTrees
import Sac2c.CommonRuns
import Sac2c.LinearTransformations

/-!
IntersectInternGen of arrayopt/SSAWLF.c: with-loop folding intersects the generators of the
target with-loop with those of the one that is folded in. Where one of the two has a grid the
common positions are searched in one period of both. Bounds, steps and widths are ints without
overflow; `junk` is what MEMmalloc leaves in an array.
-/

namespace Sac2c.GeneratorIntersection

open LinearTransformations CollectedPieces CommonRuns BlockTrees

section Codes

/-- CODE_CONSTRUCTION: the code that was created for two codes. -/
structure CodeConstr where
  target : Int
  subst : Int
  mnew : Int

/-- An N_code node of `new_codes` and the codes it was put together from. -/
structure NewCode where
  address : Int
  target : Int
  subst : Int

/-- `code_constr`, `new_codes` and the address of the next node. -/
structure Codes where
  codeConstr : List CodeConstr
  newCodes : List NewCode
  next : Int

def searchCC (target subst : Int) (codes : Codes) : Option CodeConstr :=
  codes.codeConstr.find? fun cc => cc.target = target ∧ cc.subst = subst

def addCC (target subst mnew : Int) (codes : Codes) : Codes :=
  { codes with codeConstr := ⟨target, subst, mnew⟩ :: codes.codeConstr }

/-- CreateCode: the new node is put in front of `new_codes`. -/
def createCode (target subst : Int) (codes : Codes) : Int × Codes :=
  (codes.next,
    { codes with
      newCodes := ⟨codes.next, target, subst⟩ :: codes.newCodes
      next := codes.next + 1 })

/-- The code of a new generator. -/
def codeOf (target subst : Int) (codes : Codes) : Int × Codes :=
  match searchCC target subst codes with
  | some cc => (cc.mnew, codes)
  | none =>
      let (coden, codes) := createCode target subst codes
      (coden, addCC target subst coden codes)

end Codes

section Model

variable {shape : Nat}

/-- The codes and `intersect_intern_gen`. -/
structure Found (shape : Nat) where
  codes : Codes
  internGen : List (InternGen shape)

/-- The globals that IntersectGrids reads: both generators and the offsets of their grids. -/
structure IntersectGrids (shape : Nat) where
  tig : InternGen shape
  sig : InternGen shape
  ot : Fin shape → Int
  os : Fin shape → Int

/-- The position of the period is one of the grid. -/
def present (grid : Option (Grid shape)) (offset : Fin shape → Int) (dim : Fin shape)
    (dc : Int) : Bool :=
  match grid with
  | none => true
  | some grid => decide ((dc + offset dim).tmod (grid.step dim) < grid.width dim)

def IntersectGrids.common (grids : IntersectGrids shape) (dim : Fin shape) (dc : Int) : Bool :=
  present grids.tig.grid grids.ot dim dc && present grids.sig.grid grids.os dim dc

/-- The generator of a piece and a code. -/
def toInternGen (piece : Stepped shape) (code : Int) : InternGen shape :=
  { l := piece.l, u := piece.u, grid := some ⟨piece.step, piece.width⟩, code := code }

/-- A new generator in front of the list. -/
def Found.add (grids : IntersectGrids shape) (found : Found shape) (ig : Stepped shape) :
    Found shape :=
  let (code, codes) := codeOf grids.tig.code grids.sig.code found.codes
  ⟨codes, toInternGen ig code :: found.internGen⟩

/-- IntersectGrids for the first dimension of the list and all behind it. The reference generator
is changed in place and its lower bound restored, its widths are not. -/
def intersectGrids (grids : IntersectGrids shape) :
    List (Fin shape) → Stepped shape × Found shape → Stepped shape × Found shape
  | [], state => state
  | dim :: inner, state =>
      searchRuns (grids.common dim) (state.1.step dim) (fun _ _ state => state)
        (fun state first => decide (state.1.l dim + first < state.1.u dim))
        (fun first last state =>
          let baseig := state.1.cut dim (first, last)
          if inner.isEmpty then (state.1, state.2.add grids baseig)
          else
            let (baseig, found) := intersectGrids grids inner (baseig, state.2)
            ({ baseig with l := Function.update baseig.l dim (baseig.l dim - first) }, found))
        (state.1.step dim).toNat 0 state

/-- The common period of both grids; `step` is left as it is if there is none. -/
def newStep (grid grid' : Option (Grid shape)) (step : Fin shape → Int) : Fin shape → Int :=
  match grid, grid' with
  | none, none => step
  | none, some grid => grid.step
  | some grid, none => grid.step
  | some grid, some grid' => fun d => mathLcm (grid.step d) (grid'.step d)

/-- The offsets into a grid, which stay as they are if there is none. -/
def offsets (l : Fin shape → Int) (ig : InternGen shape) (old : Fin shape → Int) :
    Fin shape → Int :=
  match ig.grid with
  | none => old
  | some grid => fun d => (l d - ig.l d).tmod (grid.step d)

/-- The state of IntersectInternGen. `newGenStep` and `newGenNostep` are NULL or generators that
may be written; the latter has no grid. -/
structure State (shape : Nat) where
  ot : Fin shape → Int
  os : Fin shape → Int
  newGenStep : Option (Stepped shape)
  newGenNostep : Option (Stepped shape)
  found : Found shape

/-- A round of the inner loop. -/
def intersectPair (junk : Stepped shape) (tig sig : InternGen shape) (state : State shape) :
    State shape :=
  let newGenStep := state.newGenStep.getD junk
  let newGenNostep := state.newGenNostep.getD junk
  if tig.grid.isSome || sig.grid.isSome then
    let (newGen, complete) :=
      intersectBounds tig.l tig.u sig.l sig.u (List.finRange shape) newGenStep
    if complete then
      let newGen := { newGen with step := newStep tig.grid sig.grid newGen.step }
      let ot := offsets newGen.l tig state.ot
      let os := offsets newGen.l sig state.os
      let (newGen, found) :=
        intersectGrids ⟨tig, sig, ot, os⟩ (List.finRange shape) (newGen, state.found)
      ⟨ot, os, some newGen, some newGenNostep, found⟩
    else { state with newGenStep := none, newGenNostep := some newGenNostep }
  else
    let (newGen, complete) :=
      intersectBounds tig.l tig.u sig.l sig.u (List.finRange shape) newGenNostep
    if complete then
      let (code, codes) := codeOf tig.code sig.code state.found.codes
      let newGen := { l := newGen.l, u := newGen.u, grid := none, code := code }
      { state with
        newGenStep := some newGenStep
        newGenNostep := none
        found := ⟨codes, newGen :: state.found.internGen⟩ }
    else { state with newGenStep := some newGenStep, newGenNostep := none }

def intersectInternGen (junk : Stepped shape) (targetIg substIg : List (InternGen shape))
    (codes : Codes) : Found shape :=
  let start : State shape := ⟨junk.l, junk.l, none, none, ⟨codes, []⟩⟩
  (targetIg.foldl (fun state tig =>
    substIg.foldl (fun state sig => intersectPair junk tig sig state) state) start).found

end Model

section Meaning

variable {shape : Nat}

/-- What holds behind WLFnormalizeInternGen. -/
def WellFormed (ig : InternGen shape) : Prop :=
  ∀ grid, ig.grid = some grid → ∀ dim, 1 ≤ grid.width dim ∧ grid.width dim ≤ grid.step dim

/-- The generators of the result are apart and have just the index vectors of both lists, each
with the code that was created for its two codes. -/
structure Intersects (targetIg substIg : List (InternGen shape)) (newCodes : List NewCode)
    (found : Found shape) : Prop where
  apart : Apart InternGen.Contains found.internGen
  covered : ∀ tig ∈ targetIg, ∀ sig ∈ substIg, ∀ iv, tig.Contains iv → sig.Contains iv →
    ∃! i : Fin found.internGen.length, (found.internGen.get i).Contains iv
  within : ∀ ig ∈ found.internGen, ∀ iv, ig.Contains iv →
    ∃ tig ∈ targetIg, ∃ sig ∈ substIg, tig.Contains iv ∧ sig.Contains iv
  created : ∃ created, found.codes.newCodes = created ++ newCodes ∧
    created.Pairwise (fun new old => new.address ≠ old.address ∧
      (new.target, new.subst) ≠ (old.target, old.subst)) ∧
    ∀ tig ∈ targetIg, ∀ sig ∈ substIg, ∀ ig ∈ found.internGen, ∀ iv, tig.Contains iv →
      sig.Contains iv → ig.Contains iv → ⟨ig.code, tig.code, sig.code⟩ ∈ created
  wellFormed : ∀ ig ∈ found.internGen, WellFormed ig

end Meaning

section CodeConstruction

theorem code_of_again (target subst : Int) (codes : Codes) :
    codeOf target subst (codeOf target subst codes).2 = codeOf target subst codes := by
  cases found : searchCC target subst codes with
  | some cc => simp [codeOf, found]
  | none =>
      have created : codeOf target subst codes =
          (codes.next, addCC target subst codes.next (createCode target subst codes).2) := by
        simp only [codeOf, found, createCode]
      rw [created]
      simp [codeOf, searchCC, addCC]

/-- Each pair of codes has one node, and it is one of the nodes created since. -/
structure Recorded (newCodes : List NewCode) (codes : Codes) : Prop where
  nodes : codes.newCodes =
    codes.codeConstr.map (fun cc => ⟨cc.mnew, cc.target, cc.subst⟩) ++ newCodes
  distinct : codes.codeConstr.Pairwise fun new old => old.mnew < new.mnew ∧
    (new.target, new.subst) ≠ (old.target, old.subst)
  known : ∀ cc ∈ codes.codeConstr, cc.mnew < codes.next

variable {newCodes : List NewCode} {codes : Codes}

theorem recorded_start (newCodes : List NewCode) (next : Int) :
    Recorded newCodes ⟨[], newCodes, next⟩ :=
  ⟨rfl, List.Pairwise.nil, by simp⟩

theorem code_of_recorded (target subst : Int) (recorded : Recorded newCodes codes) :
    Recorded newCodes (codeOf target subst codes).2 ∧
      ⟨target, subst, (codeOf target subst codes).1⟩ ∈
        (codeOf target subst codes).2.codeConstr ∧
      codes.codeConstr ⊆ (codeOf target subst codes).2.codeConstr := by
  cases search : searchCC target subst codes with
  | some cc =>
      have here := List.find?_some search
      have member := List.mem_of_find?_eq_some search
      simp only [decide_eq_true_eq] at here
      obtain ⟨rfl, rfl⟩ := here
      simp only [codeOf, search]
      exact ⟨recorded, member, List.Subset.refl _⟩
  | none =>
      have absent := List.find?_eq_none.mp search
      simp only [decide_eq_true_eq] at absent
      simp only [codeOf, search, createCode, addCC]
      refine ⟨⟨?_, ?_, ?_⟩, List.mem_cons_self, List.subset_cons_self _ _⟩
      · simp [recorded.nodes]
      · refine recorded.distinct.cons fun old member => ⟨recorded.known old member, fun same => ?_⟩
        obtain ⟨same, same'⟩ := Prod.mk.inj same
        exact absent old member ⟨same.symm, same'.symm⟩
      · intro cc member
        rcases List.mem_cons.mp member with rfl | member
        · simp only
          omega
        · have := recorded.known cc member
          simp only
          omega

end CodeConstruction

section Grids

variable {shape : Nat} {grids : IntersectGrids shape}

theorem add_all (piece : Stepped shape) (pieces : List (Stepped shape)) (found : Found shape) :
    (piece :: pieces).foldl (Found.add grids) found =
      ⟨(codeOf grids.tig.code grids.sig.code found.codes).2,
        ((piece :: pieces).map fun piece =>
          toInternGen piece (codeOf grids.tig.code grids.sig.code found.codes).1).reverse ++
            found.internGen⟩ := by
  induction pieces generalizing piece found with
  | nil => rfl
  | cons other pieces ih =>
      rw [List.foldl_cons, ih]
      simp [Found.add, code_of_again]

theorem intersect_grids_pieces {dims : List (Fin shape)} (some_ : dims ≠ [])
    (base : Stepped shape) (found : Found shape) :
    Restored dims base (intersectGrids grids dims (base, found)).1 ∧
      (intersectGrids grids dims (base, found)).2 =
        (pieces grids.common dims base).foldl (Found.add grids) found := by
  induction dims generalizing base found with
  | nil => exact absurd rfl some_
  | cons dim inner ih =>
      refine search_pieces (fun state => Restored (dim :: inner) base state.1) Prod.snd
        (Found.add grids) (fun _ _ _ kept => ⟨kept, rfl⟩) (fun state first kept => ?_)
        (fun first last state kept => ?_) ?_
      · rw [kept.l, kept.u]
      · have part : pieces grids.common inner (state.1.cut dim (first, last)) =
            pieces grids.common inner (base.cut dim (first, last)) := (kept.cut _).pieces_eq
        rw [← part]
        cases inner with
        | nil => exact ⟨kept, rfl⟩
        | cons next inner =>
            obtain ⟨deeper, found⟩ :=
              ih (List.cons_ne_nil next inner) (state.1.cut dim (first, last)) state.2
            exact ⟨kept.uncut deeper, found⟩
      · exact .refl _ base

end Grids

section Normalization

variable {shape : Nat}

end Normalization

section Pair

variable {shape : Nat} {tig sig : InternGen shape}

/-- Without a grid all integers are picked, as with step and width 1. -/
def gridStep (grid : Option (Grid shape)) (dim : Fin shape) : Int :=
  match grid with
  | none => 1
  | some grid => grid.step dim

def gridWidth (grid : Option (Grid shape)) (dim : Fin shape) : Int :=
  match grid with
  | none => 1
  | some grid => grid.width dim

theorem has_within {ig : InternGen shape} {dim : Fin shape} {i : Int} :
    ig.Has dim i ↔
      Within (ig.l dim) (ig.u dim) (gridStep ig.grid dim) (gridWidth ig.grid dim) i := by
  cases grid : ig.grid <;> simp [InternGen.Has, grid, InGrid, Within, gridStep, gridWidth]

theorem WellFormed.steps {ig : InternGen shape} (wellFormed : WellFormed ig) (dim : Fin shape) :
    1 ≤ gridWidth ig.grid dim ∧ gridWidth ig.grid dim ≤ gridStep ig.grid dim := by
  cases here : ig.grid with
  | none => simp [gridStep, gridWidth]
  | some grid => exact wellFormed grid here dim

theorem new_step_spec {grid grid' : Option (Grid shape)}
    (some_ : (grid.isSome || grid'.isSome) = true) {dim : Fin shape}
    (positive : 0 < gridStep grid dim) (positive' : 0 < gridStep grid' dim)
    (step : Fin shape → Int) :
    0 < newStep grid grid' step dim ∧ gridStep grid dim ∣ newStep grid grid' step dim ∧
      gridStep grid' dim ∣ newStep grid grid' step dim := by
  cases grid with
  | none =>
      cases grid' with
      | none => cases some_
      | some grid' => exact ⟨positive', Int.one_dvd _, Int.dvd_refl _⟩
  | some grid =>
      cases grid' with
      | none => exact ⟨positive, Int.dvd_refl _, Int.one_dvd _⟩
      | some grid' => exact ⟨math_lcm_pos positive positive', math_lcm_dvd.mp (Int.dvd_refl _)⟩

/-- A position of the period, counted from the start of the grid. -/
theorem present_iff {ig : InternGen shape} {l old : Fin shape → Int} {dim : Fin shape}
    (positive : 0 < gridStep ig.grid dim) (later : ig.l dim ≤ l dim) {j : Int} (nonneg : 0 ≤ j) :
    present ig.grid (offsets l ig old) dim j = true ↔
      (j + (l dim - ig.l dim) % gridStep ig.grid dim) % gridStep ig.grid dim <
        gridWidth ig.grid dim := by
  cases here : ig.grid with
  | none => simp [present, gridStep, gridWidth]
  | some grid =>
      rw [here] at positive
      have offset : (l dim - ig.l dim).tmod (grid.step dim) =
          (l dim - ig.l dim) % grid.step dim := Int.tmod_eq_emod_of_nonneg (by omega)
      have low : 0 ≤ (l dim - ig.l dim) % grid.step dim :=
        Int.emod_nonneg _ (Int.ne_of_gt positive)
      simp [present, offsets, here, gridStep, gridWidth, offset,
        Int.tmod_eq_emod_of_nonneg (Int.add_nonneg nonneg low)]

/-- What is known of a generator that a pair has added. -/
def FromPair (codes : Codes) (pair : InternGen shape × InternGen shape) (ig : InternGen shape) :
    Prop :=
  WellFormed ig ∧ ⟨pair.1.code, pair.2.code, ig.code⟩ ∈ codes.codeConstr

/-- The index vectors that both of a pair contain. -/
def both : InternGen shape × InternGen shape → (Fin shape → Int) → Prop :=
  Both InternGen.Contains InternGen.Contains

/-- A round: the generators that it puts in front of the list are the intersection of the pair. -/
structure Round (newCodes : List NewCode) (pair : InternGen shape × InternGen shape)
    (before after : Found shape) : Prop where
  recorded : Recorded newCodes after.codes
  kept : before.codes.codeConstr ⊆ after.codes.codeConstr
  adds : ∃ new, after.internGen = new ++ before.internGen ∧
    Collected InternGen.Contains both (FromPair after.codes) [pair] new

variable {newCodes : List NewCode} {found : Found shape}

/-- A round that leaves everything as it is, for generators without a common index vector. -/
theorem Round.nothing (recorded : Recorded newCodes found.codes) {newGen : Stepped shape}
    (incomplete :
      ¬ (intersectBounds tig.l tig.u sig.l sig.u (List.finRange shape) newGen).2 = true) :
    Round newCodes (tig, sig) found found := by
  have bounds {ig : InternGen shape} {iv : Fin shape → Int} (inside : ig.Contains iv)
      (dim : Fin shape) : ig.l dim ≤ iv dim ∧ iv dim < ig.u dim :=
    ⟨(has_within.mp (inside dim)).1, (has_within.mp (inside dim)).2.1⟩
  refine ⟨recorded, List.Subset.refl _, [], rfl, .empty fun iv inside => ?_⟩
  exact empty_of_incomplete incomplete iv ⟨bounds inside.1, bounds inside.2⟩

/-- Without grids the new generator has just the bounds. -/
theorem Round.plain (recorded : Recorded newCodes found.codes) {l u : Fin shape → Int}
    (none_ : tig.grid = none ∧ sig.grid = none)
    (bounds : ∀ d, l d = max (tig.l d) (sig.l d) ∧ u d = min (tig.u d) (sig.u d)) :
    Round newCodes (tig, sig) found
      ⟨(codeOf tig.code sig.code found.codes).2,
        ⟨l, u, none, (codeOf tig.code sig.code found.codes).1⟩ :: found.internGen⟩ := by
  obtain ⟨recorded, created, kept⟩ := code_of_recorded tig.code sig.code recorded
  refine ⟨recorded, kept, [_], rfl, .single ⟨by simp [WellFormed], created⟩ fun iv => ?_⟩
  simp only [both, Both, InternGen.Contains, ← forall_and, has_within, none_, gridStep, gridWidth]
  exact forall_congr' fun dim => plain_iff (bounds dim).1 (bounds dim).2

/-- The pieces become generators, the last one first. -/
theorem Round.grids (recorded : Recorded newCodes found.codes) {ot os : Fin shape → Int}
    {parts : List (Stepped shape)}
    (collected : Collected Stepped.Contains both
      (fun _ piece => ∀ dim, 1 ≤ piece.width dim ∧ piece.width dim ≤ piece.step dim)
      [(tig, sig)] parts) :
    Round newCodes (tig, sig) found (parts.foldl (Found.add ⟨tig, sig, ot, os⟩) found) := by
  cases parts with
  | nil => exact ⟨recorded, List.Subset.refl _, [], rfl, .empty fun iv inside =>
      absurd (collected.covered _ (List.mem_singleton_self _) iv inside) (by simp)⟩
  | cons piece parts =>
      rw [add_all]
      obtain ⟨recorded, created, kept⟩ :=
        code_of_recorded tig.code sig.code recorded
      refine ⟨recorded, kept, _, rfl, .perm (.map collected _ (fun _ _ => Iff.rfl) ?_)
        (List.reverse_perm _).symm⟩
      rintro pair member part widths
      cases List.mem_singleton.mp member
      refine ⟨?_, created⟩
      rintro _ ⟨⟩
      exact widths

/-- The pieces that IntersectGrids finds. -/
theorem grids_collected (wellFormed : WellFormed tig) (wellFormed' : WellFormed sig)
    (some_ : (tig.grid.isSome || sig.grid.isSome) = true) {ot os old old' step : Fin shape → Int}
    {base : Stepped shape} (target : ot = offsets base.l tig old)
    (subst : os = offsets base.l sig old') (period : base.step = newStep tig.grid sig.grid step)
    (bounds : ∀ d, base.l d = max (tig.l d) (sig.l d) ∧ base.u d = min (tig.u d) (sig.u d)) :
    Collected Stepped.Contains both
      (fun _ piece => ∀ dim, 1 ≤ piece.width dim ∧ piece.width dim ≤ piece.step dim)
      [(tig, sig)]
      (pieces (IntersectGrids.common ⟨tig, sig, ot, os⟩) (List.finRange shape) base) := by
  subst target subst
  have steps (dim : Fin shape) : 0 < gridStep tig.grid dim := by
    have := wellFormed.steps dim
    omega
  have steps' (dim : Fin shape) : 0 < gridStep sig.grid dim := by
    have := wellFormed'.steps dim
    omega
  have spec (dim : Fin shape) := new_step_spec some_ (steps dim) (steps' dim) step
  rw [← period] at spec
  refine pieces_collected (fun iv => Iff.rfl) List.mem_finRange (List.nodup_finRange shape)
    (fun dim => (spec dim).1) fun dim i => ?_
  have later := (bounds dim).1
  rw [has_within, has_within]
  refine marks_iff (spec dim).1 (bounds dim).1 (bounds dim).2 (spec dim).2.1 (spec dim).2.2
    fun j nonneg => ?_
  rw [IntersectGrids.common, Bool.and_eq_true, present_iff (steps dim) (by omega) nonneg,
    present_iff (steps' dim) (by omega) nonneg]

theorem intersect_pair_round (rank : 0 < shape) (junk : Stepped shape)
    (wellFormed : WellFormed tig) (wellFormed' : WellFormed sig) {state : State shape}
    (recorded : Recorded newCodes state.found.codes) :
    Round newCodes (tig, sig) state.found (intersectPair junk tig sig state).found := by
  have everywhere (d : Fin shape) : d ∈ List.finRange shape := List.mem_finRange d
  have dims : List.finRange shape ≠ [] := List.ne_nil_of_mem (everywhere ⟨0, rank⟩)
  simp only [intersectPair]
  split
  next some_ =>
    split
    next complete =>
      change Round newCodes (tig, sig) state.found (intersectGrids _ _ (_, _)).2
      rw [(intersect_grids_pieces dims _ _).2]
      refine .grids recorded
        (grids_collected wellFormed wellFormed' some_ (by rfl) (by rfl) (by rfl) fun d => ?_)
      exact intersect_bounds_written complete (everywhere d)
    next incomplete => exact .nothing recorded incomplete
  next none_ =>
    split
    next complete =>
      simp only [Bool.or_eq_true, not_or, Bool.not_eq_true, Option.isSome_eq_false_iff,
        Option.isNone_iff_eq_none] at none_
      exact .plain recorded none_ fun d => intersect_bounds_written complete (everywhere d)
    next incomplete => exact .nothing recorded incomplete

end Pair

section Run

variable {shape : Nat} {newCodes : List NewCode}

/-- All rounds, in the order of both loops. -/
theorem rounds_collected (rank : 0 < shape) (junk : Stepped shape)
    (done : List (InternGen shape × InternGen shape))
    {pairs : List (InternGen shape × InternGen shape)} (apart : Apart both (done ++ pairs))
    (wellFormed : ∀ pair ∈ pairs, WellFormed pair.1 ∧ WellFormed pair.2) {state : State shape}
    (recorded : Recorded newCodes state.found.codes)
    (collected : Collected InternGen.Contains both (FromPair state.found.codes) done
      state.found.internGen) {found : Found shape}
    (run : (pairs.foldl (fun state pair => intersectPair junk pair.1 pair.2 state) state).found =
      found) :
    Recorded newCodes found.codes ∧
      Collected InternGen.Contains both (FromPair found.codes) (done ++ pairs)
        found.internGen := by
  induction pairs generalizing done state with
  | nil =>
      subst run
      simpa using ⟨recorded, collected⟩
  | cons pair pairs ih =>
      obtain ⟨here, rest⟩ := List.forall_mem_cons.mp wellFormed
      obtain ⟨recorded, kept, new, list, adds⟩ :=
        intersect_pair_round rank junk here.1 here.2 recorded
      have earlier : Collected InternGen.Contains both
          (FromPair (intersectPair junk pair.1 pair.2 state).found.codes) done
          state.found.internGen :=
        collected.mono fun _ _ known => ⟨known.1, kept known.2⟩
      have next := earlier.append adds fun source before other member x inside => by
        cases List.mem_singleton.mp member
        exact (List.pairwise_append.mp apart).2.2 source before pair List.mem_cons_self x inside
      rw [List.append_cons] at apart ⊢
      refine ih _ apart rest recorded (next.perm ?_) run
      exact list ▸ List.perm_append_comm

/-- Every other index from `l` on. -/
def stripes (l code : Int) : InternGen 1 :=
  { l := fun _ => l, u := fun _ => 10, grid := some ⟨fun _ => 2, fun _ => 1⟩, code := code }

def interval (l u code : Int) : InternGen 1 :=
  { l := fun _ => l, u := fun _ => u, grid := none, code := code }

/-- Some contents of memory that was not written yet. -/
def sevens : Stepped 1 := ⟨fun _ => 7, fun _ => 7, fun _ => 7, fun _ => 7⟩

end Run

end Sac2c.GeneratorIntersection
