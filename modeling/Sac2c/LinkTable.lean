import Sac2c.DynMatrices

/-!
The transitive link table of reachhelper.c, and the count matrix that GINisReachable of
query.c reads. The table is closed with the help of an adjacency matrix that grows while
it is filled; with two links or more it has to grow beyond its first cell, which is not
defined.
-/

namespace Sac2c.LinkTable
open OwnedBlocks DynArrays DynMatrices

section Model

/-- A link x -> [y,z): x is the index, y and z are the data. -/
abbrev Link := Elem (Pointer Int)

/-- What fresh memory happens to hold. -/
structure Fresh extends Garbage Link where
  ints : Nat → Int

variable (fresh : Fresh)

/-- The body of the innermost of the first three loops. -/
def adjacencyStep (arrayd : DynArray Link) (i j : Nat) (adjmat : Matrix Link) (k : Nat) :
    Option (Matrix Link) :=
  (arrayd.elemsPos i).bind fun ei => (arrayd.elemsPos k).bind fun ek =>
    if ei.idx = ek.idx then
      (arrayd.elemsPos j).bind fun ej => (ej.data.load 0).bind fun yj =>
        (ek.data.load 0).bind fun yk =>
          if yj = yk then adjmat.setValue fresh.toGarbage .null i j 1 else some adjmat
    else some adjmat

/-- The adjacency matrix. -/
def adjacency (arrayd : DynArray Link) : Option (Matrix Link) :=
  let indices := List.range arrayd.totalElems
  indices.foldlM (fun adjmat i => indices.foldlM (fun adjmat j =>
    indices.foldlM (adjacencyStep fresh arrayd i j) adjmat) adjmat) initMatrix

/-- The loop over the sources in the target interval of a link. -/
def reachSources (arrayd : DynArray Link) (i : Nat) (lower upper : Int) (adjmat : Matrix Link) :
    Option (Matrix Link) :=
  (List.range arrayd.totalElems).foldlM (fun adjmat k => (arrayd.elemsPos k).bind fun e =>
    if lower ≤ e.idx ∧ e.idx < upper then adjmat.setValue fresh.toGarbage .null i k 1
    else some adjmat) adjmat

/-- The body of the loops over the cells of the matrix. The matrix has at most as many
rows and columns as there are links. -/
def closeStep (arrayd : DynArray Link) (i : Nat) (adjmat : Matrix Link) (j : Nat) :
    Option (Matrix Link) :=
  if i < adjmat.totalRows then
    (adjmat.row i).bind fun row =>
      if j < row.totalElems then
        (adjmat.getValue i j).bind fun value =>
          if value = 1 then
            (arrayd.elemsPos j).bind fun e => (e.data.load 0).bind fun lower =>
              (e.data.load 1).bind fun upper => reachSources fresh arrayd i lower upper adjmat
          else some adjmat
      else some adjmat
  else some adjmat

/-- The update of the matrix to get the transitive closure. -/
def closeMatrix (arrayd : DynArray Link) (adjmat : Matrix Link) : Option (Matrix Link) :=
  let indices := List.range arrayd.totalElems
  indices.foldlM (fun adjmat i => indices.foldlM (closeStep fresh arrayd i) adjmat) adjmat

/-- The new link of a cell. The data of the link of its column is reallocated for it. -/
def linkStep (adjmat : Matrix Link) (i : Nat) (arrayd : DynArray Link) (j : Nat) :
    Option (DynArray Link) :=
  if i < adjmat.totalRows then
    (adjmat.row i).bind fun row =>
      if j < row.totalElems ∧ i ≠ j then
        (adjmat.getValue i j).bind fun value =>
          if value = 1 then
            (arrayd.elemsPos i).bind fun ei => (arrayd.elemsPos j).bind fun ej =>
              (ej.data.realloc fresh.ints 2).bind fun moved =>
                (arrayd.setPos j (some ⟨ej.idx, moved.2⟩)).bind fun arrayd =>
                  arrayd.addToArray fresh.elems ⟨ei.idx, moved.1⟩
          else some arrayd
      else some arrayd
  else some arrayd

def addLinks (adjmat : Matrix Link) (arrayd : DynArray Link) : Option (DynArray Link) :=
  let indices := List.range arrayd.totalElems
  indices.foldlM (fun arrayd i => indices.foldlM (linkStep fresh adjmat i) arrayd) arrayd

/-- buildTransitiveLinkTable. -/
def buildTransitiveLinkTable (arrayd : DynArray Link) : Option (DynArray Link) :=
  (adjacency fresh arrayd).bind fun adjmat => (closeMatrix fresh arrayd adjmat).bind fun adjmat =>
    addLinks fresh adjmat arrayd

/-- The body of the loop of setSrcTarArrays. The data of a source is not set. -/
def srcTarStep (arrayd : DynArray Link) (arrays : DynArray Link × DynArray Link) (a : Nat) :
    Option (DynArray Link × DynArray Link) :=
  (arrayd.elemsPos a).bind fun e => (e.data.load 0).bind fun target =>
    (indexExistsInArray arrays.1 e.idx).bind fun known =>
      (if known then some arrays.1 else arrays.1.addToArray fresh.elems ⟨e.idx, .dead⟩).bind
        fun arraydX => (indexExistsInArray arrays.2 target).bind fun known =>
          (if known then some arrays.2
            else arrays.2.addToArray fresh.elems ⟨target, .live [0]⟩).map
              fun arraydY => (arraydX, arraydY)

/-- setSrcTarArrays. -/
def setSrcTarArrays (arrayd : DynArray Link) : Option (DynArray Link × DynArray Link) :=
  ((List.range arrayd.totalElems).foldlM (srcTarStep fresh arrayd)
    (initDynarray, initDynarray)).bind fun arrays =>
      (sortArray arrays.1 false).bind fun arraydX => (sortArray arrays.2 false).map
        fun arraydY => (arraydX, arraydY)

/-- The variables of the sweep of computeTLCMatrix. -/
structure Sweep where
  tlc : Matrix Link
  arraydY : DynArray Link
  indexXc : Int
  xc : Int

/-- The loop that writes the counts into a row. -/
def setCounts (sweep : Sweep) : Option (Matrix Link) :=
  (List.range sweep.arraydY.totalElems).foldlM (fun tlc b =>
    (sweep.arraydY.elemsPos b).bind fun e => (e.data.load 0).bind fun count =>
      if 0 ≤ sweep.indexXc then tlc.setValue fresh.toGarbage .null sweep.indexXc.toNat b count
      else none) sweep.tlc

/-- The loop that counts a link at the targets in its interval. -/
def countTargets (arraydY : DynArray Link) (j k : Int) : Option (DynArray Link) :=
  (List.range arraydY.totalElems).foldlM (fun arraydY b =>
    (arraydY.elemsPos b).bind fun e =>
      if e.idx ≥ j ∧ e.idx < k then
        (e.data.load 0).bind fun count => (e.data.store 0 (count + 1)).bind fun data =>
          arraydY.setPos b (some ⟨e.idx, data⟩)
      else some arraydY) arraydY

def sweepStep (arrayd : DynArray Link) (sweep : Sweep) (a : Nat) : Option Sweep :=
  (arrayd.elemsPos a).bind fun e =>
    (if e.idx < sweep.xc then
      (setCounts fresh sweep).map fun tlc =>
        { sweep with tlc := tlc, xc := e.idx, indexXc := sweep.indexXc - 1 }
    else some sweep).bind fun sweep =>
      (e.data.load 0).bind fun j => (e.data.load 1).bind fun k =>
        (countTargets sweep.arraydY j k).map fun arraydY => { sweep with arraydY := arraydY }

/-- computeTLCMatrix. -/
def computeTLCMatrix (arrayd arraydX arraydY : DynArray Link) : Option (Matrix Link) :=
  (sortArray arrayd true).bind fun arrayd =>
    if 0 < arraydX.totalElems then
      (arraydX.elemsPos (arraydX.totalElems - 1)).bind fun x =>
        ((List.range arrayd.totalElems).foldlM (sweepStep fresh arrayd)
          ⟨initMatrix, arraydY, arraydX.totalElems - 1, x.idx⟩).bind fun sweep =>
            setCounts fresh sweep
    else none

/-- The cross edge part of GINisReachable. A label that is not marked is none. -/
def reachCross (tlc : Matrix Link) (cola colb row : Option Nat) : Option Bool :=
  match row with
  | none => some false
  | some row =>
      (match cola with
        | none => some 0
        | some cola => tlc.getValue cola row).bind fun afterPre =>
      (match colb with
        | none => some 0
        | some colb => tlc.getValue colb row).map fun afterPremax =>
          decide (afterPre - afterPremax > 0)

end Model

section Specification

/-- The pairs of a source and a target interval that a chain of links leads to. -/
inductive Chain (links : List (Int × Int × Int)) (a : Int) : Int → Int → Prop
  | link {b c} : (a, b, c) ∈ links → Chain links a b c
  | next {b c s b' c'} : Chain links a b c → (s, b', c') ∈ links → b ≤ s → s < c →
      Chain links a b' c'

def toLink (link : Int × Int × Int) : Link := ⟨link.1, .live [link.2.1, link.2.2]⟩

/-- A table of some links, with some room behind them. -/
def tableOf (links : List (Int × Int × Int)) (spare : List (Option Link)) : DynArray Link :=
  ⟨.live (links.map (some ∘ toLink) ++ spare), links.length, links.length + spare.length⟩

/-- The table has exactly the links of chains. -/
def Closed (links : List (Int × Int × Int)) (arrayd : DynArray Link) : Prop :=
  ∀ a b c, some (toLink (a, b, c)) ∈ arrayd.contents ↔ Chain links a b c

/-- The answers for the sources from the label `cola` on and before the label `colb`, and
the target of the label `row`, are those of the chains. -/
def AnswersChains (links : List (Int × Int × Int)) (arraydX arraydY : DynArray Link)
    (tlc : Matrix Link) : Prop :=
  ∀ cola colb row : Option Nat,
    (∀ i ∈ cola, i < arraydX.totalElems) → (∀ i ∈ colb, i < arraydX.totalElems) →
    (∀ i ∈ row, i < arraydY.totalElems) →
    ∃ answer, reachCross tlc cola colb row = some answer ∧
      (answer = true ↔ ∃ a b c, Chain links a b c ∧
        (∃ i ∈ cola, ∃ x ∈ arraydX.elemsPos i, x.idx ≤ a) ∧
        (∀ i ∈ colb, ∀ x ∈ arraydX.elemsPos i, a < x.idx) ∧
        ∃ i ∈ row, ∃ y ∈ arraydY.elemsPos i, b ≤ y.idx ∧ y.idx < c)

/-- The link table and the count matrix are right. The matrix is computed for a table
that is not empty. -/
def Right (fresh : Fresh) (links : List (Int × Int × Int)) (spare : List (Option Link)) : Prop :=
  ∃ arrayd, buildTransitiveLinkTable fresh (tableOf links spare) = some arrayd ∧
    Closed links arrayd ∧
    (links ≠ [] → ∃ arraydX arraydY tlc,
      setSrcTarArrays fresh (tableOf links spare) = some (arraydX, arraydY) ∧
      computeTLCMatrix fresh arrayd arraydX arraydY = some tlc ∧
      AnswersChains links arraydX arraydY tlc)

end Specification

section Links

variable (fresh : Fresh) (links : List (Int × Int × Int)) (spare : List (Option Link))

theorem table_pos {i : Nat} (inside : i < links.length) :
    (tableOf links spare).elemsPos i = some (toLink links[i]) := by
  have mapped : i < (links.map (some ∘ toLink)).length := by simpa using inside
  simp [tableOf, List.getElem?_append_left mapped, inside]

/-- The matrix with a single 1. -/
def unit : Matrix Link := single ⟨1, .null⟩

theorem unit_set (i j : Nat) :
    unit.setValue fresh.toGarbage .null i j 1 = if i = 0 ∧ j = 0 then some unit else none := by
  split
  next first =>
      rw [first.1, first.2]
      exact set_again fresh.toGarbage _ _
  next other => exact set_other fresh.toGarbage _ _ (by omega)

/-- A round of the loops leaves the matrix of one cell as it is, or is undefined. -/
theorem adjacency_unit {arrayd : DynArray Link} {i j k : Nat} {adjmat : Matrix Link}
    (ran : adjacencyStep fresh arrayd i j unit k = some adjmat) : adjmat = unit := by
  simp only [adjacencyStep, Option.bind_eq_some_iff] at ran
  obtain ⟨ei, _, ek, _, ran⟩ := ran
  split at ran
  next same =>
      simp only [Option.bind_eq_some_iff] at ran
      obtain ⟨ej, _, yj, _, yk, _, ran⟩ := ran
      rw [unit_set] at ran
      grind
  next differs =>
      cases ran
      rfl

/-- The round of the diagonal writes its cell. -/
theorem adjacency_diagonal {i : Nat} (inside : i < links.length) (adjmat : Matrix Link) :
    adjacencyStep fresh (tableOf links spare) i i adjmat i =
      adjmat.setValue fresh.toGarbage .null i i 1 := by
  simp [adjacencyStep, table_pos links spare inside, toLink, Pointer.load]

theorem cell_unit {arrayd : DynArray Link} {i j : Nat} {l : List Nat} {adjmat : Matrix Link}
    (ran : l.foldlM (adjacencyStep fresh arrayd i j) unit = some adjmat) : adjmat = unit := by
  refine loop_keeps (P := (· = unit)) rfl ?_ ran
  rintro k _ s s' rfl
  exact adjacency_unit fresh

theorem row_unit {arrayd : DynArray Link} {i : Nat} {l m : List Nat} {adjmat : Matrix Link}
    (ran : l.foldlM (fun adjmat j => m.foldlM (adjacencyStep fresh arrayd i j) adjmat) unit =
      some adjmat) : adjmat = unit := by
  refine loop_keeps (P := (· = unit)) rfl ?_ ran
  rintro j _ s s' rfl
  exact cell_unit fresh

/-- The first round of all makes the matrix of one cell. -/
theorem first_row_unit (filled : 0 < links.length) {l m : List Nat} {adjmat : Matrix Link}
    (ran : (0 :: l).foldlM (fun adjmat j =>
      (0 :: m).foldlM (adjacencyStep fresh (tableOf links spare) 0 j) adjmat) initMatrix =
        some adjmat) : adjmat = unit := by
  have first : adjacencyStep fresh (tableOf links spare) 0 0 initMatrix 0 = some unit :=
    (adjacency_diagonal fresh links spare filled initMatrix).trans
      (set_first fresh.toGarbage _)
  rw [List.foldlM_cons, List.foldlM_cons, first, Option.bind_eq_bind, Option.bind_some] at ran
  obtain ⟨middle, cell, rest⟩ := Option.bind_eq_some_iff.mp ran
  rw [cell_unit fresh cell] at rest
  exact row_unit fresh rest

/-- With two links the matrix has to grow, which is undefined. -/
theorem adjacency_stuck (two : 2 ≤ links.length) : adjacency fresh (tableOf links spare) = none := by
  have member : 1 ∈ List.range' 1 (links.length - 1) := by
    rw [List.mem_range'_1]
    omega
  have indices : List.range links.length = 0 :: List.range' 1 (links.length - 1) := by
    obtain ⟨n, count⟩ : ∃ n, links.length = n + 1 := ⟨links.length - 1, by omega⟩
    rw [count, List.range_eq_range', List.range'_succ]
    rfl
  have total : (tableOf links spare).totalElems = links.length := rfl
  have diagonal : adjacencyStep fresh (tableOf links spare) 1 1 unit 1 = none := by
    rw [adjacency_diagonal fresh links spare two, unit_set]
    rfl
  rw [adjacency, total]
  simp only [indices]
  rw [List.foldlM_cons]
  cases row : (0 :: List.range' 1 (links.length - 1)).foldlM (fun adjmat j =>
      (0 :: List.range' 1 (links.length - 1)).foldlM
        (adjacencyStep fresh (tableOf links spare) 0 j) adjmat) initMatrix with
  | none => rfl
  | some adjmat =>
      -- The first row has left the matrix of one cell; the diagonal of the second is outside.
      rw [first_row_unit fresh links spare (by omega) row]
      refine loop_stuck (P := (· = unit)) rfl ?_ member ?_
      · rintro i _ s s' rfl
        exact row_unit fresh
      · rintro s rfl
        refine loop_stuck (P := (· = unit)) rfl ?_ (List.mem_cons_of_mem 0 member) ?_
        · rintro j _ s s' rfl
          exact cell_unit fresh
        · rintro s rfl
          refine loop_stuck (P := (· = unit)) rfl ?_ (List.mem_cons_of_mem 0 member) ?_
          · rintro k _ s s' rfl
            exact adjacency_unit fresh
          · rintro s rfl
            exact diagonal

theorem build_stuck (two : 2 ≤ links.length) :
    buildTransitiveLinkTable fresh (tableOf links spare) = none := by
  rw [buildTransitiveLinkTable, adjacency_stuck fresh links spare two, Option.bind_none]

end Links

section OneLink

variable (fresh : Fresh) (a b c : Int) (spare : List (Option Link))

theorem adjacency_one : adjacency fresh (tableOf [(a, b, c)] spare) = some unit := by
  have first : adjacencyStep fresh (tableOf [(a, b, c)] spare) 0 0 initMatrix 0 = some unit :=
    (adjacency_diagonal fresh [(a, b, c)] spare (by simp) initMatrix).trans
      (set_first fresh.toGarbage _)
  have total : (tableOf [(a, b, c)] spare).totalElems = 1 := rfl
  simp [adjacency, total, List.range_succ, first]

theorem close_one : closeMatrix fresh (tableOf [(a, b, c)] spare) unit = some unit := by
  have total : (tableOf [(a, b, c)] spare).totalElems = 1 := rfl
  have only := table_pos [(a, b, c)] spare (i := 0) (by simp)
  have value : unit.getValue 0 0 = some 1 := rfl
  have row : unit.row 0 = some ⟨.live [some ⟨1, .null⟩], 1, 1⟩ := rfl
  have rows : unit.totalRows = 1 := rfl
  have same := unit_set fresh 0 0
  simp only [closeMatrix, total, List.range_succ, List.range_zero, List.nil_append,
    List.foldlM_cons, List.foldlM_nil, closeStep, rows, row, value, only, reachSources]
  simp [toLink, Pointer.load, same]

theorem build_one :
    buildTransitiveLinkTable fresh (tableOf [(a, b, c)] spare) =
      some (tableOf [(a, b, c)] spare) := by
  have total : (tableOf [(a, b, c)] spare).totalElems = 1 := rfl
  have row : unit.row 0 = some ⟨.live [some ⟨1, .null⟩], 1, 1⟩ := rfl
  have rows : unit.totalRows = 1 := rfl
  simp [buildTransitiveLinkTable, adjacency_one, close_one, addLinks, total, List.range_succ,
    linkStep, row, rows]

/-- The only source and the only target. -/
theorem arrays_one :
    setSrcTarArrays fresh (tableOf [(a, b, c)] spare) =
      some (⟨.live [some ⟨a, .dead⟩, fresh.elems 1, fresh.elems 2], 1, 3⟩,
        ⟨.live [some ⟨b, .live [0]⟩, fresh.elems 1, fresh.elems 2], 1, 3⟩) := by
  have total : (tableOf [(a, b, c)] spare).totalElems = 1 := rfl
  have only := table_pos [(a, b, c)] spare (i := 0) (by simp)
  simp [setSrcTarArrays, total, List.range_succ, srcTarStep, only, toLink, Pointer.load,
    indexExistsInArray, initDynarray, DynArray.addToArray, grow_null, Pointer.malloc, sortArray,
    sortCells]

theorem matrix_one :
    computeTLCMatrix fresh (tableOf [(a, b, c)] spare)
        ⟨.live [some ⟨a, .dead⟩, fresh.elems 1, fresh.elems 2], 1, 3⟩
        ⟨.live [some ⟨b, .live [0]⟩, fresh.elems 1, fresh.elems 2], 1, 3⟩ =
      some (single ⟨if b < c then 1 else 0, .null⟩) := by
  have total : (tableOf [(a, b, c)] spare).totalElems = 1 := rfl
  have only := table_pos [(a, b, c)] spare (i := 0) (by simp)
  have sorted : sortArray (tableOf [(a, b, c)] spare) true = some (tableOf [(a, b, c)] spare) := rfl
  have set : ∀ count, initMatrix.setValue fresh.toGarbage .null 0 0 count =
      some (single ⟨count, .null⟩) := fun count => set_first fresh.toGarbage _
  by_cases filled : b < c <;>
    simp [computeTLCMatrix, sorted, total, List.range_succ, sweepStep, only, toLink, Pointer.load,
      Pointer.store, countTargets, setCounts, set, filled]

end OneLink

section NoOther

theorem chain_nil (a b c : Int) : ¬ Chain [] a b c := by
  intro chain
  induction chain with
  | link member => cases member
  | next _ member => cases member

/-- All chains of one link are this link. -/
theorem chain_one {link : Int × Int × Int} {a b c : Int} :
    Chain [link] a b c ↔ link = (a, b, c) := by
  constructor
  · intro chain
    induction chain with
    | link member => exact (List.mem_singleton.mp member).symm
    | next _ member _ _ ih =>
        have same := (List.mem_singleton.mp member).trans ih
        simp only [Prod.mk.injEq] at same
        rw [ih, same.2.1, same.2.2]
  · rintro rfl
    exact .link (List.mem_singleton.mpr rfl)

theorem answers_one (a b c : Int) (x y z w : Option Link) :
    AnswersChains [(a, b, c)] ⟨.live [some ⟨a, .dead⟩, x, y], 1, 3⟩
      ⟨.live [some ⟨b, .live [0]⟩, z, w], 1, 3⟩ (single ⟨if b < c then 1 else 0, .null⟩) := by
  have count : ∀ n, (single ⟨n, .null⟩ : Matrix Link).getValue 0 0 = some n := fun _ => rfl
  intro cola colb row afterPre afterPremax inside
  cases row with
  | none => exact ⟨false, rfl, by simp⟩
  | some row =>
      have first : row = 0 := Nat.lt_one_iff.mp (inside row rfl)
      subst first
      cases cola with
      | none =>
          cases colb with
          | none => exact ⟨false, rfl, by simp⟩
          | some colb =>
              have zero : colb = 0 := Nat.lt_one_iff.mp (afterPremax colb rfl)
              subst zero
              refine ⟨false, ?_, by simp⟩
              by_cases filled : b < c <;> simp [reachCross, count, filled]
      | some cola =>
          have zero : cola = 0 := Nat.lt_one_iff.mp (afterPre cola rfl)
          subst zero
          cases colb with
          | none =>
              refine ⟨decide (b < c), ?_, by simp [chain_one]⟩
              by_cases filled : b < c <;> simp [reachCross, count, filled]
          | some colb =>
              have zero : colb = 0 := Nat.lt_one_iff.mp (afterPremax colb rfl)
              subst zero
              refine ⟨false, ?_, by simp [chain_one]⟩
              simp [reachCross, count]

end NoOther

section Exactness

variable (fresh : Fresh) (links : List (Int × Int × Int)) (spare : List (Option Link))

theorem empty_right : Right fresh [] spare := by
  refine ⟨tableOf [] spare, rfl, ?_, fun filled => absurd rfl filled⟩
  intro a b c
  simp [tableOf, chain_nil]

theorem one_right (a b c : Int) : Right fresh [(a, b, c)] spare := by
  refine ⟨_, build_one fresh a b c spare, ?_, fun _ => ⟨_, _, _, arrays_one fresh a b c spare,
    matrix_one fresh a b c spare, answers_one a b c _ _ _ _⟩⟩
  intro a' b' c'
  rw [chain_one]
  simp [tableOf, toLink, eq_comm]

theorem link_table_right_iff : Right fresh links spare ↔ links.length ≤ 1 := by
  constructor
  · rintro ⟨arrayd, built, _⟩
    by_contra two
    rw [build_stuck fresh links spare (by omega)] at built
    cases built
  · intro small
    match links, small with
    | [], _ => exact empty_right fresh spare
    | [(a, b, c)], _ => exact one_right fresh spare a b c

theorem two_links_stuck :
    ¬ ∀ (fresh : Fresh) (links : List (Int × Int × Int)) (spare : List (Option Link)),
      Right fresh links spare := by
  intro right
  let links : List (Int × Int × Int) := [(5, 1, 3), (2, 7, 8)]
  have two : 2 ≤ links.length := by decide
  obtain ⟨arrayd, built, _⟩ := right ⟨⟨fun _ => none, fun _ => none⟩, fun _ => 0⟩ links []
  rw [build_stuck _ links [] two] at built
  cases built

/-- The memory is not all that is wrong: in a matrix that has room for four links the
sweep misses the last link of the chain from 10 over 25 and 40 to 55. -/
example :
    let links : List (Int × Int × Int) := [(10, 20, 30), (40, 50, 60), (55, 70, 80), (25, 35, 45)]
    let roomy : Matrix Link := ⟨.live ((List.range 4).map fun i =>
      some ⟨.live ((List.replicate 4 none).set i (some ⟨1, .null⟩)), 4, 4⟩), 4, 4⟩
    (closeMatrix ⟨⟨fun _ => none, fun _ => none⟩, fun _ => 0⟩ (tableOf links []) roomy).map
      (fun adjmat => (List.range 4).map (adjmat.getValue 0)) =
    some [some 1, some 1, some (-1), some 1] := by decide

end Exactness

end Sac2c.LinkTable
