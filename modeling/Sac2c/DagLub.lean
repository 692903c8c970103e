import Mathlib.Data.Finset.Card
import Mathlib.Logic.Relation
import Mathlib.Order.WellFoundedSet

/-!
Lowest common super types, flexsub/dag.c and topo.c: graphs built by DAGaddVertex and
DAGaddEdge, the root scan and the topological walk that preprocessing begins with, and
the entry of the walk's list into the compinfo of the graph, which nothing allocates.
-/

namespace Sac2c.DagLub

open Relation

section Specification
variable {α : Type} {edge : α → α → Prop}

/-- `w` is above both vertices and nothing properly below it is. -/
def Lowest (edge : α → α → Prop) (u v w : α) : Prop :=
  (ReflTransGen edge w u ∧ ReflTransGen edge w v) ∧
    ∀ w', TransGen edge w w' → ¬ (ReflTransGen edge w' u ∧ ReflTransGen edge w' v)

def Acyclic (edge : α → α → Prop) : Prop := ∀ v, ¬ TransGen edge v v

theorem extremal_exists {r : α → α → Prop} (irrefl : ∀ a, ¬ r a a)
    (transitive : ∀ a b c, r a b → r b c → r a c) {among : Set α}
    (finite : among.Finite) (inhabited : among.Nonempty) :
    ∃ w ∈ among, ∀ w' ∈ among, ¬ r w' w := by
  have : IsStrictOrder α r := { irrefl := irrefl, trans := transitive }
  have wf : among.WellFoundedOn r := finite.wellFoundedOn
  obtain ⟨w, -, least⟩ := WellFounded.has_min wf (Set.univ : Set among)
    ⟨⟨inhabited.some, inhabited.some_mem⟩, trivial⟩
  exact ⟨w, w.property, fun w' member => least ⟨w', member⟩ trivial⟩

/-- Of the common ancestors of two vertices, some has none of them below it. -/
theorem lowest_exists (acyclic : Acyclic edge) {vertices : Set α}
    (finite : vertices.Finite) {u v top : α}
    (inside : ∀ w, ReflTransGen edge w u → w ∈ vertices)
    (above : ReflTransGen edge top u ∧ ReflTransGen edge top v) :
    ∃ w ∈ vertices, Lowest edge u v w := by
  -- a common ancestor that is extremal downwards among all of them
  let common : Set α := { w | ReflTransGen edge w u ∧ ReflTransGen edge w v }
  have contained : common ⊆ vertices := fun w member => inside w member.1
  obtain ⟨w, member, lowest⟩ :=
    extremal_exists (r := fun a b => TransGen edge b a) acyclic
      (fun a b c second first => first.trans second)
      (finite.subset contained) ⟨top, above⟩
  exact ⟨w, contained member, member, fun w' below other => lowest w' other below⟩

/-- Every vertex of a finite acyclic graph is below one without parents. -/
theorem source_exists (acyclic : Acyclic edge) {vertices : Set α}
    (finite : vertices.Finite) (inside : ∀ a b, edge a b → a ∈ vertices)
    {v : α} (member : v ∈ vertices) :
    ∃ top ∈ vertices, ReflTransGen edge top v ∧ ∀ a, ¬ edge a top := by
  let ancestors : Set α := { w | w ∈ vertices ∧ ReflTransGen edge w v }
  obtain ⟨top, ⟨known, reaches⟩, extremal⟩ :=
    extremal_exists (r := TransGen edge) acyclic (fun a b c => TransGen.trans)
      (finite.subset fun w (h : w ∈ ancestors) => h.1) ⟨v, member, .refl⟩
  refine ⟨top, known, reaches, ?_⟩
  intro a step
  exact extremal a ⟨inside a top step, .head step reaches⟩ (.single step)

end Specification

/-- N_tfvertex. Vertices are known by the order in which they have been added, edges
by their target; a chain of edges is in the order of TFEDGE_NEXT. -/
structure TfVertex where
  children : List Nat := []
  parents : List Nat := []
  numParents : Nat := 0
  numTopoVisits : Nat := 0
  topo : Nat := 0
deriving Repr, DecidableEq

/-- The compinfo of a graph, as far as the topological walk enters into it. -/
structure CompInfo where
  topoList : List Nat
deriving Repr, DecidableEq

/-- N_tfdag: `defs` is the chain TFDAG_DEFS, `vertices` the nodes themselves. -/
structure TfDag where
  defs : List Nat
  vertices : Nat → TfVertex
  root : Option Nat
  info : Option CompInfo
  dirty : Bool

/-- DAGgenGraph. TBmakeTfdag takes the default of TFDAG_INFO, which is NULL. -/
def dagGenGraph : TfDag :=
  { defs := [], vertices := fun _ => {}, root := none, info := none, dirty := true }

def vlookup (g : TfDag) (v : Nat) : Option Nat :=
  if v ∈ g.defs then some v else none

/-- DAGaddVertex puts the new vertex in front of the chain. -/
def dagAddVertex (g : TfDag) : TfDag :=
  { g with
    defs := g.defs.length :: g.defs
    vertices := Function.update g.vertices g.defs.length {}
    dirty := true }

/-- addEdge: both chains of edges are extended at their ends. -/
def addEdge (super sub : Nat) (vertices : Nat → TfVertex) : Nat → TfVertex :=
  let down := Function.update vertices super
    { vertices super with children := (vertices super).children ++ [sub] }
  Function.update down sub
    { down sub with
      parents := (down sub).parents ++ [super]
      numParents := (down sub).numParents + 1 }

/-- DAGaddEdge. A vertex that is not in the graph gives an error message only. -/
def dagAddEdge (source target : Nat) (g : TfDag) : TfDag :=
  match vlookup g source, vlookup g target with
  | some src, some tar => { g with vertices := addEdge src tar g.vertices, dirty := true }
  | _, _ => g

inductive Op where
  | addVertex
  | addEdge (source target : Nat)
deriving Repr, DecidableEq

def Op.run (g : TfDag) : Op → TfDag
  | .addVertex => dagAddVertex g
  | .addEdge source target => dagAddEdge source target g

/-- The graph after a sequence of calls. -/
def build (ops : List Op) : TfDag := ops.foldl Op.run dagGenGraph

inductive Fault where
  | nullPointer
  | outOfFuel
deriving Repr, DecidableEq

/-- The root scan of preprocessDAG. Every vertex becomes the root in its turn until a
second vertex without parents has been counted. -/
def scanRoot (vertices : Nat → TfVertex) : List Nat → Nat → Option Nat → Option Nat
  | [], _, root => root
  | v :: rest, rootCount, root =>
      let rootCount := if (vertices v).parents = [] then rootCount + 1 else rootCount
      if 1 < rootCount then scanRoot vertices rest rootCount root
      else scanRoot vertices rest rootCount (some v)

/-- The info of the topological walk, with the vertices it writes to. -/
structure Topo where
  vertices : Nat → TfVertex
  topo : Nat
  list : List Nat

/-- The list of sorted vertices. The link behind its first cell is never set: `clear`
says whether the memory obtained for the cell happens to hold NULL there. -/
def record (clear : Bool) (list : List Nat) (v : Nat) : List Nat :=
  match list with
  | [] => [v]
  | [head] => if clear then [head, v] else [head]
  | first :: second :: rest => first :: second :: rest ++ [v]

/-- The first part of TFTOPtfvertex: number the vertex and enter it into the list. -/
def enter (clear : Bool) (s : Topo) (v : Nat) : Topo :=
  { vertices := Function.update s.vertices v { s.vertices v with topo := s.topo }
    topo := s.topo + 1
    list := record clear s.list v }

/-- `++TFVERTEX_NUMTOPOVISITS`. -/
def countVisit (s : Topo) (v : Nat) : Topo :=
  { s with
    vertices := Function.update s.vertices v
      { s.vertices v with numTopoVisits := (s.vertices v).numTopoVisits + 1 } }

/-- The loop of TFTOPtfvertex over the children. -/
def topoChildren (visit : Topo → Nat → Option Topo) : List Nat → Topo → Option Topo
  | [], s => some s
  | child :: rest, s =>
      let counted := countVisit s child
      if (counted.vertices child).numParents = (counted.vertices child).numTopoVisits then
        (visit counted child).bind fun after => topoChildren visit rest after
      else topoChildren visit rest counted

/-- TFTOPtfvertex. -/
def topoVertex (clear : Bool) : Nat → Topo → Nat → Option Topo
  | 0, _, _ => none
  | fuel + 1, s, v =>
      topoChildren (topoVertex clear fuel) (s.vertices v).children (enter clear s v)

/-- TFTOPdoTopoSort with TFTOPtfdag: the walk from the root, then
COMPINFO_TOPOLIST (TFDAG_INFO (arg_node)) is written. -/
def topoSort (clear : Bool) (fuel : Nat) (g : TfDag) : Except Fault TfDag :=
  match g.root with
  | none => .error .nullPointer
  | some root =>
      match topoVertex clear fuel { vertices := g.vertices, topo := 1, list := [] } root with
      | none => .error .outOfFuel
      | some s =>
          match g.info with
          | none => .error .nullPointer
          | some info =>
              .ok { g with
                vertices := s.vertices
                info := some { info with topoList := s.list } }

/-- The passes behind the topological sort and the query itself. What they do plays no
part below: no call gets to them. -/
structure Passes where
  reduceTFGraph : TfDag → Except Fault TfDag
  dfWalk : TfDag → Except Fault TfDag
  crossClosure : TfDag → Except Fault TfDag
  reachabilityAnalysis : TfDag → Except Fault TfDag
  lubPreprocessing : TfDag → Except Fault TfDag
  lcaFromNodes : TfDag → Nat → Nat → Except Fault Nat

def preprocessDAG (passes : Passes) (clear : Bool) (fuel : Nat) (g : TfDag) :
    Except Fault TfDag := do
  let g := { g with root := scanRoot g.vertices g.defs 0 g.root }
  let g ← topoSort clear fuel g
  let g ← passes.reduceTFGraph g
  let g ← passes.dfWalk g
  let g ← passes.crossClosure g
  let g ← passes.reachabilityAnalysis g
  passes.lubPreprocessing g

/-- DAGgetLub, with the graph it leaves. -/
def dagGetLub (passes : Passes) (clear : Bool) (fuel : Nat) (g : TfDag) (u v : Nat) :
    Except Fault (Nat × TfDag) := do
  let g ← if g.dirty then preprocessDAG passes clear fuel g else pure g
  let w ← passes.lcaFromNodes g u v
  pure (w, g)

def Edge (g : TfDag) (a b : Nat) : Prop := b ∈ (g.vertices a).children

structure Admissible (g : TfDag) : Prop where
  acyclic : Acyclic (Edge g)
  root : ∃ top ∈ g.defs, ∀ v ∈ g.defs, (g.vertices v).parents = [] ↔ v = top

/-- DAGgetLub comes to an end with a lowest vertex above the two. -/
def Answers (passes : Passes) (clear : Bool) (g : TfDag) (u v : Nat) : Prop :=
  ∃ bound w, (∀ fuel, bound ≤ fuel →
    (dagGetLub passes clear fuel g u v).map Prod.fst = .ok w) ∧ Lowest (Edge g) u v w

section Building

/-- What every sequence of calls keeps. The edges are entered at both ends, and the
info of the graph stays as DAGgenGraph has left it. -/
structure Built (g : TfDag) : Prop where
  ids : ∀ v, v ∈ g.defs ↔ v < g.defs.length
  mirrored : ∀ a b, b ∈ (g.vertices a).children ↔ a ∈ (g.vertices b).parents
  inside : ∀ a b, b ∈ (g.vertices a).children → a ∈ g.defs ∧ b ∈ g.defs
  info : g.info = none
  dirty : g.dirty = true

theorem dag_gen_graph_built : Built dagGenGraph where
  ids := by simp [dagGenGraph]
  mirrored := by simp [dagGenGraph]
  inside := by simp [dagGenGraph]
  info := rfl
  dirty := rfl

theorem dag_add_vertex_built {g : TfDag} (built : Built g) : Built (dagAddVertex g) := by
  have fresh : g.defs.length ∉ g.defs := by
    rw [built.ids]
    exact Nat.lt_irrefl _
  -- no edge leads to or from a vertex that is not in the graph yet
  have childless (a : Nat) : g.defs.length ∉ (g.vertices a).children := fun child =>
    fresh (built.inside a _ child).2
  have barren : (g.vertices g.defs.length).children = [] := by
    refine List.eq_nil_iff_forall_not_mem.mpr ?_
    intro b child
    exact fresh (built.inside _ b child).1
  constructor
  case ids =>
    intro v
    simp only [dagAddVertex, List.mem_cons, List.length_cons, built.ids]
    omega
  case mirrored =>
    intro a b
    simp only [dagAddVertex, Function.update_apply]
    by_cases newSource : a = g.defs.length
    · subst newSource
      by_cases newTarget : b = g.defs.length
      · simp [newTarget]
      · have unlinked := (built.mirrored g.defs.length b).not.mp (by simp [barren])
        simp [newTarget, unlinked]
    · by_cases newTarget : b = g.defs.length
      · subst newTarget
        simp [newSource, childless a]
      · simpa [newSource, newTarget] using built.mirrored a b
  case inside =>
    intro a b child
    by_cases newSource : a = g.defs.length
    · subst newSource
      simp [dagAddVertex] at child
    · have kept : b ∈ (g.vertices a).children := by
        simpa [dagAddVertex, Function.update_apply, newSource] using child
      obtain ⟨source, target⟩ := built.inside a b kept
      exact ⟨List.mem_cons_of_mem _ source, List.mem_cons_of_mem _ target⟩
  case info => exact built.info
  case dirty => rfl

theorem mem_add_edge_children (super sub : Nat) (vertices : Nat → TfVertex) (a b : Nat) :
    b ∈ (addEdge super sub vertices a).children ↔
      b ∈ (vertices a).children ∨ (a = super ∧ b = sub) := by
  unfold addEdge
  by_cases source : a = super
  · subst source
    by_cases loop : a = sub
    · subst loop
      simp
    · simp [loop]
  · by_cases target : a = sub
    · subst target
      simp [source]
    · simp [source, target]

theorem mem_add_edge_parents (super sub : Nat) (vertices : Nat → TfVertex) (a b : Nat) :
    a ∈ (addEdge super sub vertices b).parents ↔
      a ∈ (vertices b).parents ∨ (a = super ∧ b = sub) := by
  unfold addEdge
  by_cases target : b = sub
  · subst target
    by_cases loop : b = super
    · subst loop
      simp
    · simp [loop]
  · by_cases source : b = super
    · subst source
      simp [target]
    · simp [source, target]

theorem dag_add_edge_eq (g : TfDag) (source target : Nat) :
    dagAddEdge source target g =
      if source ∈ g.defs ∧ target ∈ g.defs then
        { g with vertices := addEdge source target g.vertices, dirty := true }
      else g := by
  unfold dagAddEdge vlookup
  by_cases sourceKnown : source ∈ g.defs
  · by_cases targetKnown : target ∈ g.defs
    · simp [sourceKnown, targetKnown]
    · simp [sourceKnown, targetKnown]
  · simp [sourceKnown]

theorem dag_add_edge_built {g : TfDag} (built : Built g) (source target : Nat) :
    Built (dagAddEdge source target g) := by
  rw [dag_add_edge_eq]
  split
  case isTrue known =>
    constructor
    case ids => exact built.ids
    case mirrored =>
      intro a b
      rw [mem_add_edge_children, mem_add_edge_parents, built.mirrored a b]
    case inside =>
      intro a b child
      rw [mem_add_edge_children] at child
      cases child with
      | inl old => exact built.inside a b old
      | inr new =>
          obtain ⟨rfl, rfl⟩ := new
          exact known
    case info => exact built.info
    case dirty => rfl
  case isFalse => exact built

theorem build_built (ops : List Op) : Built (build ops) := by
  have step (ops : List Op) (g : TfDag) (built : Built g) : Built (ops.foldl Op.run g) := by
    induction ops generalizing g with
    | nil => exact built
    | cons op rest ih =>
        refine ih (op.run g) ?_
        cases op with
        | addVertex => exact dag_add_vertex_built built
        | addEdge source target => exact dag_add_edge_built built source target
  exact step ops dagGenGraph dag_gen_graph_built

theorem ancestor_known {g : TfDag} (built : Built g) {w v : Nat}
    (known : v ∈ g.defs) (reaches : ReflTransGen (Edge g) w v) : w ∈ g.defs := by
  cases ReflTransGen.cases_head reaches with
  | inl same => exact same ▸ known
  | inr step =>
      obtain ⟨next, edge, -⟩ := step
      exact (built.inside w next edge).1

/-- In a graph of the kind the package is made for there is always something to be
returned. -/
theorem answer_exists (ops : List Op) (admissible : Admissible (build ops)) {u v : Nat}
    (left : u ∈ (build ops).defs) (right : v ∈ (build ops).defs) :
    ∃ w ∈ (build ops).defs, Lowest (Edge (build ops)) u v w := by
  have built := build_built ops
  have finite : { w | w ∈ (build ops).defs }.Finite := List.finite_toSet (build ops).defs
  obtain ⟨top, -, single⟩ := admissible.root
  have below_top (x : Nat) (known : x ∈ (build ops).defs) :
      ReflTransGen (Edge (build ops)) top x := by
    obtain ⟨source, sourceKnown, reaches, orphan⟩ :=
      source_exists admissible.acyclic finite (fun a b edge => (built.inside a b edge).1) known
    have parentless : ((build ops).vertices source).parents = [] := by
      refine List.eq_nil_iff_forall_not_mem.mpr ?_
      intro a parent
      exact orphan a ((built.mirrored a source).mpr parent)
    rw [← (single source sourceKnown).mp parentless]
    exact reaches
  exact lowest_exists admissible.acyclic finite
    (fun w reaches => ancestor_known built left reaches)
    ⟨below_top u left, below_top v right⟩

end Building

section RootScan

/-- As long as the count does not pass one, every vertex scanned replaces the root: the
scan of a graph with a single root ends with the vertex that has been added first,
whichever vertex the root is. -/
theorem scan_root_last (vertices : Nat → TfVertex) (defs : List Nat) (rootCount : Nat)
    (root : Option Nat)
    (single : rootCount + defs.countP (fun v => (vertices v).parents = []) ≤ 1) :
    scanRoot vertices defs rootCount root = (defs.getLast?).or root := by
  induction defs generalizing rootCount root with
  | nil => simp [scanRoot]
  | cons v rest ih =>
      have counted : (if (vertices v).parents = [] then rootCount + 1 else rootCount) +
          rest.countP (fun v => (vertices v).parents = []) ≤ 1 := by
        rw [List.countP_cons] at single
        by_cases orphan : (vertices v).parents = []
        · simp only [orphan, decide_true, if_true] at single ⊢
          omega
        · simpa [orphan] using single
      have few : ¬ 1 < (if (vertices v).parents = [] then rootCount + 1 else rootCount) := by
        omega
      unfold scanRoot
      simp only [if_neg few]
      rw [ih _ _ counted]
      cases rest with
      | nil => simp
      | cons next rest => simp [List.getLast?_eq_some_getLast]

end RootScan

section Walk

/-- The vertices that the walk may still go into: those that have been visited fewer
times than they have parents. -/
def waiting (among : Finset Nat) (s : Topo) : Finset Nat :=
  among.filter fun v => (s.vertices v).numTopoVisits < (s.vertices v).numParents

/-- What a part of the walk changes. Edges and parent counts stay, visits only grow. -/
structure Extends (s s' : Topo) : Prop where
  children : ∀ v, (s'.vertices v).children = (s.vertices v).children
  numParents : ∀ v, (s'.vertices v).numParents = (s.vertices v).numParents
  visits : ∀ v, (s.vertices v).numTopoVisits ≤ (s'.vertices v).numTopoVisits

theorem extends_refl (s : Topo) : Extends s s :=
  ⟨fun _ => rfl, fun _ => rfl, fun _ => Nat.le_refl _⟩

theorem extends_trans {s t r : Topo} (first : Extends s t) (second : Extends t r) :
    Extends s r where
  children v := (second.children v).trans (first.children v)
  numParents v := (second.numParents v).trans (first.numParents v)
  visits v := (first.visits v).trans (second.visits v)

theorem waiting_extends {s s' : Topo} (grown : Extends s s') (among : Finset Nat) :
    waiting among s' ⊆ waiting among s := by
  intro v member
  simp only [waiting, Finset.mem_filter] at member ⊢
  refine ⟨member.1, ?_⟩
  calc (s.vertices v).numTopoVisits ≤ (s'.vertices v).numTopoVisits := grown.visits v
    _ < (s'.vertices v).numParents := member.2
    _ = (s.vertices v).numParents := grown.numParents v

theorem enter_extends (clear : Bool) (s : Topo) (v : Nat) : Extends s (enter clear s v) := by
  constructor
  all_goals
    intro w
    by_cases entered : w = v
    · subst entered
      simp [enter]
    · simp [enter, entered]

theorem count_visit_extends (s : Topo) (v : Nat) : Extends s (countVisit s v) := by
  constructor
  all_goals
    intro w
    by_cases visited : w = v
    · subst visited
      simp [countVisit]
    · simp [countVisit, visited]

/-- The visit that makes up the number of parents takes the vertex out of the waiting
ones, so the walk cannot come back to it. -/
theorem complete_visit_waiting {among : Finset Nat} {s : Topo} {child : Nat}
    (known : child ∈ among)
    (complete : ((countVisit s child).vertices child).numParents =
      ((countVisit s child).vertices child).numTopoVisits) :
    (waiting among (countVisit s child)).card < (waiting among s).card := by
  refine Finset.card_lt_card ?_
  refine (Finset.ssubset_iff_of_subset
    (waiting_extends (count_visit_extends s child) among)).mpr ⟨child, ?_, ?_⟩
  · simp only [countVisit, Function.update_self] at complete
    simp only [waiting, Finset.mem_filter]
    exact ⟨known, by omega⟩
  · simp only [waiting, Finset.mem_filter]
    omega

theorem topo_children_ends {visit : Topo → Nat → Option Topo} {among : Finset Nat}
    {bound : Nat}
    (goes : ∀ s v, (waiting among s).card < bound →
      (∀ a b, b ∈ (s.vertices a).children → b ∈ among) →
      ∃ s', visit s v = some s' ∧ Extends s s')
    (children : List Nat) (s : Topo) (within : ∀ child ∈ children, child ∈ among)
    (inside : ∀ a b, b ∈ (s.vertices a).children → b ∈ among)
    (few : (waiting among s).card ≤ bound) :
    ∃ s', topoChildren visit children s = some s' ∧ Extends s s' := by
  induction children generalizing s with
  | nil => exact ⟨s, rfl, extends_refl s⟩
  | cons child rest ih =>
      have known : child ∈ among := within child (List.mem_cons_self ..)
      have others : ∀ c ∈ rest, c ∈ among := fun c member =>
        within c (List.mem_cons_of_mem _ member)
      have counted := count_visit_extends s child
      have carry {s' : Topo} (grown : Extends s s') :
          (∀ a b, b ∈ (s'.vertices a).children → b ∈ among) ∧
            (waiting among s').card ≤ bound := by
        refine ⟨?_, (Finset.card_le_card (waiting_extends grown among)).trans few⟩
        intro a b edge
        rw [grown.children a] at edge
        exact inside a b edge
      by_cases complete : ((countVisit s child).vertices child).numParents =
          ((countVisit s child).vertices child).numTopoVisits
      · -- the last of the visits of the child: the walk goes into it, with one vertex less waiting
        have fewer := (complete_visit_waiting known complete).trans_le few
        obtain ⟨entered, went, below⟩ := goes (countVisit s child) child fewer (carry counted).1
        have grown := extends_trans counted below
        obtain ⟨s', went', further⟩ :=
          ih entered others (carry grown).1 (carry grown).2
        refine ⟨s', ?_, extends_trans grown further⟩
        simp only [topoChildren, if_pos complete, went, Option.bind_some]
        exact went'
      · obtain ⟨s', went, further⟩ :=
          ih (countVisit s child) others (carry counted).1 (carry counted).2
        refine ⟨s', ?_, extends_trans counted further⟩
        simp only [topoChildren, if_neg complete]
        exact went

/-- The walk comes to an end on every graph, cyclic ones included. -/
theorem topo_vertex_ends (clear : Bool) (among : Finset Nat) (fuel : Nat) (s : Topo) (v : Nat)
    (few : (waiting among s).card < fuel)
    (inside : ∀ a b, b ∈ (s.vertices a).children → b ∈ among) :
    ∃ s', topoVertex clear fuel s v = some s' ∧ Extends s s' := by
  induction fuel generalizing s v with
  | zero => exact absurd few (Nat.not_lt_zero _)
  | succ fuel ih =>
      -- the fuel bounds the waiting vertices, of which each call below has one less
      have entered := enter_extends clear s v
      have fewer : (waiting among (enter clear s v)).card ≤ fuel :=
        (Finset.card_le_card (waiting_extends entered among)).trans (Nat.le_of_lt_succ few)
      obtain ⟨s', went, further⟩ :=
        topo_children_ends (fun s v few inside => ih s v few inside) (s.vertices v).children
          (enter clear s v) (fun child edge => inside v child edge)
          (fun a b edge => inside a b ((entered.children a) ▸ edge)) fewer
      exact ⟨s', went, extends_trans entered further⟩

/-- With the info of the graph never allocated, the topological sort ends in the
assignment through it. -/
theorem topo_sort_faults (clear : Bool) {fuel : Nat} {g : TfDag} (unallocated : g.info = none)
    (inside : ∀ a b, b ∈ (g.vertices a).children → b ∈ g.defs)
    (enough : g.defs.length < fuel) : topoSort clear fuel g = .error .nullPointer := by
  unfold topoSort
  cases g.root with
  | none => rfl
  | some root =>
      let start : Topo := { vertices := g.vertices, topo := 1, list := [] }
      have few : (waiting g.defs.toFinset start).card < fuel :=
        calc (waiting g.defs.toFinset start).card ≤ g.defs.toFinset.card :=
              Finset.card_filter_le _ _
          _ ≤ g.defs.length := List.toFinset_card_le _
          _ < fuel := enough
      obtain ⟨s, went, -⟩ := topo_vertex_ends clear g.defs.toFinset fuel start root few
        (fun a b edge => List.mem_toFinset.mpr (inside a b edge))
      simp only [start] at went
      simp only [went, unallocated]

end Walk

section Query

theorem preprocess_faults (passes : Passes) (clear : Bool) {fuel : Nat} {g : TfDag}
    (built : Built g) (enough : g.defs.length < fuel) :
    preprocessDAG passes clear fuel g = .error .nullPointer := by
  have inside (a b : Nat) (edge : b ∈ (g.vertices a).children) : b ∈ g.defs :=
    (built.inside a b edge).2
  let rooted : TfDag := { g with root := scanRoot g.vertices g.defs 0 g.root }
  have sorted : topoSort clear fuel rooted = .error .nullPointer :=
    topo_sort_faults clear built.info inside enough
  unfold preprocessDAG
  change (topoSort clear fuel rooted >>= _) = _
  rw [sorted]
  rfl

theorem query_faults (passes : Passes) (clear : Bool) {fuel : Nat} {g : TfDag}
    (built : Built g) (u v : Nat) (enough : g.defs.length < fuel) :
    dagGetLub passes clear fuel g u v = .error .nullPointer := by
  unfold dagGetLub
  rw [if_pos built.dirty, preprocess_faults passes clear built enough]
  rfl

theorem built_unanswered (passes : Passes) (clear : Bool) {g : TfDag} (built : Built g)
    (u v : Nat) : ¬ Answers passes clear g u v := by
  rintro ⟨bound, w, returns, -⟩
  have answered := returns (bound + g.defs.length + 1) (by omega)
  rw [query_faults passes clear built u v (by omega)] at answered
  cases answered

/-- Every query on a graph made by the package ends in the null pointer, whatever the
passes behind the topological sort do, and none is answered. -/
theorem get_lub_faults (passes : Passes) (clear : Bool) (ops : List Op) (u v : Nat) :
    (∃ bound, ∀ fuel, bound ≤ fuel →
      dagGetLub passes clear fuel (build ops) u v = .error .nullPointer) ∧
    ¬ Answers passes clear (build ops) u v := by
  have built := build_built ops
  refine ⟨⟨(build ops).defs.length + 1, ?_⟩, built_unanswered passes clear built u v⟩
  intro fuel enough
  exact query_faults passes clear built u v enough

/-- Two vertices and one edge between them. -/
def oneEdge : TfDag := build [.addVertex, .addVertex, .addEdge 0 1]

theorem one_edge_children (a b : Nat) : Edge oneEdge a b ↔ a = 0 ∧ b = 1 := by
  have childless (a : Nat) : ((build [.addVertex, .addVertex]).vertices a).children = [] := by
    simp only [build, List.foldl_cons, List.foldl_nil, Op.run, dagAddVertex, dagGenGraph,
      Function.update_apply]
    split
    · rfl
    · split <;> rfl
  have added : oneEdge.vertices = addEdge 0 1 (build [.addVertex, .addVertex]).vertices := rfl
  unfold Edge
  rw [added, mem_add_edge_children, childless]
  simp

theorem one_edge_acyclic : Acyclic (Edge oneEdge) := by
  intro v cycle
  have single {a b : Nat} (path : TransGen (Edge oneEdge) a b) : a = 0 ∧ b = 1 := by
    induction path with
    | single edge => exact (one_edge_children _ _).mp edge
    | tail path edge ih => exact ⟨ih.1, ((one_edge_children _ _).mp edge).2⟩
  have both := single cycle
  omega

/-- The graph of a root and its child is of the kind the package is made for, and the
query for the two is not answered. -/
theorem one_edge_unanswered :
    Admissible oneEdge ∧ 0 ∈ oneEdge.defs ∧ 1 ∈ oneEdge.defs ∧
      ∀ passes clear, ¬ Answers passes clear oneEdge 0 1 := by
  refine ⟨⟨one_edge_acyclic, 0, by decide, by decide⟩, by decide, by decide, ?_⟩
  intro passes clear
  exact built_unanswered passes clear (build_built _) 0 1

end Query

end Sac2c.DagLub
