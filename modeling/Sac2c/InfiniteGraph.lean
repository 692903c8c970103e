import Mathlib.Data.List.Dedup
import Mathlib.Data.List.Flatten

/-!
Infinite graphs of flexsub/idag.c: vertex families whose members are materialised
when they are registered, and edge families between them. Registration never
enters a vertex into the list of the members of its family, so no member is found
again and no edge is made.
-/

namespace Sac2c.InfiniteGraph

section Model
variable {Params : Type}

/-- A vertex of the DAG with the parameters it is annotated with. -/
structure Vertex (Params : Type) where
  id : Nat
  params : Params

/-- The DAG of flexsub/dag.c: its vertices and its edges in the order in which they
have been added. -/
structure Dag (Params : Type) where
  defs : List (Vertex Params)
  edges : List (Vertex Params × Vertex Params)

structure EdgeFamily (Params : Type) where
  checkfun : Params → Params → Bool
  source : Nat
  target : Nat

structure VertexFamily (Params : Type) where
  cmpfun : Params → Params → Bool
  vertices : List (Vertex Params)
  froms : List (EdgeFamily Params)
  tos : List (EdgeFamily Params)

/-- N_idag. Families are known by the order in which they have been added. The chain
IDAG_EFAMS is left out: nothing is entered into it. -/
structure Idag (Params : Type) where
  dag : Dag Params
  vfams : List (VertexFamily Params)

/-- IDAGgenInfiniteGraph. -/
def genInfiniteGraph : Idag Params := { dag := { defs := [], edges := [] }, vfams := [] }

/-- DAGaddVertex. -/
def dagAddVertex (params : Params) (g : Dag Params) : Dag Params × Vertex Params :=
  let v := { id := g.defs.length, params := params }
  ({ g with defs := v :: g.defs }, v)

/-- DAGaddEdge for vertices of the graph. -/
def dagAddEdge (source target : Vertex Params) (g : Dag Params) : Dag Params :=
  { g with edges := g.edges ++ [(source, target)] }

/-- IDAGVFAM_VERTICES of a family. -/
def members (vfams : List (VertexFamily Params)) (vfam : Nat) : List (Vertex Params) :=
  ((vfams[vfam]?).map VertexFamily.vertices).getD []

/-- AddEdgesFrom: from one vertex to the members of the target families. -/
def addEdgesFrom (vfams : List (VertexFamily Params)) (source : Vertex Params)
    (fromEfams : List (EdgeFamily Params)) (g : Dag Params) : Dag Params :=
  fromEfams.foldl (fun g efam =>
    (members vfams efam.target).foldl (fun g target =>
      if efam.checkfun source.params target.params then dagAddEdge source target g
      else g) g) g

/-- AddEdgesTo. -/
def addEdgesTo (vfams : List (VertexFamily Params)) (toEfams : List (EdgeFamily Params))
    (target : Vertex Params) (g : Dag Params) : Dag Params :=
  toEfams.foldl (fun g efam =>
    (members vfams efam.source).foldl (fun g source =>
      if efam.checkfun source.params target.params then dagAddEdge source target g
      else g) g) g

/-- AddEdgesBetween. -/
def addEdgesBetween (froms tos : List (Vertex Params)) (checkfun : Params → Params → Bool)
    (g : Dag Params) : Dag Params :=
  froms.foldl (fun g source => tos.foldl (fun g target =>
    if checkfun source.params target.params then dagAddEdge source target g else g) g) g

/-- IDAGaddVertexFamily. -/
def addVertexFamily (cmpfun : Params → Params → Bool) (g : Idag Params) : Idag Params :=
  { g with vfams := g.vfams ++ [{ cmpfun := cmpfun, vertices := [], froms := [], tos := [] }] }

/-- IDAGregisterVertexFamilyMember: the vertex whose parameters are equal to `params`,
or a new one. -/
def registerVertexFamilyMember (vfam : Nat) (params : Params) (g : Idag Params) :
    Option (Idag Params × Vertex Params) :=
  (g.vfams[vfam]?).map fun family =>
    match family.vertices.find? fun v => family.cmpfun params v.params with
    | some res => (g, res)
    | none =>
        let added := dagAddVertex params g.dag
        let dag := addEdgesFrom g.vfams added.2 family.froms added.1
        ({ g with dag := addEdgesTo g.vfams family.tos added.2 dag }, added.2)

/-- IDAGaddEdgeFamily. -/
def addEdgeFamily (efam : EdgeFamily Params) (g : Idag Params) : Option (Idag Params) :=
  if efam.source < g.vfams.length ∧ efam.target < g.vfams.length then
    let vfams := g.vfams.modify efam.source fun family =>
      { family with froms := efam :: family.froms }
    let vfams := vfams.modify efam.target fun family => { family with tos := efam :: family.tos }
    some { vfams := vfams
           dag := addEdgesBetween (members vfams efam.source) (members vfams efam.target)
             efam.checkfun g.dag }
  else none

/-- A call of the interface. -/
inductive Op (Params : Type) where
  | vertexFamily (cmpfun : Params → Params → Bool)
  | edgeFamily (efam : EdgeFamily Params)
  | register (vfam : Nat) (params : Params)

/-- A registration: the vertex it has returned and the DAG before and after it. -/
structure Registered (Params : Type) where
  vfam : Nat
  params : Params
  vertex : Vertex Params
  before : Dag Params
  after : Dag Params

/-- The calls made so far, with the registrations among them and the graph. -/
inductive Run : List (Op Params) → List (Registered Params) → Idag Params → Prop where
  | start : Run [] [] genInfiniteGraph
  | vertexFamily {ops : List (Op Params)} {log : List (Registered Params)} {g : Idag Params}
      (cmpfun : Params → Params → Bool) :
      Run ops log g → Run (ops ++ [.vertexFamily cmpfun]) log (addVertexFamily cmpfun g)
  | edgeFamily {ops : List (Op Params)} {log : List (Registered Params)} {g next : Idag Params}
      (efam : EdgeFamily Params) :
      Run ops log g → addEdgeFamily efam g = some next → Run (ops ++ [.edgeFamily efam]) log next
  | register {ops : List (Op Params)} {log : List (Registered Params)} {g next : Idag Params}
      {vertex : Vertex Params} (vfam : Nat) (params : Params) :
      Run ops log g → registerVertexFamilyMember vfam params g = some (next, vertex) →
      Run (ops ++ [.register vfam params]) (log ++ [⟨vfam, params, vertex, g.dag, next.dag⟩]) next

end Model

section Purpose
variable {Params : Type}

/-- The comparison functions of the vertex families, in the order of their calls. -/
def vertexFamilies (ops : List (Op Params)) : List (Params → Params → Bool) :=
  ops.filterMap fun
    | .vertexFamily cmpfun => some cmpfun
    | _ => none

def edgeFamilies (ops : List (Op Params)) : List (EdgeFamily Params) :=
  ops.filterMap fun
    | .edgeFamily efam => some efam
    | _ => none

def registrations (ops : List (Op Params)) : List (Nat × Params) :=
  ops.filterMap fun
    | .register vfam params => some (vfam, params)
    | _ => none

/-- The comparison function of a family says that two registrations of members of the
family are for the same member. -/
def Identified (ops : List (Op Params)) (old new : Nat × Params) : Prop :=
  old.1 = new.1 ∧ ∃ cmpfun, (vertexFamilies ops)[new.1]? = some cmpfun ∧
    cmpfun new.2 old.2 = true

/-- What has been registered, as the interface knows it. -/
def Registered.member (entry : Registered Params) : Nat × Params := (entry.vfam, entry.params)

open Classical in
/-- The members of a family that have been registered. -/
noncomputable def registeredMembers (log : List (Registered Params)) (vfam : Nat) :
    List (Vertex Params) :=
  ((log.filter fun entry => entry.vfam = vfam).map Registered.vertex).dedup

/-- The edges that there should be: for each edge family those that it accepts. -/
noncomputable def acceptedEdges (ops : List (Op Params)) (log : List (Registered Params)) :
    List (Vertex Params × Vertex Params) :=
  (edgeFamilies ops).flatMap fun efam =>
    ((registeredMembers log efam.source).product (registeredMembers log efam.target)).filter
      fun pair => efam.checkfun pair.1.params pair.2.params

/-- Registered members are found again, and the edges are those that are accepted. -/
structure Materialised (ops : List (Op Params)) (log : List (Registered Params))
    (g : Idag Params) : Prop where
  found : ∀ earlier new later, log = earlier ++ new :: later →
    (∃ old ∈ earlier, Identified ops old.member new.member) →
    (∃ old ∈ earlier, Identified ops old.member new.member ∧ new.vertex = old.vertex) ∧
      new.after = new.before
  edges : g.dag.edges.Perm (acceptedEdges ops log)

/-- No registration is for a member that has been registered before. -/
def NoneAgain (ops : List (Op Params)) : Prop :=
  (registrations ops).Pairwise fun old new => ¬ Identified ops old new

/-- No edge family accepts two registered members of its families. -/
def NoneAccepted (ops : List (Op Params)) : Prop :=
  ∀ efam ∈ edgeFamilies ops, ∀ x ∈ registrations ops, ∀ y ∈ registrations ops,
    x.1 = efam.source → y.1 = efam.target → efam.checkfun x.2 y.2 = false

end Purpose

section Registration
variable {Params : Type}

/-- No family knows a member, and there are no edges. -/
def Empty (g : Idag Params) : Prop :=
  (∀ family ∈ g.vfams, family.vertices = []) ∧ g.dag.edges = []

theorem members_empty {vfams : List (VertexFamily Params)}
    (empty : ∀ family ∈ vfams, family.vertices = []) (vfam : Nat) : members vfams vfam = [] := by
  unfold members
  cases known : vfams[vfam]? with
  | none => rfl
  | some family => exact empty family (List.mem_of_getElem? known)

theorem add_edges_from_empty {vfams : List (VertexFamily Params)}
    (empty : ∀ family ∈ vfams, family.vertices = []) (source : Vertex Params)
    (fromEfams : List (EdgeFamily Params)) (g : Dag Params) :
    addEdgesFrom vfams source fromEfams g = g := by
  unfold addEdgesFrom
  apply List.foldl_fixed'
  intro efam
  rw [members_empty empty]
  rfl

theorem add_edges_to_empty {vfams : List (VertexFamily Params)}
    (empty : ∀ family ∈ vfams, family.vertices = []) (toEfams : List (EdgeFamily Params))
    (target : Vertex Params) (g : Dag Params) : addEdgesTo vfams toEfams target g = g := by
  unfold addEdgesTo
  apply List.foldl_fixed'
  intro efam
  rw [members_empty empty]
  rfl

/-- A registration always makes a new vertex, and no edge. -/
theorem register_empty {vfam : Nat} {params : Params} {g next : Idag Params}
    {vertex : Vertex Params} (empty : Empty g)
    (registered : registerVertexFamilyMember vfam params g = some (next, vertex)) :
    vertex = (dagAddVertex params g.dag).2 ∧ next.dag = (dagAddVertex params g.dag).1 ∧
      next.vfams = g.vfams := by
  unfold registerVertexFamilyMember at registered
  cases known : g.vfams[vfam]? with
  | none =>
      rw [known] at registered
      cases registered
  | some family =>
      -- the search fails, and the families at the other ends have no members either
      have none := empty.1 family (List.mem_of_getElem? known)
      simp only [known, Option.map_some, none, List.find?_nil, add_edges_from_empty empty.1,
        add_edges_to_empty empty.1] at registered
      cases registered
      exact ⟨rfl, rfl, rfl⟩

theorem mem_modify {α : Type} {list : List α} {i : Nat} {change : α → α} {entry : α}
    (member : entry ∈ list.modify i change) :
    entry ∈ list ∨ ∃ old ∈ list, entry = change old := by
  obtain ⟨j, inside, rfl⟩ := List.mem_iff_getElem.mp member
  rw [List.getElem_modify]
  rw [List.length_modify] at inside
  split
  · exact Or.inr ⟨list[j], List.getElem_mem inside, rfl⟩
  · exact Or.inl (List.getElem_mem inside)

theorem add_edge_family_empty {efam : EdgeFamily Params} {g next : Idag Params} (empty : Empty g)
    (added : addEdgeFamily efam g = some next) : Empty next ∧ next.dag = g.dag := by
  unfold addEdgeFamily at added
  split at added
  · have unknown : ∀ family ∈ (g.vfams.modify efam.source fun family =>
        { family with froms := efam :: family.froms }).modify efam.target fun family =>
        { family with tos := efam :: family.tos }, family.vertices = [] := by
      intro family member
      -- both changes of a family leave its members as they are
      rcases mem_modify member with early | ⟨old, early, rfl⟩
      · rcases mem_modify early with first | ⟨older, first, rfl⟩
        · exact empty.1 family first
        · exact empty.1 older first
      · rcases mem_modify early with first | ⟨older, first, rfl⟩
        · exact empty.1 old first
        · exact empty.1 older first
    simp only [members_empty unknown] at added
    cases added
    exact ⟨⟨unknown, empty.2⟩, rfl⟩
  · cases added

/-- What holds after any calls: the graph is empty but for the vertices, each of the
registrations has made a vertex of its own, and the log is that of the calls. -/
structure Fresh (ops : List (Op Params)) (log : List (Registered Params)) (g : Idag Params) :
    Prop where
  empty : Empty g
  logged : log.map Registered.member = registrations ops
  annotated : ∀ entry ∈ log, entry.vertex.params = entry.params
  bounded : ∀ entry ∈ log, entry.vertex.id < g.dag.defs.length
  distinct : log.Pairwise fun old new => old.vertex.id ≠ new.vertex.id
  grown : ∀ entry ∈ log, entry.after ≠ entry.before

theorem fresh_of_same_dag {ops more : List (Op Params)} {log : List (Registered Params)}
    {g next : Idag Params} (fresh : Fresh ops log g) (empty : Empty next)
    (dag : next.dag = g.dag) (none : registrations more = []) : Fresh (ops ++ more) log next where
  empty := empty
  logged := by
    rw [fresh.logged, registrations, registrations, List.filterMap_append]
    exact (List.append_right_eq_self.mpr none).symm
  annotated := fresh.annotated
  bounded entry member := by
    rw [dag]
    exact fresh.bounded entry member
  distinct := fresh.distinct
  grown := fresh.grown

theorem run_fresh {ops : List (Op Params)} {log : List (Registered Params)} {g : Idag Params}
    (run : Run ops log g) : Fresh ops log g := by
  induction run with
  | start =>
      exact ⟨⟨by simp [genInfiniteGraph], rfl⟩, rfl, by simp, by simp, List.Pairwise.nil, by simp⟩
  | @vertexFamily ops log g cmpfun _ ih =>
      refine fresh_of_same_dag ih ⟨fun family member => ?_, ih.empty.2⟩ rfl rfl
      rcases List.mem_append.mp member with old | new
      · exact ih.empty.1 family old
      · rw [List.mem_singleton.mp new]
  | @edgeFamily ops log g next efam _ added ih =>
      obtain ⟨empty, dag⟩ := add_edge_family_empty ih.empty added
      exact fresh_of_same_dag ih empty dag rfl
  | @register ops log g next vertex vfam params _ registered ih =>
      obtain ⟨rfl, dag, vfams⟩ := register_empty ih.empty registered
      have longer : next.dag.defs.length = g.dag.defs.length + 1 := by
        rw [dag]
        rfl
      refine ⟨⟨?_, ?_⟩, ?_, ?_, ?_, ?_, ?_⟩
      · rw [vfams]
        exact ih.empty.1
      · rw [dag]
        exact ih.empty.2
      · rw [List.map_append, ih.logged, registrations, registrations, List.filterMap_append]
        rfl
      · intro entry member
        rcases List.mem_append.mp member with old | new
        · exact ih.annotated entry old
        · rw [List.mem_singleton.mp new]
          rfl
      · intro entry member
        rw [longer]
        rcases List.mem_append.mp member with old | new
        · exact Nat.lt_succ_of_lt (ih.bounded entry old)
        · rw [List.mem_singleton.mp new]
          exact Nat.lt_succ_self _
      · refine List.pairwise_append.mpr ⟨ih.distinct, List.pairwise_singleton _ _, ?_⟩
        intro old member new last
        rw [List.mem_singleton.mp last]
        exact Nat.ne_of_lt (ih.bounded old member)
      · intro entry member
        rcases List.mem_append.mp member with old | new
        · exact ih.grown entry old
        · rw [List.mem_singleton.mp new]
          intro same
          have lengths := congrArg (fun dag => dag.defs.length) same
          simp only [longer] at lengths
          omega

theorem mem_registered_members {log : List (Registered Params)} {vfam : Nat}
    {v : Vertex Params} :
    v ∈ registeredMembers log vfam ↔ ∃ entry ∈ log, entry.vfam = vfam ∧ entry.vertex = v := by
  simp [registeredMembers, and_assoc]

/-- There should be no edges exactly if no edge family accepts anything. -/
theorem accepted_edges_nil_iff {ops : List (Op Params)} {log : List (Registered Params)}
    {g : Idag Params} (fresh : Fresh ops log g) :
    acceptedEdges ops log = [] ↔ NoneAccepted ops := by
  have entries : ∀ {x : Nat × Params}, x ∈ registrations ops ↔
      ∃ entry ∈ log, entry.member = x := by
    intro x
    rw [← fresh.logged, List.mem_map]
  unfold acceptedEdges NoneAccepted
  rw [List.flatMap_eq_nil_iff]
  constructor
  · intro none efam known x inX y inY source target
    obtain ⟨first, inLog1, rfl⟩ := entries.mp inX
    obtain ⟨second, inLog2, rfl⟩ := entries.mp inY
    have rejected := List.filter_eq_nil_iff.mp (none efam known) (first.vertex, second.vertex)
      (List.pair_mem_product.mpr ⟨mem_registered_members.mpr ⟨first, inLog1, source, rfl⟩,
        mem_registered_members.mpr ⟨second, inLog2, target, rfl⟩⟩)
    rw [fresh.annotated first inLog1, fresh.annotated second inLog2] at rejected
    exact Bool.eq_false_iff.mpr rejected
  · intro rejects efam known
    rw [List.filter_eq_nil_iff]
    rintro ⟨v, w⟩ pair
    obtain ⟨inV, inW⟩ := List.pair_mem_product.mp pair
    obtain ⟨first, inLog1, source, rfl⟩ := mem_registered_members.mp inV
    obtain ⟨second, inLog2, target, rfl⟩ := mem_registered_members.mp inW
    rw [fresh.annotated first inLog1, fresh.annotated second inLog2]
    have rejected := rejects efam known first.member (entries.mpr ⟨first, inLog1, rfl⟩)
      second.member (entries.mpr ⟨second, inLog2, rfl⟩) source target
    exact Bool.eq_false_iff.mp rejected

/-- Members are found again exactly if none is registered again. -/
theorem found_iff {ops : List (Op Params)} {log : List (Registered Params)} {g : Idag Params}
    (fresh : Fresh ops log g) :
    (∀ earlier new later, log = earlier ++ new :: later →
      (∃ old ∈ earlier, Identified ops old.member new.member) →
      (∃ old ∈ earlier, Identified ops old.member new.member ∧ new.vertex = old.vertex) ∧
        new.after = new.before) ↔ NoneAgain ops := by
  unfold NoneAgain
  rw [← fresh.logged, List.pairwise_map]
  constructor
  · intro found
    rw [List.pairwise_iff_getElem]
    intro i j inside1 inside2 less identified
    have parts : log = log.take j ++ log[j] :: log.drop (j + 1) := by
      rw [← List.drop_eq_getElem_cons inside2, List.take_append_drop]
    have early : log[i] ∈ log.take j := by
      rw [List.mem_take_iff_getElem]
      exact ⟨i, by omega, rfl⟩
    -- found again, the registration would not have changed the graph
    have same := (found _ _ _ parts ⟨log[i], early, identified⟩).2
    exact fresh.grown log[j] (List.getElem_mem inside2) same
  · rintro apart earlier new later rfl ⟨old, member, identified⟩
    have pairs := (List.pairwise_append.mp apart).2.2
    exact absurd identified (pairs old member new List.mem_cons_self)

/-- The infinite graph is materialised as it should be exactly if no member is
registered again and no edge family accepts two registered members. -/
theorem materialised_iff {ops : List (Op Params)} {log : List (Registered Params)}
    {g : Idag Params} (run : Run ops log g) :
    Materialised ops log g ↔ NoneAgain ops ∧ NoneAccepted ops := by
  have fresh := run_fresh run
  constructor
  · rintro ⟨found, edges⟩
    rw [fresh.empty.2] at edges
    exact ⟨(found_iff fresh).mp found, (accepted_edges_nil_iff fresh).mp edges.nil_eq.symm⟩
  · rintro ⟨noneAgain, noneAccepted⟩
    refine ⟨(found_iff fresh).mpr noneAgain, ?_⟩
    rw [fresh.empty.2, (accepted_edges_nil_iff fresh).mpr noneAccepted]

end Registration

/-- A comparison function on parameters that are numbers. -/
def sameNumber (params1 params2 : Int) : Bool := params1 == params2

def rejectAll : EdgeFamily Int := { checkfun := fun _ _ => false, source := 0, target := 0 }

/-- Two members of a family, and an edge family that does not accept them. -/
theorem materialised_two_members :
    ∃ (log : List (Registered Int)) (g : Idag Int),
      Materialised [.vertexFamily sameNumber, .register 0 5, .register 0 6,
        .edgeFamily rejectAll] log g := by
  obtain ⟨log, g, run⟩ : ∃ (log : List (Registered Int)) (g : Idag Int),
      Run [.vertexFamily sameNumber, .register 0 5, .register 0 6, .edgeFamily rejectAll] log g :=
    ⟨_, _, .edgeFamily rejectAll (.register 0 6 (.register 0 5 (.vertexFamily sameNumber .start)
      rfl) rfl) rfl⟩
  refine ⟨log, g, (materialised_iff run).mpr ⟨?_, ?_⟩⟩
  · simp [NoneAgain, registrations, Identified, vertexFamilies, sameNumber]
  · simp [NoneAccepted, registrations, edgeFamilies, rejectAll]

/-- A member that is registered twice. -/
theorem member_registered_twice :
    ¬ ∀ (ops : List (Op Int)) (log : List (Registered Int)) (g : Idag Int), Run ops log g →
      Materialised ops log g := by
  intro materialised
  obtain ⟨log, g, run⟩ : ∃ (log : List (Registered Int)) (g : Idag Int),
      Run [.vertexFamily sameNumber, .register 0 5, .register 0 5] log g :=
    ⟨_, _, .register 0 5 (.register 0 5 (.vertexFamily sameNumber .start) rfl) rfl⟩
  have noneAgain := (found_iff (run_fresh run)).mp (materialised _ log g run).found
  simp [NoneAgain, registrations, Identified, vertexFamilies, sameNumber] at noneAgain

end Sac2c.InfiniteGraph
