import Sac2c.DagLub

/-!
The minimum equivalent graph of flexsub/mineq.c, with GUmergeLists and GUremoveEdge of
graphutils.c. The topological sort before it ends in the compinfo that nothing allocates. With
one the reduction would leave reachability as it is, but it loses ancestors: in GUmergeLists,
and by giving them up with the first child.
-/

namespace Sac2c.MinimumGraph
open Relation DagLub

section Model

/-- What N_tfvertex has for the reduction. TFVERTEX_NUMCHILDREN is never assigned. -/
structure Marks where
  ancestors : List Nat := []
  mineqChildVisits : Nat := 0
  numChildren : Nat := 0
deriving Repr, DecidableEq

structure Graph where
  vertices : Nat → TfVertex
  marks : Nat → Marks

def guVertInList (n : Nat) : List Nat → Bool
  | [] => false
  | x :: nl => if x = n then true else guVertInList n nl

/-- The first loop of GUmergeLists. What is looked up is always the head of the list. -/
def mergeLoop (head : Nat) (nlb : List Nat) : List Nat → List Nat → List Nat
  | [], nlx => nlx
  | x :: itr, nlx => mergeLoop head nlb itr (if guVertInList head nlb then nlx else nlx ++ [x])

/-- Its second loop. -/
def appendLoop : List Nat → List Nat → List Nat
  | [], nlx => nlx
  | x :: itr, nlx => appendLoop itr (nlx ++ [x])

def guMergeLists (nla nlb : List Nat) : List Nat :=
  match nla with
  | [] => appendLoop nlb []
  | head :: rest => appendLoop nlb (mergeLoop head nlb (head :: rest) [])

/-- The first loop of GUremoveEdge. -/
def removeChildren (tar : Nat) : List Nat → List Nat
  | [] => []
  | e :: rest => if e = tar then removeChildren tar rest else e :: removeChildren tar rest

/-- Its second loop, for some number of rounds at most. `owner` is the vertex whose parents are
looked at and `kept` those before `curr_itr`: after the first parent of `tar` has been removed,
the loop goes on with the parents of `src`. -/
def removeParents (src tar : Nat) :
    Nat → Nat → List Nat → List Nat → (Nat → TfVertex) → Except Fault (Nat → TfVertex)
  | 0, _, _, _, _ => .error .outOfFuel
  | _ + 1, _, _, [], vertices => .ok vertices
  | rounds + 1, owner, kept, e :: rest, vertices =>
      if e = src then
        match kept with
        | [] =>
            match (vertices tar).parents with
            | [] => .error .nullPointer
            | _ :: parents =>
                removeParents src tar rounds src [] (vertices src).parents
                  (Function.update vertices tar { vertices tar with parents := parents })
        | k :: kept =>
            removeParents src tar rounds owner (k :: kept) rest
              (Function.update vertices owner { vertices owner with parents := k :: kept ++ rest })
      else removeParents src tar rounds owner (kept ++ [e]) rest vertices

/-- The graph behind the first loop. -/
def withoutChild (src tar : Nat) (vertices : Nat → TfVertex) : Nat → TfVertex :=
  Function.update vertices src
    { vertices src with children := removeChildren tar (vertices src).children }

def guRemoveEdge (src tar : Nat) (vertices : Nat → TfVertex) : Except Fault (Nat → TfVertex) :=
  let vertices := withoutChild src tar vertices
  removeParents src tar ((vertices tar).parents.length + (vertices src).parents.length + 1) tar []
    (vertices tar).parents vertices

/-- The first loop of TFMINtfvertex, over the parents of the vertex. -/
def dropEdges (v : Nat) : List Nat → Graph → Except Fault Graph
  | [], g => .ok g
  | parent :: rest, g =>
      if (g.vertices v).parents.any fun other => guVertInList parent (g.marks other).ancestors then
        (guRemoveEdge parent v g.vertices).bind fun vertices =>
          dropEdges v rest { g with vertices := vertices }
      else dropEdges v rest g

/-- The body of its second loop. -/
def gatherAncestors (v : Nat) (g : Graph) (parent : Nat) : Graph :=
  let childrenVisited := (g.marks parent).mineqChildVisits
  let counted := Function.update g.marks parent
    { g.marks parent with mineqChildVisits := childrenVisited + 1 }
  let gathered := Function.update counted v
    { counted v with
      ancestors := parent :: guMergeLists (counted v).ancestors (counted parent).ancestors }
  let marks :=
    if childrenVisited = (gathered parent).numChildren then
      Function.update gathered parent { gathered parent with ancestors := [] }
    else gathered
  { g with marks := marks }

def tfminTfvertex (g : Graph) (v : Nat) : Except Fault Graph :=
  (dropEdges v (g.vertices v).parents g).bind fun g =>
    .ok ((g.vertices v).parents.foldl (gatherAncestors v) g)

/-- TFMINtfdag over the rest of the list of sorted vertices. -/
def tfminFrom : List Nat → Graph → Except Fault Graph
  | [], g => .ok g
  | v :: rest, g => (tfminTfvertex g v).bind (tfminFrom rest)

/-- TFMINdoReduceTFGraph. -/
def reduceTFGraph (g : TfDag) : Except Fault Graph :=
  match g.info with
  | none => .ok ⟨g.vertices, fun _ => {}⟩
  | some info => tfminFrom info.topoList ⟨g.vertices, fun _ => {}⟩

/-- The first two passes of preprocessDAG behind the choice of the root. -/
def minimumGraph (clear : Bool) (fuel : Nat) (g : TfDag) : Except Fault Graph :=
  (topoSort clear fuel g).bind reduceTFGraph

end Model

section Specification

/-- A vertex list is the union of two. -/
def IsUnion (list a b : List Nat) : Prop := ∀ v, v ∈ list ↔ v ∈ a ∨ v ∈ b

def EdgeOf (vertices : Nat → TfVertex) (a b : Nat) : Prop := b ∈ (vertices a).children

/-- Reachability is left as it is, and no edge is left beside another path. -/
structure Minimal (before after : Nat → TfVertex) : Prop where
  reach : ∀ a b, TransGen (EdgeOf after) a b ↔ TransGen (EdgeOf before) a b
  edges : ∀ a b, EdgeOf after a b → EdgeOf before a b
  none_redundant : ∀ u w v, TransGen (EdgeOf before) u w → TransGen (EdgeOf before) w v →
    ¬ EdgeOf after u v

/-- The two passes end with a minimal graph. -/
def Reduces (clear : Bool) (g : TfDag) : Prop :=
  ∃ bound, ∀ fuel, bound ≤ fuel →
    ∃ after, minimumGraph clear fuel g = .ok after ∧ Minimal g.vertices after.vertices

end Specification

section Merging

theorem vert_in_list (n : Nat) (nl : List Nat) : guVertInList n nl = true ↔ n ∈ nl := by
  induction nl with
  | nil => simp [guVertInList]
  | cons x nl ih =>
      rw [guVertInList, List.mem_cons]
      by_cases same : x = n
      · simp [same]
      · simp [same, ih, Ne.symm same]

theorem append_loop (itr nlx : List Nat) : appendLoop itr nlx = nlx ++ itr := by
  induction itr generalizing nlx with
  | nil => simp [appendLoop]
  | cons x itr ih => rw [appendLoop, ih, List.append_assoc, List.singleton_append]

theorem merge_loop (head : Nat) (nlb itr nlx : List Nat) :
    mergeLoop head nlb itr nlx = if head ∈ nlb then nlx else nlx ++ itr := by
  induction itr generalizing nlx with
  | nil => simp [mergeLoop]
  | cons x itr ih =>
      simp only [mergeLoop, ih, vert_in_list]
      split <;> simp

/-- All of the first list is taken, or nothing of it. -/
theorem merge_lists (nla nlb : List Nat) :
    guMergeLists nla nlb = if (∃ head ∈ nla.head?, head ∈ nlb) then nlb else nla ++ nlb := by
  cases nla with
  | nil => simp [guMergeLists, append_loop]
  | cons head rest =>
      rw [guMergeLists, append_loop, merge_loop]
      by_cases found : head ∈ nlb <;> simp [found]

theorem merge_subset {nla nlb : List Nat} {v : Nat} (member : v ∈ guMergeLists nla nlb) :
    v ∈ nla ∨ v ∈ nlb := by
  rw [merge_lists] at member
  split at member
  · exact Or.inr member
  · exact List.mem_append.mp member

/-- The merged list is the union unless the head of the first list is found in the second one and
another of its vertices is not. -/
theorem merge_union_iff (nla nlb : List Nat) :
    IsUnion (guMergeLists nla nlb) nla nlb ↔
      (∀ head ∈ nla.head?, head ∉ nlb) ∨ ∀ v ∈ nla, v ∈ nlb := by
  rw [merge_lists]
  by_cases found : ∃ head ∈ nla.head?, head ∈ nlb
  · obtain ⟨head, isHead, member⟩ := found
    rw [if_pos ⟨head, isHead, member⟩, or_iff_right fun none => none head isHead member]
    constructor
    · exact fun union v inA => (union v).mpr (Or.inl inA)
    · exact fun inside v => ⟨Or.inr, fun either => either.elim (inside v) id⟩
  · rw [if_neg found]
    refine iff_of_true (fun v => List.mem_append) (Or.inl fun head isHead member => ?_)
    exact found ⟨head, isHead, member⟩

end Merging

section Bypass
variable {edge : Nat → Nat → Prop}

/-- The edges without one of them. -/
def Without (edge : Nat → Nat → Prop) (u v a b : Nat) : Prop := edge a b ∧ ¬ (a = u ∧ b = v)

/-- A path to a vertex that is not below `v` has no edge into `v`. -/
theorem path_without (u : Nat) {v a b : Nat} (path : TransGen edge a b)
    (above : ¬ ReflTransGen edge v b) : TransGen (Without edge u v) a b := by
  induction path using TransGen.head_induction_on with
  | single step => exact .single ⟨step, fun same => above (same.2 ▸ .refl)⟩
  | head step rest ih => exact .head ⟨step, fun same => above (same.2 ▸ rest.to_reflTransGen)⟩ ih

/-- An edge beside another path can be left out. -/
theorem reach_without (acyclic : Acyclic edge) {u w v : Nat} (first : TransGen edge u w)
    (last : edge w v) (a b : Nat) : TransGen (Without edge u v) a b ↔ TransGen edge a b := by
  have above : ¬ ReflTransGen edge v w := fun back => acyclic w (.head' last back)
  have apart : w ≠ u := fun same => acyclic u (same ▸ first)
  have bypass : TransGen (Without edge u v) u v :=
    (path_without u first above).tail ⟨last, fun same => apart same.1⟩
  constructor
  · have fewer : Without edge u v ≤ edge := fun _ _ step => step.1
    exact TransGen.mono fewer a b
  · intro path
    induction path with
    | @single b step =>
        by_cases removed : a = u ∧ b = v
        · rw [removed.1, removed.2]
          exact bypass
        · exact .single ⟨step, removed⟩
    | @tail b c _ step ih =>
        by_cases removed : b = u ∧ c = v
        · rw [removed.1] at ih
          rw [removed.2]
          exact ih.trans bypass
        · exact ih.tail ⟨step, removed⟩

end Bypass

section Removing
variable {vertices : Nat → TfVertex} {src tar : Nat}

theorem remove_children (tar : Nat) (children : List Nat) (v : Nat) :
    v ∈ removeChildren tar children ↔ v ∈ children ∧ v ≠ tar := by
  induction children with
  | nil => simp [removeChildren]
  | cons e rest ih =>
      rw [removeChildren]
      split
      · next same =>
          subst same
          rw [ih, List.mem_cons]
          tauto
      · next apart =>
          rw [List.mem_cons, ih, List.mem_cons]
          constructor
          · rintro (rfl | both)
            · exact ⟨Or.inl rfl, apart⟩
            · exact ⟨Or.inr both.1, both.2⟩
          · rintro ⟨rfl | inRest, other⟩
            · exact Or.inl rfl
            · exact Or.inr ⟨inRest, other⟩

theorem other_parent {e : Nat} (apart : e ≠ src) (rounds owner : Nat) (kept rest : List Nat) :
    removeParents src tar (rounds + 1) owner kept (e :: rest) vertices =
      removeParents src tar rounds owner (kept ++ [e]) rest vertices := by
  rw [removeParents.eq_def]
  simp only [if_neg apart]

theorem later_parent (rounds owner k : Nat) (kept rest : List Nat) :
    removeParents src tar (rounds + 1) owner (k :: kept) (src :: rest) vertices =
      removeParents src tar rounds owner (k :: kept) rest
        (Function.update vertices owner { vertices owner with parents := k :: kept ++ rest }) := by
  rw [removeParents.eq_def]
  simp only [if_true]

theorem first_parent {parents : List Nat} {e : Nat} (listed : (vertices tar).parents = e :: parents)
    (rounds owner : Nat) (rest : List Nat) :
    removeParents src tar (rounds + 1) owner [] (src :: rest) vertices =
      removeParents src tar rounds src [] (vertices src).parents
        (Function.update vertices tar { vertices tar with parents := parents }) := by
  rw [removeParents.eq_def]
  simp only [if_true, listed]

/-- Parents among which the source is not are left as they are. -/
theorem parents_left {rounds owner : Nat} {kept rest : List Nat} (absent : src ∉ rest)
    (enough : rest.length < rounds) :
    removeParents src tar rounds owner kept rest vertices = .ok vertices := by
  induction rest generalizing rounds kept with
  | nil =>
      obtain ⟨n, rfl⟩ : ∃ n, rounds = n + 1 := ⟨rounds - 1, by omega⟩
      rfl
  | cons e rest ih =>
      obtain ⟨n, rfl⟩ : ∃ n, rounds = n + 1 := ⟨rounds - 1, by omega⟩
      have apart : e ≠ src := fun same => absent (same ▸ List.mem_cons_self)
      rw [other_parent apart]
      exact ih (fun member => absent (List.mem_cons_of_mem e member)) (by simpa using enough)

/-- The source is removed behind the first parent. -/
theorem parents_behind {rounds k : Nat} {kept rest : List Nat} (once : rest.Nodup)
    (present : src ∈ rest) (enough : rest.length < rounds) (absent : src ∉ k :: kept) :
    ∃ parents, removeParents src tar rounds tar (k :: kept) rest vertices =
        .ok (Function.update vertices tar { vertices tar with parents := parents }) ∧
      parents.Sublist ((k :: kept) ++ rest) ∧
        ∀ v, v ∈ parents ↔ v ∈ (k :: kept) ++ rest ∧ v ≠ src := by
  -- The list keeps its head, so that the loop does not leave the parents of `tar`.
  induction rest generalizing rounds kept with
  | nil => cases present
  | cons e rest ih =>
      obtain ⟨n, rfl⟩ : ∃ n, rounds = n + 1 := ⟨rounds - 1, by omega⟩
      obtain ⟨fresh, once⟩ := List.nodup_cons.mp once
      have less : rest.length < n := by simpa using enough
      by_cases same : e = src
      · subst same
        rw [later_parent]
        refine ⟨k :: kept ++ rest, parents_left fresh less,
          (List.sublist_cons_self e rest).append_left _, fun v => ?_⟩
        constructor
        · intro member
          have apart : v ≠ e := by
            rintro rfl
            exact (List.mem_append.mp member).elim absent fresh
          exact ⟨(List.mem_append.mp member).elim (List.mem_append_left _)
            (fun inRest => List.mem_append_right _ (List.mem_cons_of_mem e inRest)), apart⟩
        · rintro ⟨member, apart⟩
          rcases List.mem_append.mp member with before | behind
          · exact List.mem_append_left _ before
          · exact List.mem_append_right _ ((List.mem_cons.mp behind).resolve_left apart)
      · rw [other_parent same]
        have present' := (List.mem_cons.mp present).resolve_left (Ne.symm same)
        have absent' : src ∉ k :: (kept ++ [e]) := by
          simp only [List.mem_cons, List.mem_append, List.not_mem_nil, or_false, not_or] at absent ⊢
          exact ⟨absent.1, absent.2, Ne.symm same⟩
        obtain ⟨parents, removed, fewer, members⟩ := ih once present' less absent'
        have whole : k :: (kept ++ [e]) ++ rest = k :: kept ++ e :: rest := by simp
        rw [whole] at fewer members
        exact ⟨parents, removed, fewer, members⟩

/-- The source is removed from the parents of the target. -/
theorem parent_removed {rounds : Nat} (once : (vertices tar).parents.Nodup)
    (present : src ∈ (vertices tar).parents) (apart : src ≠ tar)
    (loopless : src ∉ (vertices src).parents)
    (enough : (vertices tar).parents.length + (vertices src).parents.length < rounds) :
    ∃ parents, removeParents src tar rounds tar [] (vertices tar).parents vertices =
        .ok (Function.update vertices tar { vertices tar with parents := parents }) ∧
      parents.Sublist (vertices tar).parents ∧
        ∀ v, v ∈ parents ↔ v ∈ (vertices tar).parents ∧ v ≠ src := by
  obtain ⟨n, rfl⟩ : ∃ n, rounds = n + 1 := ⟨rounds - 1, by omega⟩
  cases listed : (vertices tar).parents with
  | nil => rw [listed] at present; cases present
  | cons e rest =>
      rw [listed] at once present enough
      obtain ⟨fresh, once⟩ := List.nodup_cons.mp once
      rw [List.length_cons] at enough
      by_cases same : e = src
      · subst same
        -- The loop goes on with the parents of the source, where it finds nothing.
        rw [first_parent listed]
        refine ⟨rest, parents_left loopless (by omega), List.sublist_cons_self e rest, fun v => ?_⟩
        rw [List.mem_cons]
        constructor
        · exact fun member => ⟨Or.inr member, fun same => fresh (same ▸ member)⟩
        · exact fun both => both.1.resolve_left both.2
      · have less : rest.length < n := by omega
        rw [other_parent same]
        exact parents_behind once ((List.mem_cons.mp present).resolve_left (Ne.symm same)) less
          fun member => same (List.mem_singleton.mp member).symm

theorem without_child_parents (v : Nat) :
    (withoutChild src tar vertices v).parents = (vertices v).parents := by
  by_cases here : v = src
  · rw [withoutChild, here, Function.update_self]
  · rw [withoutChild, Function.update_of_ne here]

theorem without_child_children (a b : Nat) :
    b ∈ (withoutChild src tar vertices a).children ↔
      b ∈ (vertices a).children ∧ ¬ (a = src ∧ b = tar) := by
  by_cases here : a = src
  · rw [withoutChild, here, Function.update_self]
    simp [remove_children]
  · rw [withoutChild, Function.update_of_ne here]
    simp [here]

/-- GUremoveEdge takes a simple edge out of both chains. -/
theorem edge_removed (apart : src ≠ tar) (once : (vertices tar).parents.Nodup)
    (present : src ∈ (vertices tar).parents) (loopless : src ∉ (vertices src).parents) :
    ∃ after, guRemoveEdge src tar vertices = .ok after ∧
      (∀ a b, b ∈ (after a).children ↔ b ∈ (vertices a).children ∧ ¬ (a = src ∧ b = tar)) ∧
      (∀ a b, a ∈ (after b).parents ↔ a ∈ (vertices b).parents ∧ ¬ (a = src ∧ b = tar)) ∧
      ∀ b, (after b).parents.Sublist (vertices b).parents := by
  let pruned := withoutChild src tar vertices
  have parents : ∀ v, (pruned v).parents = (vertices v).parents := without_child_parents
  have children : ∀ a b, b ∈ (pruned a).children ↔
      b ∈ (vertices a).children ∧ ¬ (a = src ∧ b = tar) := without_child_children
  have rounds : (pruned tar).parents.length + (pruned src).parents.length <
      (pruned tar).parents.length + (pruned src).parents.length + 1 := Nat.lt_succ_self _
  obtain ⟨left, removed, fewer, members⟩ := @parent_removed pruned src tar _ (by rwa [parents])
    (by rwa [parents]) apart (by rwa [parents]) rounds
  refine ⟨_, removed, fun a b => ?_, fun a b => ?_, fun b => ?_⟩
  · rw [← children a b]
    by_cases here : a = tar
    · rw [here, Function.update_self]
    · rw [Function.update_of_ne here]
  · by_cases here : b = tar
    · rw [here, Function.update_self, members, parents]
      simp
    · rw [Function.update_of_ne here, parents]
      simp [here]
  · by_cases here : b = tar
    · rw [here, Function.update_self, ← parents tar]
      exact fewer
    · rw [Function.update_of_ne here, parents]

end Removing

section Reachability

/-- What the reduction keeps: the two chains of every edge, one edge between two vertices,
reachability, and that ancestors are above. -/
structure Sound (before : Nat → TfVertex) (g : Graph) : Prop where
  mirrored : ∀ a b, b ∈ (g.vertices a).children ↔ a ∈ (g.vertices b).parents
  simple : ∀ b, (g.vertices b).parents.Nodup
  edges : ∀ a b, EdgeOf g.vertices a b → EdgeOf before a b
  reach : ∀ a b, TransGen (EdgeOf g.vertices) a b ↔ TransGen (EdgeOf before) a b
  ancestors : ∀ v, ∀ w ∈ (g.marks v).ancestors, TransGen (EdgeOf before) w v

variable {before : Nat → TfVertex} {g : Graph} {v : Nat}

/-- An edge is only taken out beside another path. -/
theorem drop_edge_sound (acyclic : Acyclic (EdgeOf before)) (sound : Sound before g) {parent : Nat}
    (present : parent ∈ (g.vertices v).parents)
    (redundant : ((g.vertices v).parents.any fun other =>
      guVertInList parent (g.marks other).ancestors) = true) :
    ∃ vertices, guRemoveEdge parent v g.vertices = .ok vertices ∧
      Sound before { g with vertices := vertices } ∧
        ∀ a, a ∈ (vertices v).parents ↔ a ∈ (g.vertices v).parents ∧ a ≠ parent := by
  have unlooped : ∀ a, a ∉ (g.vertices a).parents := fun a loop =>
    acyclic a (.single (sound.edges a a ((sound.mirrored a a).mpr loop)))
  have apart : parent ≠ v := fun same => unlooped v (same ▸ present)
  obtain ⟨vertices, removed, children, parents, fewer⟩ :=
    edge_removed apart (sound.simple v) present (unlooped parent)
  obtain ⟨other, isParent, listed⟩ := List.any_eq_true.mp redundant
  -- The vertex is reached around the edge, by the parent that has `parent` for an ancestor.
  have path := (sound.reach _ _).mpr (sound.ancestors other parent ((vert_in_list _ _).mp listed))
  have cycleless : Acyclic (EdgeOf g.vertices) := fun a cycle => acyclic a ((sound.reach a a).mp cycle)
  have same : EdgeOf vertices = Without (EdgeOf g.vertices) parent v := by
    funext a b
    exact propext (children a b)
  refine ⟨vertices, removed, ?_, fun a => ?_⟩
  · constructor
    case mirrored =>
      intro a b
      rw [children, parents, sound.mirrored]
    case simple => exact fun b => (sound.simple b).sublist (fewer b)
    case edges => exact fun a b edge => sound.edges a b ((children a b).mp edge).1
    case reach =>
      intro a b
      have bypassed := reach_without cycleless path ((sound.mirrored other v).mpr isParent) a b
      rw [← same] at bypassed
      exact bypassed.trans (sound.reach a b)
    case ancestors => exact sound.ancestors
  · rw [parents]
    simp

theorem drop_edges_sound (acyclic : Acyclic (EdgeOf before)) {todo : List Nat} (once : todo.Nodup)
    (sound : Sound before g) (present : ∀ parent ∈ todo, parent ∈ (g.vertices v).parents) :
    ∃ g', dropEdges v todo g = .ok g' ∧ Sound before g' := by
  induction todo generalizing g with
  | nil => exact ⟨g, rfl, sound⟩
  | cons parent rest ih =>
      obtain ⟨fresh, once⟩ := List.nodup_cons.mp once
      have others : ∀ p ∈ rest, p ∈ (g.vertices v).parents := fun p member =>
        present p (List.mem_cons_of_mem parent member)
      rw [dropEdges]
      split
      · next redundant =>
          obtain ⟨vertices, removed, sound', parents⟩ :=
            drop_edge_sound acyclic sound (present parent List.mem_cons_self) redundant
          rw [removed]
          refine ih once sound' fun p member => (parents p).mpr ⟨others p member, ?_⟩
          exact fun same => fresh (same ▸ member)
      · exact ih once sound others

theorem gather_sound {parent : Nat} (sound : Sound before g)
    (present : parent ∈ (g.vertices v).parents) : Sound before (gatherAncestors v g parent) := by
  have edge : TransGen (EdgeOf before) parent v :=
    .single (sound.edges parent v ((sound.mirrored parent v).mpr present))
  let counted := Function.update g.marks parent
    { g.marks parent with mineqChildVisits := (g.marks parent).mineqChildVisits + 1 }
  have countedAncestors : ∀ u, (counted u).ancestors = (g.marks u).ancestors := by
    intro u
    by_cases here : u = parent
    · subst here
      simp [counted]
    · simp [counted, here]
  let gathered := Function.update counted v
    { counted v with
      ancestors := parent :: guMergeLists (counted v).ancestors (counted parent).ancestors }
  have gatheredAncestors : ∀ u, ∀ w ∈ (gathered u).ancestors, TransGen (EdgeOf before) w u := by
    intro u w member
    by_cases here : u = v
    · subst here
      simp only [gathered, Function.update_self, countedAncestors, List.mem_cons] at member
      rcases member with rfl | merged
      · exact edge
      · exact (merge_subset merged).elim (sound.ancestors u w) fun above =>
          (sound.ancestors parent w above).trans edge
    · simp only [gathered, Function.update_of_ne here, countedAncestors] at member
      exact sound.ancestors u w member
  -- Ancestors that are given up leave less to show.
  refine ⟨sound.mirrored, sound.simple, sound.edges, sound.reach, fun u w member => ?_⟩
  change w ∈ ((if (g.marks parent).mineqChildVisits = (gathered parent).numChildren then
    Function.update gathered parent { gathered parent with ancestors := [] } else gathered) u).ancestors
    at member
  split at member
  · by_cases here : u = parent
    · subst here
      simp at member
    · rw [Function.update_of_ne here] at member
      exact gatheredAncestors u w member
  · exact gatheredAncestors u w member

theorem gather_all_sound {todo : List Nat} (sound : Sound before g)
    (present : ∀ parent ∈ todo, parent ∈ (g.vertices v).parents) :
    Sound before (todo.foldl (gatherAncestors v) g) := by
  induction todo generalizing g with
  | nil => exact sound
  | cons parent rest ih =>
      exact ih (gather_sound sound (present parent List.mem_cons_self)) fun p member =>
        present p (List.mem_cons_of_mem parent member)

theorem vertex_sound (acyclic : Acyclic (EdgeOf before)) (sound : Sound before g) (v : Nat) :
    ∃ g', tfminTfvertex g v = .ok g' ∧ Sound before g' := by
  obtain ⟨dropped, done, sound'⟩ :=
    drop_edges_sound acyclic (sound.simple v) sound fun _ member => member
  refine ⟨_, ?_, gather_all_sound (v := v) sound' fun _ member => member⟩
  rw [tfminTfvertex, done]
  rfl

theorem vertices_sound (acyclic : Acyclic (EdgeOf before)) (sound : Sound before g)
    (topoList : List Nat) : ∃ g', tfminFrom topoList g = .ok g' ∧ Sound before g' := by
  induction topoList generalizing g with
  | nil => exact ⟨g, rfl, sound⟩
  | cons v rest ih =>
      obtain ⟨next, done, sound'⟩ := vertex_sound acyclic sound v
      obtain ⟨g', rest_done, sound''⟩ := ih sound'
      exact ⟨g', by rw [tfminFrom, done]; exact rest_done, sound''⟩

/-- Whatever list of vertices it is given, the reduction leaves reachability as it is. -/
theorem reduction_keeps_reach (g : TfDag) (acyclic : Acyclic (Edge g))
    (mirrored : ∀ a b, b ∈ (g.vertices a).children ↔ a ∈ (g.vertices b).parents)
    (simple : ∀ b, (g.vertices b).parents.Nodup) :
    ∃ after, reduceTFGraph g = .ok after ∧
      (∀ a b, EdgeOf after.vertices a b → Edge g a b) ∧
        ∀ a b, TransGen (EdgeOf after.vertices) a b ↔ TransGen (Edge g) a b := by
  have start : Sound g.vertices ⟨g.vertices, fun _ => {}⟩ :=
    ⟨mirrored, simple, fun _ _ edge => edge, fun _ _ => Iff.rfl, fun _ _ none => nomatch none⟩
  rw [reduceTFGraph]
  cases g.info with
  | none => exact ⟨_, rfl, start.edges, start.reach⟩
  | some info =>
      obtain ⟨after, done, sound⟩ := vertices_sound acyclic start info.topoList
      exact ⟨after, done, sound.edges, sound.reach⟩

end Reachability

section Reduction

/-- The topological sort of a graph made by the package never returns. -/
theorem built_unreduced (clear : Bool) {g : TfDag} (unallocated : g.info = none)
    (inside : ∀ a b, b ∈ (g.vertices a).children → b ∈ g.defs) : ¬ Reduces clear g := by
  rintro ⟨bound, returns⟩
  obtain ⟨after, done, _⟩ := returns (bound + g.defs.length + 1) (by omega)
  have faults := topo_sort_faults clear unallocated inside (by omega :
    g.defs.length < bound + g.defs.length + 1)
  rw [minimumGraph, faults] at done
  cases done

/-- A graph made by the package, with some root. -/
def rooted (ops : List Op) (root : Option Nat) : TfDag := { build ops with root := root }

/-- No graph made by the package is reduced, whichever root is chosen; and lists are merged to
their union only under a condition. -/
theorem never_reduced (clear : Bool) (ops : List Op) (root : Option Nat) (nla nlb : List Nat) :
    ¬ Reduces clear (rooted ops root) ∧
      (IsUnion (guMergeLists nla nlb) nla nlb ↔
        (∀ head ∈ nla.head?, head ∉ nlb) ∨ ∀ v ∈ nla, v ∈ nlb) := by
  refine ⟨?_, merge_union_iff nla nlb⟩
  have built := build_built ops
  exact built_unreduced clear built.info fun a b edge => (built.inside a b edge).2

theorem one_edge_simple (b : Nat) : (oneEdge.vertices b).parents.Nodup := by
  by_cases child : b = 1
  · rw [child]
    decide
  · have orphan : (oneEdge.vertices b).parents = [] := by
      rw [List.eq_nil_iff_forall_not_mem]
      intro a parent
      exact child ((one_edge_children a b).mp (((build_built _).mirrored a b).mpr parent)).2
    rw [orphan]
    exact List.nodup_nil

theorem reduction_keeps_reach_one_edge :
    ∃ after, reduceTFGraph { oneEdge with info := some ⟨[0, 1]⟩ } = .ok after ∧
      ∀ a b, TransGen (EdgeOf after.vertices) a b ↔ TransGen (Edge oneEdge) a b := by
  have built : Built oneEdge := build_built _
  obtain ⟨after, done, -, reach⟩ := reduction_keeps_reach
    { oneEdge with info := some ⟨[0, 1]⟩ } one_edge_acyclic built.mirrored one_edge_simple
  exact ⟨after, done, reach⟩

/-- A root and its child, and two lists of which the second has the head of the first only. -/
theorem one_edge_unreduced :
    Admissible oneEdge ∧ (∀ b, (oneEdge.vertices b).parents.Nodup) ∧
      (∀ clear, ¬ Reduces clear { oneEdge with root := some 0 }) ∧
        ¬ IsUnion (guMergeLists [0, 1] [0]) [0, 1] [0] := by
  refine ⟨⟨one_edge_acyclic, 0, by decide, by decide⟩, one_edge_simple, fun clear => ?_, fun union => ?_⟩
  · have built : Built oneEdge := build_built _
    exact built_unreduced clear built.info fun a b edge => (built.inside a b edge).2
  · exact absurd ((union 1).mpr (Or.inl (by decide))) (by decide)

/-- With a compinfo, the edge from 0 to 3 beside the path through 1 would stay: the ancestors of 1
have been given up with its first child. -/
example :
    (reduceTFGraph
      { build [.addVertex, .addVertex, .addVertex, .addVertex, .addEdge 0 1, .addEdge 1 2,
          .addEdge 1 3, .addEdge 0 3] with info := some ⟨[0, 1, 2, 3]⟩ }).map
      (fun after => (after.vertices 0).children) = .ok [1, 3] := rfl

end Reduction

end Sac2c.MinimumGraph
