import Mathlib.Data.List.Lex
import Sac2c.Cubes

/-!
The sort order of with-loop nodes, CompareWlNode of wltransform/wltransform.c, and the
chains that WLTRAinsertWlNodes sorts with it. Of the grids only those of the first
dimension count: a result of -1 or 1 for the later dimensions is overwritten. Nodes
that differ in a later grid are taken for equal, and one of them is freed.
-/

namespace Sac2c.NodeOrder

open Cubes

variable {Code : Type}

section Likeness

variable {Node Key : Type} {key : Node → Key}

/-- Nodes that may stand for each other, which have one key. -/
structure Alike (key : Node → Key) (Same : Node → Node → Prop) : Prop where
  equivalence : Equivalence Same
  key_eq : ∀ a b, Same a b → key a = key b

/-- Each node of one chain is alike to one of the other chain. -/
def Covered (Same : Node → Node → Prop) (nodes nodes' : List Node) : Prop :=
  ∀ node ∈ nodes, ∃ other ∈ nodes', Same node other

/-- Each node to insert is alike to one before it, if there is one with its key. -/
def Clear (key : Node → Key) (Same : Node → Node → Prop) (nodes insertNodes : List Node) : Prop :=
  ∀ before node behind, insertNodes = before ++ node :: behind →
    (∃ other ∈ nodes ++ before, key other = key node) →
      ∃ other ∈ nodes ++ before, Same node other

variable {Same : Node → Node → Prop} {nodes nodes' : List Node}

theorem covered_of_subset (alike : Alike key Same) (subset : nodes ⊆ nodes') :
    Covered Same nodes nodes' :=
  fun node member => ⟨node, subset member, alike.equivalence.refl node⟩

theorem covered_append (alike : Alike key Same) (covered : Covered Same nodes nodes')
    (more : List Node) : Covered Same (nodes ++ more) (nodes' ++ more) := by
  intro node member
  rcases List.mem_append.mp member with here | later
  · obtain ⟨other, there, same⟩ := covered node here
    exact ⟨other, List.mem_append_left _ there, same⟩
  · exact ⟨node, List.mem_append_right _ later, alike.equivalence.refl node⟩

theorem clear_cons (nodes : List Node) (node : Node) (rest : List Node) :
    Clear key Same nodes (node :: rest) ↔
      ((∃ other ∈ nodes, key other = key node) → ∃ other ∈ nodes, Same node other) ∧
        Clear key Same (nodes ++ [node]) rest := by
  constructor
  · intro clear
    refine ⟨by simpa using clear [] node rest rfl, fun before other behind split => ?_⟩
    have later := clear (node :: before) other behind (by rw [split]; rfl)
    simpa using later
  · rintro ⟨here, later⟩ before other behind split
    cases before with
    | nil =>
        cases split
        simpa using here
    | cons first before =>
        cases split
        simpa using later before other behind rfl

/-- Only what nodes are alike to counts. -/
theorem clear_congr (alike : Alike key Same) (covered : Covered Same nodes nodes')
    (covered' : Covered Same nodes' nodes) {insertNodes : List Node}
    (clear : Clear key Same nodes insertNodes) : Clear key Same nodes' insertNodes := by
  intro before node behind split known
  obtain ⟨other, member, same⟩ := known
  obtain ⟨there, known, alike_other⟩ := covered_append alike covered' before other member
  obtain ⟨found, member', found_same⟩ := clear before node behind split
    ⟨there, known, (alike.key_eq _ _ alike_other).symm.trans same⟩
  obtain ⟨here, known', alike_found⟩ := covered_append alike covered before found member'
  exact ⟨here, known', alike.equivalence.trans found_same alike_found⟩

end Likeness

section Chains

variable {Node Key : Type} [LinearOrder Key] {compare : Node → Node → Int} {key : Node → Key}

/-- The comparison is that of keys in a linear order. -/
structure Ranks (compare : Node → Node → Int) (key : Node → Key) : Prop where
  antisymm : ∀ a b, compare a b = -compare b a
  less : ∀ a b, compare a b < 0 ↔ key a < key b

theorem ranks_zero (ranks : Ranks compare key) (a b : Node) :
    compare a b = 0 ↔ key a = key b := by
  have left := ranks.less a b
  have right := ranks.less b a
  have back := ranks.antisymm a b
  constructor
  · intro zero
    exact le_antisymm (not_lt.mp fun less => by have := right.mpr less; omega)
      (not_lt.mp fun less => by have := left.mpr less; omega)
  · intro same
    rw [same] at left right
    have := mt left.mp (lt_irrefl _)
    have := mt right.mp (lt_irrefl _)
    omega

theorem ranks_le (ranks : Ranks compare key) (a b : Node) :
    compare a b ≤ 0 ↔ key a ≤ key b := by
  have less := ranks.less a b
  have zero := ranks_zero ranks a b
  constructor
  · intro small
    rcases lt_or_eq_of_le small with before | same
    · exact (less.mp before).le
    · exact (zero.mp same).le
  · intro small
    rcases lt_or_eq_of_le small with before | same
    · exact (less.mpr before).le
    · exact (zero.mpr same).le

def Sorted (key : Node → Key) (nodes : List Node) : Prop :=
  nodes.Pairwise fun a b => key a ≤ key b

/-- In a sorted chain a node with this key is found. -/
theorem insert_known (ranks : Ranks compare key) (node : Node) {nodes : List Node}
    (sorted : Sorted key nodes) (known : ∃ other ∈ nodes, key other = key node) :
    insertWlNode compare node nodes = nodes := by
  induction nodes with
  | nil => simp at known
  | cons first rest ih =>
      obtain ⟨before, sorted⟩ := List.pairwise_cons.mp sorted
      obtain ⟨other, member, same⟩ := known
      have le : key first ≤ key node := by
        rcases List.mem_cons.mp member with rfl | later
        · exact same.le
        · exact (before other later).trans same.le
      have not_before : ¬ compare node first < 0 := fun less =>
        absurd ((ranks.less _ _).mp less) (not_lt.mpr le)
      rw [insertWlNode, if_neg not_before]
      split
      · rfl
      · rename_i different
        rcases List.mem_cons.mp member with rfl | later
        · exact absurd ((ranks_zero ranks _ _).mpr same.symm) different
        · rw [ih sorted ⟨other, later, same⟩]

/-- A new key is inserted in its place. -/
theorem insert_sorted (ranks : Ranks compare key) (node : Node) {nodes : List Node}
    (sorted : Sorted key nodes) : Sorted key (insertWlNode compare node nodes) := by
  induction nodes with
  | nil => exact List.pairwise_singleton _ _
  | cons first rest ih =>
      obtain ⟨before, rest_sorted⟩ := List.pairwise_cons.mp sorted
      rw [insertWlNode]
      split
      · rename_i less
        have smaller := (ranks.less _ _).mp less
        refine List.pairwise_cons.mpr ⟨fun other member => ?_, sorted⟩
        rcases List.mem_cons.mp member with rfl | later
        · exact smaller.le
        · exact smaller.le.trans (before other later)
      · rename_i not_before
        split
        · exact sorted
        · refine List.pairwise_cons.mpr ⟨fun other member => ?_, ih rest_sorted⟩
          rcases mem_of_mem_insert compare node rest other member with rfl | later
          · exact not_lt.mp fun less => not_before ((ranks.less _ _).mpr less)
          · exact before other later

theorem inserts_sorted (ranks : Ranks compare key) (insertNodes : List Node)
    {nodes : List Node} (sorted : Sorted key nodes) :
    Sorted key (insertWlNodes compare nodes insertNodes) := by
  induction insertNodes generalizing nodes with
  | nil => exact sorted
  | cons node rest ih => exact ih (insert_sorted ranks node sorted)

theorem mem_inserts {nodes : List Node} (insertNodes : List Node) {node : Node}
    (member : node ∈ nodes) : node ∈ insertWlNodes compare nodes insertNodes := by
  induction insertNodes generalizing nodes with
  | nil => exact member
  | cons first rest ih => exact ih (mem_insert compare first nodes node member)

/-- What comes into the chain later has a key of its own. -/
theorem inserts_fresh (ranks : Ranks compare key) (insertNodes : List Node) {nodes : List Node}
    (sorted : Sorted key nodes) {node other : Node} (member : other ∈ nodes)
    (found : node ∈ insertWlNodes compare nodes insertNodes) (same : key other = key node) :
    node ∈ nodes := by
  induction insertNodes generalizing nodes with
  | nil => exact found
  | cons first rest ih =>
      have sooner := ih (insert_sorted ranks first sorted)
        (mem_insert compare first nodes other member) found
      rcases mem_of_mem_insert compare first nodes node sooner with rfl | before
      · rwa [insert_known ranks node sorted ⟨other, member, same⟩] at sooner
      · exact before

variable {Same : Node → Node → Prop} {nodes : List Node}

/-- A node that is freed is in the chain already if one that it is alike to is there. -/
theorem known_covered_iff (ranks : Ranks compare key) (alike : Alike key Same)
    (sorted : Sorted key nodes) {node : Node} (known : ∃ other ∈ nodes, key other = key node)
    (rest : List Node) :
    (∃ other ∈ insertWlNodes compare nodes rest, Same node other) ↔
      ∃ other ∈ nodes, Same node other := by
  constructor
  · rintro ⟨other, found, same⟩
    obtain ⟨first, member, equal⟩ := known
    exact ⟨other, inserts_fresh ranks rest sorted member found
      (equal.trans (alike.key_eq _ _ same)), same⟩
  · rintro ⟨other, member, same⟩
    exact ⟨other, mem_inserts rest member, same⟩

/-- No node is lost exactly if each node that is freed is alike to one in the chain. -/
theorem inserts_covered_iff (ranks : Ranks compare key) (alike : Alike key Same)
    (sorted : Sorted key nodes) (insertNodes : List Node) :
    Covered Same insertNodes (insertWlNodes compare nodes insertNodes) ↔
      Clear key Same nodes insertNodes := by
  induction insertNodes generalizing nodes with
  | nil =>
      refine ⟨fun _ before node behind split => ?_, fun _ _ member => by cases member⟩
      simp at split
  | cons node rest ih =>
      have next := ih (insert_sorted ranks node sorted)
      have result : insertWlNodes compare nodes (node :: rest) =
          insertWlNodes compare (insertWlNode compare node nodes) rest := rfl
      rw [Covered, List.forall_mem_cons, clear_cons, result]
      by_cases known : ∃ other ∈ nodes, key other = key node
      · -- the node is freed
        rw [insert_known ranks node sorted known] at next ⊢
        rw [known_covered_iff ranks alike sorted known]
        have cover := covered_of_subset alike (List.subset_append_left nodes [node])
        have cover' (found : ∃ other ∈ nodes, Same node other) :
            Covered Same (nodes ++ [node]) nodes := by
          intro other member
          rcases List.mem_append.mp member with old | new
          · exact ⟨other, old, alike.equivalence.refl other⟩
          · cases List.mem_singleton.mp new
            exact found
        constructor
        · rintro ⟨found, later⟩
          exact ⟨fun _ => found, clear_congr alike cover (cover' found) (next.mp later)⟩
        · rintro ⟨found, clear⟩
          exact ⟨found known, next.mpr (clear_congr alike (cover' (found known)) cover clear)⟩
      · -- the node is new
        have fresh : ∀ other ∈ nodes, compare node other ≠ 0 := fun other member zero =>
          known ⟨other, member, ((ranks_zero ranks _ _).mp zero).symm⟩
        have members (other : Node) :
            other ∈ insertWlNode compare node nodes ↔ other ∈ nodes ++ [node] := by
          rw [(insert_perm compare node nodes fresh).mem_iff, List.mem_cons, List.mem_append,
            List.mem_singleton, or_comm]
        have cover := covered_of_subset alike fun other member => (members other).mp member
        have cover' := covered_of_subset alike fun other member => (members other).mpr member
        have inserted : node ∈ insertWlNodes compare (insertWlNode compare node nodes) rest :=
          mem_inserts rest ((members node).mpr (by simp))
        constructor
        · rintro ⟨_, later⟩
          exact ⟨fun found => absurd found known, clear_congr alike cover cover' (next.mp later)⟩
        · rintro ⟨_, clear⟩
          exact ⟨⟨node, inserted, alike.equivalence.refl node⟩,
            next.mpr (clear_congr alike cover' cover clear)⟩

end Chains

section Keys

/-- The comparison of lists of attribute values, one after the other. -/
def compAll (inc : Int) : List Int → List Int → Int → Int
  | a :: as, b :: bs, result => comp a b inc (compAll inc as bs result)
  | _, _, result => result

variable {as bs : List Int} {inc result : Int}

theorem comp_neg (a b inc result : Int) : comp a b inc result = -comp b a inc (-result) := by
  unfold comp
  split_ifs <;> omega

theorem comp_all_neg (as bs : List Int) (inc result : Int) :
    compAll inc as bs result = -compAll inc bs as (-result) := by
  induction as generalizing bs with
  | nil => cases bs <;> simp [compAll]
  | cons a as ih =>
      cases bs with
      | nil => simp [compAll]
      | cons b bs => rw [compAll, compAll, comp_neg, ih, Int.neg_neg]

/-- The comparison is lexicographic. -/
theorem comp_all_less (same : as.length = bs.length) (positive : 0 < inc) :
    compAll inc as bs result < 0 ↔ as < bs ∨ as = bs ∧ result < 0 := by
  induction as generalizing bs with
  | nil =>
      cases List.length_eq_zero_iff.mp same.symm
      simp [compAll]
  | cons a as ih =>
      cases bs with
      | nil => simp at same
      | cons b bs =>
          have lengths : as.length = bs.length := by simpa using same
          have later := ih lengths
          rw [compAll, List.cons_lt_cons_iff, List.cons.injEq]
          unfold comp
          split_ifs with above below
          · omega
          · omega
          · have equal : a = b := by omega
            rw [later]
            simp [equal]

theorem comp_all_same (as : List Int) (inc result : Int) : compAll inc as as result = result := by
  induction as with
  | nil => rfl
  | cons a as ih => simp [compAll, comp, ih]

/-- A difference that is found hides the rest, and the size of the result tells it. -/
theorem comp_all_differ (inc result result' : Int) (same : as.length = bs.length)
    (differ : as ≠ bs) :
    compAll inc as bs result = compAll inc as bs result' ∧
      (compAll inc as bs result).natAbs = inc.natAbs := by
  induction as generalizing bs with
  | nil => exact absurd (List.length_eq_zero_iff.mp same.symm).symm differ
  | cons a as ih =>
      cases bs with
      | nil => simp at same
      | cons b bs =>
          rw [compAll, compAll]
          unfold comp
          split_ifs with above below
          · exact ⟨rfl, rfl⟩
          · exact ⟨rfl, Int.natAbs_neg inc⟩
          · have equal : a = b := by omega
            exact ih (by simpa using same) fun rest => differ (by rw [equal, rest])

/-- The bounds of all dimensions. -/
def outlineKey : (n : Nat) → Cube Code n → List Int
  | 0, _ => []
  | n + 1, (stride : Stride (Cube Code n)) =>
      stride.bound1 :: stride.bound2 :: outlineKey n stride.first.inner

/-- The first grid of the first dimension. -/
def gridKey : (n : Nat) → Cube Code n → List Int
  | 0, _ => []
  | _ + 1, (stride : Stride _) => [stride.first.bound1, stride.first.bound2]

theorem outline_key_length (n : Nat) (cube : Cube Code n) : (outlineKey n cube).length = 2 * n := by
  induction n with
  | zero => rfl
  | succ n ih =>
      simp only [outlineKey, List.length_cons, ih]
      omega

theorem grid_key_length (n : Nat) (cube cube' : Cube Code n) :
    (gridKey n cube).length = (gridKey n cube').length := by
  cases n <;> rfl

/-- The bounds of all dimensions come first, and then the grid of the first dimension. -/
theorem compare_strides_keys (n : Nat) (cube1 cube2 : Cube Code n) :
    compareStrides false n cube1 cube2 =
      compAll 2 (outlineKey n cube1) (outlineKey n cube2)
        (compAll 1 (gridKey n cube1) (gridKey n cube2) 0) := by
  induction n with
  | zero => rfl
  | succ n ih =>
      simp only [compareStrides, outlineKey, compAll, ih, Bool.not_false, Bool.true_and,
        decide_eq_true_eq]
      have same_length : (outlineKey n cube1.first.inner).length =
          (outlineKey n cube2.first.inner).length := by
        rw [outline_key_length, outline_key_length]
      -- the grids of the later dimensions give a result of size 1 at most
      have small : (compAll 1 (gridKey n cube1.first.inner) (gridKey n cube2.first.inner)
          0).natAbs ≠ 2 := by
        by_cases same : gridKey n cube1.first.inner = gridKey n cube2.first.inner
        · rw [same, comp_all_same]
          decide
        · rw [(comp_all_differ 1 0 0 (grid_key_length n _ _) same).2]
          decide
      congr 2
      by_cases same : outlineKey n cube1.first.inner = outlineKey n cube2.first.inner
      · rw [same, comp_all_same, comp_all_same, if_pos small]
        rfl
      · have differ (result result' : Int) := comp_all_differ 2 result result' same_length same
        rw [if_neg (by rw [(differ _ 0).2]; decide)]
        exact (differ _ _).1

/-- The attribute values that the order of strides depends on. -/
def strideKey (n : Nat) (cube : Cube Code n) : List Int := outlineKey n cube ++ gridKey n cube

theorem append_less {front front' back back' : List Int} (same : front.length = front'.length) :
    front ++ back < front' ++ back' ↔ front < front' ∨ front = front' ∧ back < back' := by
  induction front generalizing front' with
  | nil =>
      cases List.length_eq_zero_iff.mp same.symm
      simp
  | cons a front ih =>
      cases front' with
      | nil => simp at same
      | cons b front' =>
          have lengths : front.length = front'.length := by simpa using same
          have later := ih lengths
          simp only [List.cons_append, List.cons_lt_cons_iff, List.cons.injEq, later]
          tauto

theorem ranks_strides (n : Nat) :
    Ranks (@compareStrides Code false n) (strideKey n) := by
  refine ⟨fun a b => ?_, fun a b => ?_⟩
  · rw [compare_strides_keys, compare_strides_keys, comp_all_neg, comp_all_neg _ _ 1]
    simp
  · have lengths : (outlineKey n a).length = (outlineKey n b).length := by
      rw [outline_key_length, outline_key_length]
    rw [compare_strides_keys, comp_all_less lengths (by decide),
      comp_all_less (grid_key_length n a b) (by decide), strideKey, strideKey,
      append_less lengths]
    simp

/-- For grids their own bounds come first. -/
def wlGridKey (n : Nat) (grid : Grid (Cube Code n)) : List Int :=
  [grid.bound1, grid.bound2] ++ strideKey n grid.inner

theorem ranks_grids (n : Nat) :
    Ranks (@compareGrids Code false n) (wlGridKey n) := by
  have strides := @ranks_strides Code n
  refine ⟨fun a b => ?_, fun a b => ?_⟩
  · rw [compareGrids, compareGrids, comp_neg, comp_neg a.bound2, strides.antisymm a.inner,
      Int.neg_neg, Int.neg_neg]
  · have parts : compareGrids false n a b = compAll 2 [a.bound1, a.bound2] [b.bound1, b.bound2]
        (compareStrides false n a.inner b.inner) := rfl
    have lengths : [a.bound1, a.bound2].length = [b.bound1, b.bound2].length := rfl
    rw [parts, comp_all_less lengths (by decide), strides.less, wlGridKey, wlGridKey,
      append_less lengths]

end Keys

section Sameness

/-- The bounds and all grids are equal in every dimension. -/
def SameCube : (n : Nat) → Cube Code n → Cube Code n → Prop
  | 0, _, _ => True
  | n + 1, (stride1 : Stride (Cube Code n)), (stride2 : Stride (Cube Code n)) =>
      stride1.bound1 = stride2.bound1 ∧ stride1.bound2 = stride2.bound2 ∧
        List.Forall₂ (fun grid1 grid2 => grid1.bound1 = grid2.bound1 ∧
          grid1.bound2 = grid2.bound2 ∧ SameCube n grid1.inner grid2.inner)
          stride1.contents stride2.contents

def SameGrid (n : Nat) (grid1 grid2 : Grid (Cube Code n)) : Prop :=
  grid1.bound1 = grid2.bound1 ∧ grid1.bound2 = grid2.bound2 ∧
    SameCube n grid1.inner grid2.inner

theorem forall₂_equivalence {α : Type} {R : α → α → Prop} (equivalence : Equivalence R) :
    Equivalence (List.Forall₂ R) := by
  refine ⟨fun xs => ?_, fun {xs ys} related => ?_, fun {xs ys zs} first second => ?_⟩
  · induction xs with
    | nil => exact .nil
    | cons x xs ih => exact .cons (equivalence.refl x) ih
  · induction related with
    | nil => exact .nil
    | cons head _ ih => exact .cons (equivalence.symm head) ih
  · induction first generalizing zs with
    | nil => exact second
    | cons head _ ih =>
        cases second with
        | cons next rest => exact .cons (equivalence.trans head next) (ih rest)

theorem forall₂_head {α : Type} {R : α → α → Prop} {xs ys : List α} (related : List.Forall₂ R xs ys)
    (some : xs ≠ []) (some' : ys ≠ []) : R (xs.head some) (ys.head some') := by
  cases related with
  | nil => exact absurd rfl some
  | cons head _ => exact head

theorem same_grid_equivalence {n : Nat} (inner : Equivalence (@SameCube Code n)) :
    Equivalence (@SameGrid Code n) where
  refl := fun _ => ⟨rfl, rfl, inner.refl _⟩
  symm := fun ⟨b1, b2, rest⟩ => ⟨b1.symm, b2.symm, inner.symm rest⟩
  trans := fun ⟨b1, b2, rest⟩ ⟨c1, c2, rest'⟩ =>
    ⟨b1.trans c1, b2.trans c2, inner.trans rest rest'⟩

theorem same_cube_equivalence (n : Nat) : Equivalence (@SameCube Code n) := by
  induction n with
  | zero => exact ⟨fun _ => trivial, fun _ => trivial, fun _ _ => trivial⟩
  | succ n ih =>
      have grids := forall₂_equivalence (same_grid_equivalence ih)
      exact ⟨fun _ => ⟨rfl, rfl, grids.refl _⟩,
        fun ⟨b1, b2, rest⟩ => ⟨b1.symm, b2.symm, grids.symm rest⟩,
        fun ⟨b1, b2, rest⟩ ⟨c1, c2, rest'⟩ =>
          ⟨b1.trans c1, b2.trans c2, grids.trans rest rest'⟩⟩

theorem same_outline_key (n : Nat) (cube1 cube2 : Cube Code n) (same : SameCube n cube1 cube2) :
    outlineKey n cube1 = outlineKey n cube2 := by
  induction n with
  | zero => rfl
  | succ n ih =>
      obtain ⟨b1, b2, grids⟩ := same
      have first := forall₂_head grids (Stride.nonempty cube1) (Stride.nonempty cube2)
      have later := ih _ _ first.2.2
      simp only [outlineKey, Stride.first, b1, b2, later]

theorem same_grid_key (n : Nat) (cube1 cube2 : Cube Code n) (same : SameCube n cube1 cube2) :
    gridKey n cube1 = gridKey n cube2 := by
  cases n with
  | zero => rfl
  | succ n =>
      obtain ⟨_, _, grids⟩ := same
      have first := forall₂_head grids (Stride.nonempty cube1) (Stride.nonempty cube2)
      simp only [gridKey, Stride.first, first.1, first.2.1]

theorem alike_strides (n : Nat) : Alike (@strideKey Code n) (SameCube n) :=
  ⟨same_cube_equivalence n, fun a b same => by
    rw [strideKey, strideKey, same_outline_key n a b same, same_grid_key n a b same]⟩

theorem alike_grids (n : Nat) : Alike (@wlGridKey Code n) (SameGrid n) :=
  ⟨same_grid_equivalence (same_cube_equivalence n), fun a b same => by
    rw [wlGridKey, wlGridKey, same.1, same.2.1, (alike_strides n).key_eq _ _ same.2.2]⟩

end Sameness

section Sorting

variable {Node : Type}

/-- A chain that is sorted. -/
structure SortedChain (compare : Node → Node → Int) where
  nodes : List Node
  sorted : nodes.Pairwise fun a b => compare a b ≤ 0

/-- The order of the nodes and the insertion of nodes into a chain. -/
structure Sorting (compare : Node → Node → Int) (Same : Node → Node → Prop)
    (key : Node → List Int) : Prop where
  antisymm : ∀ a b, compare a b = -compare b a
  trans : ∀ a b c, compare a b ≤ 0 → compare b c ≤ 0 → compare a c ≤ 0
  zero_iff : ∀ a b, (compare a b = 0 → Same a b) ↔ ¬ (key a = key b ∧ ¬ Same a b)
  sorted : ∀ (chain : SortedChain compare) (insertNodes : List Node),
    (insertWlNodes compare chain.nodes insertNodes).Pairwise fun a b => compare a b ≤ 0
  kept : ∀ (chain : SortedChain compare) (insertNodes : List Node),
    chain.nodes ⊆ insertWlNodes compare chain.nodes insertNodes
  covered_iff : ∀ (chain : SortedChain compare) (insertNodes : List Node),
    Covered Same insertNodes (insertWlNodes compare chain.nodes insertNodes) ↔
      Clear key Same chain.nodes insertNodes

theorem sorting {compare : Node → Node → Int} {key : Node → List Int} {Same : Node → Node → Prop}
    (ranks : Ranks compare key) (alike : Alike key Same) : Sorting compare Same key := by
  have chain_sorted (chain : SortedChain compare) : Sorted key chain.nodes :=
    chain.sorted.imp fun small => (ranks_le ranks _ _).mp small
  refine ⟨ranks.antisymm, fun a b c first second => ?_, fun a b => ?_, fun chain insertNodes => ?_,
    fun chain insertNodes _ member => mem_inserts insertNodes member,
    fun chain insertNodes => inserts_covered_iff ranks alike (chain_sorted chain) insertNodes⟩
  · rw [ranks_le ranks] at first second ⊢
    exact first.trans second
  · rw [ranks_zero ranks]
    tauto
  · exact (inserts_sorted ranks insertNodes (chain_sorted chain)).imp fun le =>
      (ranks_le ranks _ _).mpr le

/-- The order is that of the outlines in all dimensions and of the first grid in the first
dimension, for strides and for grids. A node gets lost exactly if one that agrees with it in
these, but in no other way, is there before it. -/
theorem compare_wl_node (n : Nat) :
    Sorting (@compareStrides Code false (n + 1)) (SameCube (n + 1)) (strideKey (n + 1)) ∧
      Sorting (@compareGrids Code false n) (SameGrid n) (wlGridKey n) :=
  ⟨sorting (ranks_strides _) (alike_strides _), sorting (ranks_grids n) (alike_grids n)⟩

/-- A stride of two dimensions with every second column. -/
def everySecond (phase : Int) (code : Nat) : Cube Nat 2 :=
  let columns : Stride (Option Nat) :=
    { bound1 := 0
      bound2 := 4
      step := 2
      contents := [⟨phase, phase + 1, some code⟩]
      nonempty := by simp }
  let rows : Stride (Stride (Option Nat)) :=
    { bound1 := 0
      bound2 := 4
      step := 1
      contents := [⟨0, 1, columns⟩]
      nonempty := by simp }
  rows

/-- The odd columns are freed as they are taken for the even ones. -/
theorem inserts_lost :
    ¬ ∀ (chain : SortedChain (compareStrides false 2 : Cube Nat 2 → Cube Nat 2 → Int))
      (insertNodes : List (Cube Nat 2)), Covered (SameCube 2) insertNodes
        (insertWlNodes (compareStrides false 2) chain.nodes insertNodes) := by
  intro all
  have lost := all ⟨[everySecond 0 7], List.pairwise_singleton _ _⟩ [everySecond 1 8]
  obtain ⟨other, member, same⟩ := lost _ (List.mem_singleton.mpr rfl)
  have result : insertWlNodes (compareStrides false 2) [everySecond 0 7] [everySecond 1 8] =
      [everySecond 0 7] := rfl
  rw [result, List.mem_singleton] at member
  subst member
  have columns := (forall₂_head same.2.2 (List.cons_ne_nil _ _) (List.cons_ne_nil _ _)).2.2
  have grids := forall₂_head columns.2.2 (List.cons_ne_nil _ _) (List.cons_ne_nil _ _)
  exact absurd grids.1 (by decide)

end Sorting

end Sac2c.NodeOrder
