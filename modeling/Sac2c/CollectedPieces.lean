import Mathlib.Data.List.Pairwise
import Mathlib.Logic.Function.Basic
import Mathlib.Tactic.Common

/-!
Items that are collected source by source, each with some points of its own. The items are apart
and have just the points of the sources so far.
-/

namespace Sac2c.CollectedPieces

variable {Point Item Source : Type}

/-- No point is in two of the items. -/
def Apart (mem : Item → Point → Prop) (items : List Item) : Prop :=
  items.Pairwise fun item other => ∀ x, mem item x → ¬ mem other x

section Apart

variable {mem : Item → Point → Prop} {items : List Item}

theorem Apart.perm {other : List Item} (apart : Apart mem items) (same : items.Perm other) :
    Apart mem other :=
  (same.pairwise_iff fun differ x inside inside' => differ x inside' inside).mp apart

theorem Apart.index_unique (apart : Apart mem items) {x : Point}
    (inside : ∃ item ∈ items, mem item x) : ∃! i : Fin items.length, mem (items.get i) x := by
  obtain ⟨item, member, inside⟩ := inside
  obtain ⟨i, rfl⟩ := List.get_of_mem member
  refine ⟨i, inside, fun j inside' => ?_⟩
  rcases Nat.lt_trichotomy i j with before | same | behind
  · exact absurd inside' (List.pairwise_iff_get.mp apart i j before x inside)
  · exact Fin.ext same.symm
  · exact absurd inside (List.pairwise_iff_get.mp apart j i behind x inside')

theorem Apart.only_one (apart : Apart mem items) {item other : Item} (member : item ∈ items)
    (member' : other ∈ items) {x : Point} (inside : mem item x) (inside' : mem other x) :
    item = other := by
  obtain ⟨i, -, unique⟩ := apart.index_unique ⟨item, member, inside⟩
  obtain ⟨j, rfl⟩ := List.get_of_mem member
  obtain ⟨k, rfl⟩ := List.get_of_mem member'
  rw [unique j inside, unique k inside']

end Apart

section Collect

/-- The items of the sources so far; `came` is what else is known of an item of a source. -/
structure Collected (mem : Item → Point → Prop) (points : Source → Point → Prop)
    (came : Source → Item → Prop) (done : List Source) (items : List Item) : Prop where
  apart : Apart mem items
  covered : ∀ source ∈ done, ∀ x, points source x → ∃ item ∈ items, mem item x
  origin : ∀ item ∈ items,
    ∃ source ∈ done, came source item ∧ ∀ x, mem item x → points source x

variable {mem : Item → Point → Prop} {points : Source → Point → Prop}
  {came came' : Source → Item → Prop} {done more : List Source} {items items' : List Item}

theorem Collected.nothing : Collected mem points came [] [] :=
  ⟨.nil, by simp, by simp⟩

theorem Collected.empty {source : Source} (empty : ∀ x, ¬ points source x) :
    Collected mem points came [source] [] := by
  refine ⟨.nil, fun other member x inside => ?_, by simp⟩
  exact absurd (List.mem_singleton.mp member ▸ inside) (empty x)

theorem Collected.single {source : Source} {item : Item} (known : came source item)
    (same : ∀ x, mem item x ↔ points source x) : Collected mem points came [source] [item] := by
  refine ⟨List.pairwise_singleton _ _, fun other member x inside => ?_, fun other member => ?_⟩
  · exact ⟨item, List.mem_singleton_self item,
      (same x).mpr (List.mem_singleton.mp member ▸ inside)⟩
  · cases List.mem_singleton.mp member
    exact ⟨source, List.mem_singleton_self source, known, fun x => (same x).mp⟩

theorem Collected.exact (collected : Collected mem points came done items) (x : Point) :
    (∃ item ∈ items, mem item x) ↔ ∃ source ∈ done, points source x := by
  constructor
  · rintro ⟨item, member, inside⟩
    obtain ⟨source, earlier, -, points⟩ := collected.origin item member
    exact ⟨source, earlier, points x inside⟩
  · rintro ⟨source, earlier, inside⟩
    exact collected.covered source earlier x inside

theorem Collected.mono (collected : Collected mem points came done items)
    (weaker : ∀ source item, came source item → came' source item) :
    Collected mem points came' done items := by
  refine ⟨collected.apart, collected.covered, fun item member => ?_⟩
  obtain ⟨source, earlier, known, inside⟩ := collected.origin item member
  exact ⟨source, earlier, weaker source item known, inside⟩

theorem Collected.perm (collected : Collected mem points came done items)
    (same : items.Perm items') : Collected mem points came done items' := by
  refine ⟨collected.apart.perm same, fun source earlier x inside => ?_, fun item member => ?_⟩
  · obtain ⟨item, member, inside⟩ := collected.covered source earlier x inside
    exact ⟨item, same.mem_iff.mp member, inside⟩
  · exact collected.origin item (same.mem_iff.mpr member)

/-- Items that are made of other items with the same points. -/
theorem Collected.map {Item' : Type} {mem' : Item' → Point → Prop} {next : Source → Item' → Prop}
    (collected : Collected mem points came done items) (make : Item → Item')
    (same : ∀ item x, mem' (make item) x ↔ mem item x)
    (known : ∀ source ∈ done, ∀ item, came source item → next source (make item)) :
    Collected mem' points next done (items.map make) := by
  refine ⟨List.pairwise_map.mpr (collected.apart.imp fun apart x inside inside' => ?_),
    fun source earlier x inside => ?_, List.forall_mem_map.mpr fun item member => ?_⟩
  · exact apart x ((same _ x).mp inside) ((same _ x).mp inside')
  · obtain ⟨item, member, inside⟩ := collected.covered source earlier x inside
    exact ⟨make item, List.mem_map_of_mem member, (same item x).mpr inside⟩
  · obtain ⟨source, earlier, from_, inside⟩ := collected.origin item member
    exact ⟨source, earlier, known source earlier item from_,
      fun x here => inside x ((same item x).mp here)⟩

/-- The items of a source that has no points in common with those before. -/
theorem Collected.append (collected : Collected mem points came done items)
    (next : Collected mem points came more items')
    (apart : ∀ source ∈ done, ∀ other ∈ more, ∀ x, points source x → ¬ points other x) :
    Collected mem points came (done ++ more) (items ++ items') := by
  refine ⟨List.pairwise_append.mpr ⟨collected.apart, next.apart, ?_⟩, ?_, ?_⟩
  · intro item member other member' x inside inside'
    obtain ⟨source, earlier, -, points⟩ := collected.origin item member
    obtain ⟨source', later, -, points'⟩ := next.origin other member'
    exact apart source earlier source' later x (points x inside) (points' x inside')
  · refine List.forall_mem_append.mpr ⟨fun source earlier x inside => ?_,
      fun source later x inside => ?_⟩
    · obtain ⟨item, member, inside⟩ := collected.covered source earlier x inside
      exact ⟨item, List.mem_append_left _ member, inside⟩
    · obtain ⟨item, member, inside⟩ := next.covered source later x inside
      exact ⟨item, List.mem_append_right _ member, inside⟩
  · refine List.forall_mem_append.mpr ⟨fun item member => ?_, fun item member => ?_⟩
    · obtain ⟨source, earlier, known⟩ := collected.origin item member
      exact ⟨source, List.mem_append_left _ earlier, known⟩
    · obtain ⟨source, later, known⟩ := next.origin item member
      exact ⟨source, List.mem_append_right _ later, known⟩

end Collect

section Pairs

variable {Left Right : Type} {left : Left → Point → Prop} {right : Right → Point → Prop}

/-- What both of a pair have. -/
def Both (left : Left → Point → Prop) (right : Right → Point → Prop) (pair : Left × Right)
    (x : Point) : Prop :=
  left pair.1 x ∧ right pair.2 x

/-- All pairs, in the order of two nested loops. -/
def pairs (lefts : List Left) (rights : List Right) : List (Left × Right) :=
  lefts.flatMap fun l => rights.map fun r => (l, r)

theorem mem_pairs {lefts : List Left} {rights : List Right} {pair : Left × Right} :
    pair ∈ pairs lefts rights ↔ pair.1 ∈ lefts ∧ pair.2 ∈ rights := by
  simp only [pairs, List.mem_flatMap, List.mem_map]
  constructor
  · rintro ⟨l, inLefts, r, inRights, rfl⟩
    exact ⟨inLefts, inRights⟩
  · rintro ⟨inLefts, inRights⟩
    exact ⟨pair.1, inLefts, pair.2, inRights, rfl⟩

theorem foldl_pairs {State : Type} (round : State → Left → Right → State) (lefts : List Left)
    (rights : List Right) (state : State) :
    (pairs lefts rights).foldl (fun state pair => round state pair.1 pair.2) state =
      lefts.foldl (fun state l => rights.foldl (fun state r => round state l r) state) state := by
  simp only [pairs, List.foldl_flatMap, List.foldl_map]

/-- The same for rounds that may stop. -/
theorem foldlM_pairs {State : Type} {Result : Type → Type} [Monad Result] [LawfulMonad Result]
    (round : State → Left → Right → Result State) (lefts : List Left) (rights : List Right)
    (state : State) :
    (pairs lefts rights).foldlM (fun state pair => round state pair.1 pair.2) state =
      lefts.foldlM (fun state l => rights.foldlM (fun state r => round state l r) state) state := by
  induction lefts generalizing state with
  | nil => rfl
  | cons l lefts ih =>
      have first : pairs (l :: lefts) rights =
          (rights.map fun r => (l, r)) ++ pairs lefts rights := List.flatMap_cons
      rw [first, List.foldlM_append, List.foldlM_map, List.foldlM_cons]
      exact congrArg (Bind.bind _) (funext ih)

theorem pairs_apart {lefts : List Left} {rights : List Right} (apart : Apart left lefts)
    (apart' : Apart right rights) : Apart (Both left right) (pairs lefts rights) := by
  refine List.pairwise_flatMap.mpr ⟨fun l _ => ?_, ?_⟩
  · exact List.pairwise_map.mpr (apart'.imp fun apart x both both' => apart x both.2 both'.2)
  · refine apart.imp fun apart pair member pair' member' x both both' => ?_
    obtain ⟨r, -, rfl⟩ := List.mem_map.mp member
    obtain ⟨r', -, rfl⟩ := List.mem_map.mp member'
    exact apart x both.1 both'.1

end Pairs

end Sac2c.CollectedPieces
