import Mathlib.Data.List.Forall2
import Mathlib.Data.Set.Basic
import Mathlib.Logic.ExistsUnique

/-!
Changes of an index space. The indices of the outer space are handed out; a
partial function turns each back into an index of the inner space or drops it.
The change is exact when no index that comes back lies outside the inner space
and every inner index comes back from exactly one outer index. Exact changes
compose, and spaces of vectors are changed axis by axis or on their last axes.
-/

namespace Sac2c.Reindexing

universe u v w
variable {Outer : Type u} {Middle : Type v} {Inner : Type w}

/-- Nothing foreign comes back, and each inner index comes back exactly once. -/
structure Reindexes (outer : Set Outer) (back : Outer → Option Inner) (inner : Set Inner) :
    Prop where
  sound : ∀ o ∈ outer, ∀ i, back o = some i → i ∈ inner
  once : ∀ i ∈ inner, ∃! o, o ∈ outer ∧ back o = some i

theorem Reindexes.id (space : Set Inner) : Reindexes space some space where
  sound o inside i back := by
    cases back
    exact inside
  once i inside := ⟨i, ⟨inside, rfl⟩, fun _ other => Option.some.inj other.2⟩

/-- A change of the outer space followed by one of the inner space. -/
theorem Reindexes.comp {outer : Set Outer} {middle : Set Middle} {inner : Set Inner}
    {unmap : Outer → Option Middle} {back : Middle → Option Inner}
    (first : Reindexes outer unmap middle) (second : Reindexes middle back inner) :
    Reindexes outer (fun o => (unmap o).bind back) inner where
  sound o inside i found := by
    obtain ⟨m, unmapped, backed⟩ := Option.bind_eq_some_iff.mp found
    exact second.sound m (first.sound o inside m unmapped) i backed
  once i inside := by
    obtain ⟨m, ⟨mInside, backed⟩, mOnly⟩ := second.once i inside
    obtain ⟨o, ⟨oInside, unmapped⟩, oOnly⟩ := first.once m mInside
    refine ⟨o, ⟨oInside, Option.bind_eq_some_iff.mpr ⟨m, unmapped, backed⟩⟩, ?_⟩
    rintro o' ⟨oInside', found⟩
    obtain ⟨m', unmapped', backed'⟩ := Option.bind_eq_some_iff.mp found
    have same : m' = m := mOnly m' ⟨first.sound o' oInside' m' unmapped', backed'⟩
    subst same
    exact oOnly o' ⟨oInside', unmapped'⟩

/-- Only what is done to indices of the outer space matters. -/
theorem Reindexes.congr {outer : Set Outer} {inner : Set Inner}
    {back back' : Outer → Option Inner} (exact : Reindexes outer back inner)
    (same : ∀ o ∈ outer, back' o = back o) : Reindexes outer back' inner where
  sound o inside i found := exact.sound o inside i (same o inside ▸ found)
  once i inside := by
    obtain ⟨o, ⟨oInside, found⟩, only⟩ := exact.once i inside
    refine ⟨o, ⟨oInside, (same o oInside).trans found⟩, ?_⟩
    rintro o' ⟨oInside', found'⟩
    exact only o' ⟨oInside', (same o' oInside').symm.trans found'⟩

/-- A change that drops nothing and is inverted by `forth`. -/
theorem Reindexes.of_inverse {outer : Set Outer} {inner : Set Inner} {back : Outer → Inner}
    (forth : Inner → Outer) (into : ∀ o ∈ outer, back o ∈ inner)
    (outOf : ∀ i ∈ inner, forth i ∈ outer) (backForth : ∀ i ∈ inner, back (forth i) = i)
    (forthBack : ∀ o ∈ outer, forth (back o) = o) :
    Reindexes outer (fun o => some (back o)) inner where
  sound o inside i found := by
    cases found
    exact into o inside
  once i inside := by
    refine ⟨forth i, ⟨outOf i inside, congrArg some (backForth i inside)⟩, ?_⟩
    rintro o ⟨oInside, found⟩
    cases found
    exact (forthBack o oInside).symm

/-- A change that only drops what lies outside the inner space. -/
theorem Reindexes.of_filter {outer inner : Set Inner} (keep : Inner → Prop) [DecidablePred keep]
    (within : ∀ i, i ∈ inner ↔ i ∈ outer ∧ keep i) :
    Reindexes outer (fun o => if keep o then some o else none) inner where
  sound o inside i found := by
    split at found
    · next kept =>
        cases found
        exact (within o).mpr ⟨inside, kept⟩
    · cases found
  once i inside := by
    obtain ⟨outside, kept⟩ := (within i).mp inside
    refine ⟨i, ⟨outside, if_pos kept⟩, ?_⟩
    rintro o ⟨-, found⟩
    split at found
    · exact Option.some.inj found
    · cases found

section Axes

variable {α : Type u} {β : Type v}

/-- The vectors with one entry from each axis. -/
def Box (axes : List (Set α)) : Set (List α) :=
  fun vector => List.Forall₂ (fun i axis => i ∈ axis) vector axes

theorem box_cons {i : α} {vector : List α} {axis : Set α} {axes : List (Set α)} :
    i :: vector ∈ Box (axis :: axes) ↔ i ∈ axis ∧ vector ∈ Box axes :=
  List.forall₂_cons

theorem box_length {vector : List α} {axes : List (Set α)} (inside : vector ∈ Box axes) :
    vector.length = axes.length :=
  List.Forall₂.length_eq inside

theorem box_iff {vector : List α} {axes : List (Set α)} :
    vector ∈ Box axes ↔ vector.length = axes.length ∧
      ∀ (k : Nat) i axis, vector[k]? = some i → axes[k]? = some axis → i ∈ axis := by
  constructor
  · intro inside
    refine ⟨box_length inside, fun k i axis atVector atAxes => ?_⟩
    obtain ⟨lt, rfl⟩ := List.getElem?_eq_some_iff.mp atVector
    obtain ⟨lt', rfl⟩ := List.getElem?_eq_some_iff.mp atAxes
    exact List.Forall₂.get inside lt lt'
  · rintro ⟨same, each⟩
    refine List.forall₂_iff_get.mpr ⟨same, fun k lt lt' => ?_⟩
    exact each k _ _ (List.getElem?_eq_getElem lt) (List.getElem?_eq_getElem lt')

theorem box_one {vector : List α} {axis : Set α} :
    vector ∈ Box [axis] ↔ ∃ i ∈ axis, vector = [i] := by
  constructor
  · intro inside
    cases inside with
    | cons inAxis rest =>
        cases rest
        exact ⟨_, inAxis, rfl⟩
  · rintro ⟨i, inAxis, rfl⟩
    exact List.Forall₂.cons inAxis List.Forall₂.nil

theorem box_two {vector : List α} {major minor : Set α} :
    vector ∈ Box [major, minor] ↔ ∃ i ∈ major, ∃ j ∈ minor, vector = [i, j] := by
  constructor
  · intro inside
    cases inside with
    | cons inMajor rest =>
        obtain ⟨j, inMinor, rfl⟩ := box_one.mp rest
        exact ⟨_, inMajor, j, inMinor, rfl⟩
  · rintro ⟨i, inMajor, j, inMinor, rfl⟩
    exact List.Forall₂.cons inMajor (List.Forall₂.cons inMinor List.Forall₂.nil)

/-- The first entry goes back by `back`, the others by `backs`; a dropped part
drops the vector. -/
def consBack (back : α → Option β) (backs : List α → Option (List β)) :
    List α → Option (List β)
  | [] => none
  | i :: vector => do
      let j ← back i
      let rest ← backs vector
      some (j :: rest)

theorem consBack_eq_some {back : α → Option β} {backs : List α → Option (List β)} {i : α}
    {vector : List α} {inner : List β} :
    consBack back backs (i :: vector) = some inner ↔
      ∃ j rest, back i = some j ∧ backs vector = some rest ∧ inner = j :: rest := by
  simp only [consBack, Option.bind_eq_bind, Option.bind_eq_some_iff, Option.some.injEq]
  constructor
  · rintro ⟨j, found, rest, tail, rfl⟩
    exact ⟨j, rest, found, tail, rfl⟩
  · rintro ⟨j, rest, found, tail, rfl⟩
    exact ⟨j, found, rest, tail, rfl⟩

theorem Reindexes.box_nil {back : List α → Option (List β)} (kept : back [] = some []) :
    Reindexes (Box []) back (Box []) where
  sound o inside i found := by
    cases inside
    cases kept.symm.trans found
    exact List.Forall₂.nil
  once i inside := by
    cases inside
    refine ⟨[], ⟨List.Forall₂.nil, kept⟩, ?_⟩
    rintro o ⟨oInside, -⟩
    exact List.eq_nil_of_length_eq_zero (box_length oInside)

/-- Exact on the first axis and on the others is exact on the box. -/
theorem Reindexes.box_cons {outer : Set α} {inner : Set β} {outers : List (Set α)}
    {inners : List (Set β)} {back : α → Option β} {backs : List α → Option (List β)}
    (head : Reindexes outer back inner) (tail : Reindexes (Box outers) backs (Box inners)) :
    Reindexes (Box (outer :: outers)) (consBack back backs) (Box (inner :: inners)) where
  sound o inside i found := by
    cases inside with
    | cons oHead oTail =>
        obtain ⟨j, rest, backed, backedRest, rfl⟩ := consBack_eq_some.mp found
        exact Reindexing.box_cons.mpr
          ⟨head.sound _ oHead j backed, tail.sound _ oTail rest backedRest⟩
  once i inside := by
    cases inside with
    | cons iHead iTail =>
        obtain ⟨o, ⟨oInside, backed⟩, oOnly⟩ := head.once _ iHead
        obtain ⟨os, ⟨osInside, backedRest⟩, osOnly⟩ := tail.once _ iTail
        refine ⟨o :: os, ⟨Reindexing.box_cons.mpr ⟨oInside, osInside⟩,
          consBack_eq_some.mpr ⟨_, _, backed, backedRest, rfl⟩⟩, ?_⟩
        rintro others ⟨othersInside, found⟩
        cases othersInside with
        | cons otherInside othersInside =>
            obtain ⟨j, rest, backed', backedRest', same⟩ := consBack_eq_some.mp found
            cases same
            rw [oOnly _ ⟨otherInside, backed'⟩, osOnly _ ⟨othersInside, backedRest'⟩]

/-- Each entry goes back on its own axis. -/
def mapBacks {Axis : Type w} (back : Axis → α → Option β) : List Axis → List α → Option (List β)
  | [], vector => if vector.isEmpty then some [] else none
  | axis :: axes, vector => consBack (back axis) (mapBacks back axes) vector

theorem mapBacks_one {Axis : Type w} (back : Axis → α → Option β) (axis : Axis) (i : α) :
    mapBacks back [axis] [i] = (back axis i).map ([·]) := by
  cases found : back axis i <;> simp [mapBacks, consBack, found]

theorem mapBacks_map {Axis Source : Type w} (back : Axis → α → Option β) (f : Source → Axis)
    (axes : List Source) : mapBacks back (axes.map f) = mapBacks (fun a => back (f a)) axes := by
  induction axes with
  | nil => rfl
  | cons a axes ih =>
      funext vector
      simp only [List.map_cons, mapBacks, ih]

/-- On a box of one axis -/
theorem Reindexes.box_one {outer : Set α} {inner : Set β} {back : α → Option β}
    {backs : List α → Option (List β)} (exact : Reindexes outer back inner)
    (same : ∀ i, backs [i] = (back i).map ([·])) : Reindexes (Box [outer]) backs (Box [inner]) where
  sound vector inside found rest := by
    obtain ⟨i, inAxis, rfl⟩ := Reindexing.box_one.mp inside
    obtain ⟨j, backed, rfl⟩ := Option.map_eq_some_iff.mp ((same i).symm.trans rest)
    exact Reindexing.box_one.mpr ⟨j, exact.sound i inAxis j backed, rfl⟩
  once vector inside := by
    obtain ⟨j, inAxis, rfl⟩ := Reindexing.box_one.mp inside
    obtain ⟨i, ⟨inOuter, backed⟩, only⟩ := exact.once j inAxis
    refine ⟨[i], ⟨Reindexing.box_one.mpr ⟨i, inOuter, rfl⟩, by rw [same, backed]; rfl⟩, ?_⟩
    rintro other ⟨otherInside, found⟩
    obtain ⟨i', inOuter', rfl⟩ := Reindexing.box_one.mp otherInside
    obtain ⟨j', backed', single⟩ := Option.map_eq_some_iff.mp ((same i').symm.trans found)
    cases single
    rw [only i' ⟨inOuter', backed'⟩]

/-- The back of the last entries, the first `count` left as they are. -/
def onLast : Nat → (List α → Option (List α)) → List α → Option (List α)
  | 0, back => back
  | count + 1, back => consBack some (onLast count back)

theorem onLast_append {count : Nat} {back : List α → Option (List α)} {first last : List α}
    (full : first.length = count) :
    onLast count back (first ++ last) = (back last).map (first ++ ·) := by
  induction first generalizing count with
  | nil =>
      cases full
      simp [onLast]
  | cons i first ih =>
      cases full
      simp only [onLast, List.cons_append, List.length_cons, consBack, ih rfl]
      cases back last <;> rfl

/-- An exact change of the last axes is exact with any axes before them. -/
theorem Reindexes.onLast {outer inner : List (Set α)} {back : List α → Option (List α)}
    (exact : Reindexes (Box outer) back (Box inner)) (shared : List (Set α)) :
    Reindexes (Box (shared ++ outer)) (Reindexing.onLast shared.length back)
      (Box (shared ++ inner)) := by
  induction shared with
  | nil => exact exact
  | cons axis shared ih => exact Reindexes.box_cons (Reindexes.id axis) ih

end Axes

end Sac2c.Reindexing
