import Mathlib.Data.List.Nodup
import Mathlib.Data.List.Perm.Basic
import Mathlib.Data.Int.Order.Basic

/-!
Singly linked lists in memory. `next` gives the link stored in a node; 0 is the
null pointer. `Reaches next from nodes stop` says that the links lead from
`from` through `nodes` and that the last one stores `stop`; a list hangs off a
dummy entry and ends in null. The rules cover what is done to such a list in
place: push a node behind the dummy, append one at the end, unlink one. `Points`
is the same for a list that hangs off a pointer outside memory.
-/

namespace Sac2c.Links

def Reaches (next : Int → Int) : Int → List Int → Int → Prop
  | source, [], stop => next source = stop
  | source, node :: rest, stop => next source = node ∧ node ≠ 0 ∧ Reaches next node rest stop

/-- The null-terminated list behind `dummy`. -/
abbrev Linked (next : Int → Int) (dummy : Int) (nodes : List Int) : Prop :=
  Reaches next dummy nodes 0

/-- The entry whose link comes last when `nodes` follow `dummy`. -/
def lastEntry : Int → List Int → Int
  | dummy, [] => dummy
  | _, node :: rest => lastEntry node rest

theorem last_entry_mem (dummy : Int) (nodes : List Int) :
    lastEntry dummy nodes = dummy ∨ lastEntry dummy nodes ∈ nodes := by
  induction nodes generalizing dummy with
  | nil => exact Or.inl rfl
  | cons node rest ih =>
      rcases ih node with same | inside
      · exact Or.inr (List.mem_cons.mpr (Or.inl same))
      · exact Or.inr (List.mem_cons_of_mem node inside)

theorem last_entry_append (dummy node : Int) (front : List Int) :
    lastEntry dummy (front ++ [node]) = node := by
  induction front generalizing dummy with
  | nil => rfl
  | cons head rest ih => exact ih head

-- Taking a node out of the middle of a list.

theorem last_entry_of (front back : List Int) (freep dummy : Int) :
    lastEntry dummy front = dummy ∨ lastEntry dummy front ∈ front ++ freep :: back := by
  rcases last_entry_mem dummy front with same | member
  · exact Or.inl same
  · exact Or.inr (List.mem_append.mpr (Or.inl member))

theorem mem_without {front back : List Int} {freep : Int}
    (distinct : (front ++ freep :: back).Nodup) (other : Int) :
    other ∈ front ++ back ↔ other ∈ front ++ freep :: back ∧ other ≠ freep := by
  have moved : (front ++ freep :: back).Perm (freep :: (front ++ back)) := List.perm_middle
  have absent : freep ∉ front ++ back := (List.nodup_cons.mp (moved.nodup_iff.mp distinct)).1
  rw [moved.mem_iff, List.mem_cons]
  constructor
  · intro member
    exact ⟨Or.inr member, fun same => absent (same ▸ member)⟩
  · rintro ⟨same | member, differ⟩
    · exact absurd same differ
    · exact member

theorem nodup_without {front back : List Int} {freep : Int}
    (distinct : (front ++ freep :: back).Nodup) : (front ++ back).Nodup :=
  (List.nodup_cons.mp (List.perm_middle.nodup_iff.mp distinct)).2

theorem reaches_append (next : Int → Int) (source node stop : Int) (front back : List Int) :
    Reaches next source (front ++ node :: back) stop ↔
      Reaches next source front node ∧ node ≠ 0 ∧ Reaches next node back stop := by
  induction front generalizing source with
  | nil => exact Iff.rfl
  | cons head rest ih =>
      simp only [List.cons_append, Reaches, ih, and_assoc]

/-- The link of the last entry is where the list stops. -/
theorem reaches_last (next : Int → Int) {source stop : Int} {nodes : List Int}
    (path : Reaches next source nodes stop) : next (lastEntry source nodes) = stop := by
  induction nodes generalizing source with
  | nil => exact path
  | cons node rest ih => exact ih path.2.2

/-- Only one list is linked behind an entry. -/
theorem linked_unique {next : Int → Int} {dummy : Int} {nodes others : List Int}
    (path : Linked next dummy nodes) (other : Linked next dummy others) : nodes = others := by
  induction nodes generalizing dummy others with
  | nil =>
      cases others with
      | nil => rfl
      | cons node rest => exact absurd (other.1.symm.trans path) other.2.1
  | cons node rest ih =>
      obtain ⟨isNode, nonnull, tail⟩ := path
      cases others with
      | nil => exact absurd (isNode.symm.trans other) nonnull
      | cons first later =>
          obtain ⟨isFirst, _, otherTail⟩ := other
          obtain rfl : node = first := isNode.symm.trans isFirst
          rw [ih tail otherTail]

/-- A path survives any change elsewhere than in its entries. -/
theorem reaches_congr {next changed : Int → Int} {source stop : Int} {nodes : List Int}
    (path : Reaches next source nodes stop)
    (same : ∀ entry, entry = source ∨ entry ∈ nodes → changed entry = next entry) :
    Reaches changed source nodes stop := by
  induction nodes generalizing source with
  | nil => exact (same source (Or.inl rfl)).trans path
  | cons node rest ih =>
      refine ⟨(same source (Or.inl rfl)).trans path.1, path.2.1, ih path.2.2 ?_⟩
      rintro entry (rfl | later)
      · exact same entry (Or.inr (List.mem_cons_self ..))
      · exact same entry (Or.inr (List.mem_cons_of_mem node later))

/-- A path whose last link is redirected leads to the new stop. -/
theorem reaches_redirect {next changed : Int → Int} {source stop target : Int} {nodes : List Int}
    (path : Reaches next source nodes stop) (distinct : (source :: nodes).Nodup)
    (redirected : changed (lastEntry source nodes) = target)
    (same : ∀ entry, entry = source ∨ entry ∈ nodes → entry ≠ lastEntry source nodes →
      changed entry = next entry) :
    Reaches changed source nodes target := by
  induction nodes generalizing source with
  | nil => exact redirected
  | cons node rest ih =>
      obtain ⟨fresh, distinctRest⟩ := List.nodup_cons.mp distinct
      -- the source is not the last entry, since a node follows it
      have notLast : source ≠ lastEntry node rest := by
        intro isLast
        rcases last_entry_mem node rest with isNode | inside
        · exact fresh (List.mem_cons.mpr (Or.inl (isLast.trans isNode)))
        · exact fresh (List.mem_cons_of_mem node (isLast ▸ inside))
      refine ⟨(same source (Or.inl rfl) notLast).trans path.1, path.2.1,
        ih path.2.2 distinctRest redirected ?_⟩
      rintro entry (rfl | later) notEnd
      · exact same entry (Or.inr (List.mem_cons_self ..)) notEnd
      · exact same entry (Or.inr (List.mem_cons_of_mem node later)) notEnd

theorem linked_push {next changed : Int → Int} {dummy node : Int} {nodes : List Int}
    (path : Linked next dummy nodes) (nonnull : node ≠ 0)
    (head : changed dummy = node) (link : changed node = next dummy)
    (same : ∀ entry, entry ∈ nodes → changed entry = next entry) :
    Linked changed dummy (node :: nodes) := by
  refine ⟨head, nonnull, ?_⟩
  cases nodes with
  | nil => exact link.trans path
  | cons first rest =>
      obtain ⟨fetched, firstNonnull, tail⟩ := path
      refine ⟨link.trans fetched, firstNonnull, reaches_congr tail ?_⟩
      intro entry inside
      exact same entry (List.mem_cons.mpr inside)

theorem linked_unlink {next changed : Int → Int} {dummy node : Int} {front back : List Int}
    (path : Linked next dummy (front ++ node :: back))
    (distinct : (dummy :: (front ++ node :: back)).Nodup)
    (redirected : changed (lastEntry dummy front) = next node)
    (same : ∀ entry, entry ≠ lastEntry dummy front → changed entry = next entry) :
    Linked changed dummy (front ++ back) := by
  obtain ⟨toNode, nonnull, tail⟩ := (reaches_append next dummy node 0 front back).mp path
  have entries : (dummy :: (front ++ node :: back)) = (dummy :: front) ++ node :: back := rfl
  rw [entries, List.nodup_append] at distinct
  obtain ⟨distinctFront, distinctBack, disjoint⟩ := distinct
  have toNext : Reaches changed dummy front (next node) :=
    reaches_redirect toNode distinctFront redirected (fun entry _ notLast => same entry notLast)
  cases back with
  | nil =>
      have ended : next node = 0 := tail
      rw [ended] at toNext
      rw [List.append_nil]
      exact toNext
  | cons first rest =>
      obtain ⟨fetched, firstNonnull, tail⟩ := tail
      refine (reaches_append changed dummy first 0 front rest).mpr
        ⟨fetched ▸ toNext, firstNonnull, reaches_congr tail ?_⟩
      intro entry inside
      have member : entry ∈ node :: first :: rest :=
        List.mem_cons_of_mem node (List.mem_cons.mpr inside)
      -- the redirected entry stands in front of the node, this one behind it
      have notLast : entry ≠ lastEntry dummy front := by
        intro isLast
        have early : entry ∈ dummy :: front := by
          rcases last_entry_mem dummy front with isDummy | inFront
          · exact List.mem_cons.mpr (Or.inl (isLast.trans isDummy))
          · exact List.mem_cons_of_mem dummy (isLast ▸ inFront)
        exact disjoint entry early entry member rfl
      exact same entry notLast

theorem linked_append {next changed : Int → Int} {dummy node : Int} {nodes : List Int}
    (path : Linked next dummy nodes) (distinct : (dummy :: nodes).Nodup) (nonnull : node ≠ 0)
    (redirected : changed (lastEntry dummy nodes) = node) (ended : changed node = 0)
    (same : ∀ entry, entry ≠ lastEntry dummy nodes → entry ≠ node → changed entry = next entry)
    (absent : node ≠ dummy ∧ node ∉ nodes) :
    Linked changed dummy (nodes ++ [node]) := by
  refine (reaches_append changed dummy node 0 nodes []).mpr ⟨?_, nonnull, ended⟩
  refine reaches_redirect path distinct redirected ?_
  intro entry inside notLast
  refine same entry notLast ?_
  rintro rfl
  rcases inside with isDummy | member
  · exact absent.1 isDummy
  · exact absent.2 member

-- Lists that hang off a pointer.

/-- The links lead from the pointer `head` through `nodes` to null. -/
def Points (next : Int → Int) : Int → List Int → Prop
  | head, [] => head = 0
  | head, node :: rest => head = node ∧ node ≠ 0 ∧ Points next (next node) rest

theorem points_congr {next changed : Int → Int} {head : Int} {nodes : List Int}
    (path : Points next head nodes) (same : ∀ node, node ∈ nodes → changed node = next node) :
    Points changed head nodes := by
  induction nodes generalizing head with
  | nil => exact path
  | cons node rest ih =>
      obtain ⟨isHead, nonnull, path⟩ := path
      refine ⟨isHead, nonnull, ?_⟩
      rw [same node (List.mem_cons_self ..)]
      apply ih path
      intro later inside
      exact same later (List.mem_cons_of_mem node inside)

theorem points_null {next : Int → Int} {nodes : List Int} (path : Points next 0 nodes) :
    nodes = [] := by
  cases nodes with
  | nil => rfl
  | cons node rest => exact absurd path.1.symm path.2.1

theorem points_nonnull {next : Int → Int} {head : Int} {nodes : List Int}
    (path : Points next head nodes) (nonnull : head ≠ 0) :
    ∃ rest, nodes = head :: rest ∧ Points next (next head) rest := by
  cases nodes with
  | nil => exact absurd path nonnull
  | cons node rest =>
      obtain ⟨rfl, _, path⟩ := path
      exact ⟨rest, rfl, path⟩

/-- A list with a known last node gets one more behind it. -/
theorem points_append {next changed : Int → Int} {head last node : Int} {nodes : List Int}
    (path : Points next head nodes) (distinct : nodes.Nodup) (nonnull : node ≠ 0)
    (isLast : nodes.getLast? = some last) (redirected : changed last = node)
    (ended : changed node = 0)
    (same : ∀ entry, entry ∈ nodes → entry ≠ last → changed entry = next entry) :
    Points changed head (nodes ++ [node]) := by
  induction nodes generalizing head with
  | nil => exact absurd isLast (by simp)
  | cons entry rest ih =>
      obtain ⟨isHead, entryNonnull, path⟩ := path
      obtain ⟨absent, distinct⟩ := List.nodup_cons.mp distinct
      refine ⟨isHead, entryNonnull, ?_⟩
      cases rest with
      | nil =>
          obtain rfl : entry = last := by simpa using isLast
          exact ⟨redirected, nonnull, ended⟩
      | cons later others =>
          have notLast : entry ≠ last := by
            rintro rfl
            exact absent (List.mem_of_getLast? isLast)
          rw [same entry (List.mem_cons_self ..) notLast]
          apply ih path distinct isLast
          intro behind inside
          exact same behind (List.mem_cons_of_mem entry inside)

/-- The entries a walk along the links can stand at. -/
inductive Walked (next : Int → Int) (dummy : Int) : Int → Prop where
  | dummy : Walked next dummy dummy
  | entry {lastp : Int} : Walked next dummy lastp → next lastp ≠ 0 →
      Walked next dummy (next lastp)

/-- What follows an entry of the walk is a node of the list. -/
theorem walked_splits {next : Int → Int} {dummy lastp : Int} {nodes : List Int}
    (path : Linked next dummy nodes) (walked : Walked next dummy lastp)
    (nonnull : next lastp ≠ 0) :
    ∃ front back, nodes = front ++ next lastp :: back ∧ lastEntry dummy front = lastp := by
  induction walked with
  | dummy =>
      cases nodes with
      | nil => exact absurd path nonnull
      | cons node rest => exact ⟨[], rest, by rw [path.1]; rfl, rfl⟩
  | @entry lastp walked onward ih =>
      obtain ⟨front, back, split, _⟩ := ih onward
      rw [split] at path
      have tail := ((reaches_append next dummy _ 0 front back).mp path).2.2
      cases back with
      | nil => exact absurd tail nonnull
      | cons node rest =>
          refine ⟨front ++ [next lastp], rest, ?_, last_entry_append dummy _ front⟩
          rw [split, tail.1, List.append_assoc]
          rfl

end Sac2c.Links
