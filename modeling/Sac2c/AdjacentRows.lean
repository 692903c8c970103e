import Mathlib.Order.Basic
import Mathlib.Data.Int.Order.Basic
import Mathlib.Tactic.Common

/-!
Intervals that lie one behind the other. Every start has a size; a row goes from a start to
the end of one of its intervals, where all starts but the first are inner ones. If intervals
do not overlap, the row around a point that cannot be extended in either direction is unique.
-/

namespace Sac2c.AdjacentRows

inductive Row (size : Int → Int) (inner : Int → Prop) (low : Int) : Int → Prop where
  | first : Row size inner low (low + size low)
  | next {high : Int} : Row size inner low high → inner high →
      Row size inner low (high + size high)

/-- The intervals behind two different starts have nothing in common. -/
structure Disjoint (size : Int → Int) (starts : Int → Prop) : Prop where
  nonempty : ∀ start, starts start → 0 < size start
  apart : ∀ left right, starts left → starts right → left ≠ right →
    left + size left ≤ right ∨ right + size right ≤ left

/-- A row that starts and ends at what is not inner. -/
structure Maximal (size : Int → Int) (inner : Int → Prop) (low high : Int) : Prop where
  row : Row size inner low high
  lowOuter : ¬ inner low
  highOuter : ¬ inner high

section Rows

variable {size : Int → Int} {inner : Int → Prop} {low mid high : Int}

theorem Row.mono {wider : Int → Prop} (row : Row size inner low high)
    (more : ∀ start, inner start → wider start) : Row size wider low high := by
  induction row with
  | first => exact .first
  | next _ isInner ih => exact .next ih (more _ isInner)

theorem Row.append (front : Row size inner low mid) (meets : inner mid)
    (back : Row size inner mid high) : Row size inner low high := by
  induction back with
  | first => exact .next front meets
  | next _ isInner ih => exact .next ih isInner

/-- The interval a row ends with. -/
theorem Row.last (row : Row size inner low high) :
    ∃ start, (start = low ∨ inner start) ∧ start + size start = high := by
  cases row with
  | first => exact ⟨low, Or.inl rfl, rfl⟩
  | next _ isInner => exact ⟨_, Or.inr isInner, rfl⟩

variable {starts : Int → Prop} (disjoint : Disjoint size starts)
  (inside : ∀ start, inner start → starts start)

include disjoint inside

theorem Row.long (row : Row size inner low high) : low + size low ≤ high := by
  induction row with
  | first => exact le_refl _
  | next _ isInner ih =>
      have positive := disjoint.nonempty _ (inside _ isInner)
      omega

/-- The starts within a row are its own. -/
theorem Row.visits (row : Row size inner low high) (isStart : starts low) {start : Int}
    (other : starts start) (above : low ≤ start) (below : start < high) :
    start = low ∨ inner start := by
  induction row with
  | first =>
      by_contra neither
      have differ : start ≠ low := fun same => neither (Or.inl same)
      have positive := disjoint.nonempty start other
      rcases disjoint.apart start low other isStart differ with before | after
      · omega
      · omega
  | @next high _ isInner ih =>
      by_cases earlier : start < high
      · exact ih earlier
      · by_cases same : start = high
        · exact Or.inr (same ▸ isInner)
        · have positive := disjoint.nonempty start other
          rcases disjoint.apart start high other (inside high isInner) same with before | after
          · omega
          · omega

/-- Of two runs from one start, the shorter one ends at an inner start of the longer one. -/
theorem Row.ends_within {longer : Int} (row : Row size inner low high) (isStart : starts low)
    (other : Row size inner low longer) (shorter : high ≤ longer) :
    high = longer ∨ inner high := by
  induction other with
  | first => exact Or.inl (le_antisymm shorter (row.long disjoint inside))
  | @next mid _ isInner ih =>
      rcases lt_trichotomy high mid with before | same | behind
      · rcases ih (le_of_lt before) with same | earlier
        · exact absurd same (ne_of_lt before)
        · exact Or.inr earlier
      · exact Or.inr (same ▸ isInner)
      · left
        obtain ⟨last, isLast, ends⟩ := row.last
        have lastStart : starts last := by
          rcases isLast with rfl | lastInner
          · exact isStart
          · exact inside last lastInner
        by_cases isMid : last = mid
        · rw [← ends, isMid]
        · rcases disjoint.apart last mid lastStart (inside mid isInner) isMid with below | above
          · omega
          · have positive := disjoint.nonempty last lastStart
            omega

theorem Maximal.unique {low' high' point : Int} (maximal : Maximal size inner low high)
    (other : Maximal size inner low' high') (isStart : starts low) (otherStart : starts low')
    (around : low ≤ point ∧ point < high) (otherAround : low' ≤ point ∧ point < high') :
    low = low' ∧ high = high' := by
  have same : low = low' := by
    rcases le_total low low' with before | after
    · rcases maximal.row.visits disjoint inside isStart otherStart before (by omega) with
        same | isInner
      · exact same.symm
      · exact absurd isInner other.lowOuter
    · rcases other.row.visits disjoint inside otherStart isStart after (by omega) with
        same | isInner
      · exact same
      · exact absurd isInner maximal.lowOuter
  subst same
  refine ⟨rfl, ?_⟩
  rcases le_total high high' with shorter | longer
  · rcases maximal.row.ends_within disjoint inside isStart other.row shorter with same | isInner
    · exact same
    · exact absurd isInner maximal.highOuter
  · rcases other.row.ends_within disjoint inside isStart maximal.row longer with same | isInner
    · exact same.symm
    · exact absurd isInner other.highOuter

end Rows

end Sac2c.AdjacentRows
