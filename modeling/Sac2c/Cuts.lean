import Mathlib.Order.Lattice
import Mathlib.Order.Monotone.Basic
import Mathlib.Order.Nat
import Mathlib.Data.Int.Order.Basic

/-!
A line cut at the points `cut 0 ≤ cut 1 ≤ …` falls into half-open pieces. The
pieces below `cut count` are disjoint and cover exactly what lies between
`cut 0` and `cut count`; a piece may be empty.
-/

namespace Sac2c.Cuts

variable {α : Type} [LinearOrder α]

def Piece (cut : Nat → α) (index : Nat) (point : α) : Prop :=
  cut index ≤ point ∧ point < cut (index + 1)

theorem piece_unique (cut : Nat → α) (rising : Monotone cut) {left right : Nat} {point : α}
    (inLeft : Piece cut left point) (inRight : Piece cut right point) : left = right := by
  rcases Nat.lt_trichotomy left right with before | same | after
  · have reached : point < cut right := lt_of_lt_of_le inLeft.2 (rising before)
    exact absurd inRight.1 (not_le.mpr reached)
  · exact same
  · have reached : point < cut left := lt_of_lt_of_le inRight.2 (rising after)
    exact absurd inLeft.1 (not_le.mpr reached)

theorem piece_exists (cut : Nat → α) (count : Nat) {point : α}
    (above : cut 0 ≤ point) (below : point < cut count) :
    ∃ index, index < count ∧ Piece cut index point := by
  induction count with
  | zero => exact absurd above (not_le.mpr below)
  | succ count ih =>
      by_cases reached : cut count ≤ point
      · exact ⟨count, Nat.lt_succ_self count, reached, below⟩
      · obtain ⟨index, inside, piece⟩ := ih (not_le.mp reached)
        exact ⟨index, Nat.lt_succ_of_lt inside, piece⟩

theorem piece_within (cut : Nat → α) (rising : Monotone cut) {index count : Nat}
    (inside : index < count) {point : α} (piece : Piece cut index point) :
    cut 0 ≤ point ∧ point < cut count :=
  ⟨le_trans (rising (Nat.zero_le index)) piece.1, lt_of_lt_of_le piece.2 (rising inside)⟩

theorem pieces_cover (cut : Nat → α) (rising : Monotone cut) (count : Nat) (point : α) :
    (cut 0 ≤ point ∧ point < cut count) ↔ ∃ index, index < count ∧ Piece cut index point := by
  constructor
  · rintro ⟨above, below⟩
    exact piece_exists cut count above below
  · rintro ⟨index, inside, piece⟩
    exact piece_within cut rising inside piece

/-- Non-empty ranges handed out one after the other, from `first` up to `last`. -/
inductive Chain : α → List (α × α) → α → Prop where
  | nil (point) : Chain point [] point
  | cons {first middle last : α} {rest : List (α × α)} :
      first < middle → Chain middle rest last → Chain first ((first, middle) :: rest) last

theorem Chain.ascends {first last : α} {ranges : List (α × α)}
    (chain : Chain first ranges last) : first ≤ last := by
  induction chain with
  | nil point => exact le_refl point
  | cons forward _ ih => exact le_trans (le_of_lt forward) ih

theorem Chain.nonempty {first last : α} {ranges : List (α × α)}
    (chain : Chain first ranges last) : ∀ range ∈ ranges, range.1 < range.2 := by
  induction chain with
  | nil => simp
  | cons forward _ ih =>
      intro range member
      rcases List.mem_cons.mp member with head | tail
      · subst head
        exact forward
      · exact ih range tail

theorem Chain.within {first last : α} {ranges : List (α × α)}
    (chain : Chain first ranges last) : ∀ range ∈ ranges, first ≤ range.1 ∧ range.2 ≤ last := by
  induction chain with
  | nil => simp
  | cons forward tail ih =>
      intro range member
      rcases List.mem_cons.mp member with head | rest
      · subst head
        exact ⟨le_refl _, tail.ascends⟩
      · exact ⟨le_trans (le_of_lt forward) (ih range rest).1, (ih range rest).2⟩

theorem Chain.ordered {first last : α} {ranges : List (α × α)}
    (chain : Chain first ranges last) :
    ranges.Pairwise fun earlier later => earlier.2 ≤ later.1 := by
  induction chain with
  | nil => exact List.Pairwise.nil
  | cons _ tail ih => exact List.Pairwise.cons (fun range member => (tail.within range member).1) ih

theorem Chain.covers {first last : α} {ranges : List (α × α)}
    (chain : Chain first ranges last) (point : α) :
    (first ≤ point ∧ point < last) ↔ ∃ range ∈ ranges, range.1 ≤ point ∧ point < range.2 := by
  constructor
  · intro inside
    induction chain with
    | nil => exact absurd inside.1 (not_le.mpr inside.2)
    | @cons first middle last rest forward tail ih =>
        by_cases early : point < middle
        · exact ⟨(first, middle), List.mem_cons_self, inside.1, early⟩
        · obtain ⟨range, member, holds⟩ := ih ⟨not_lt.mp early, inside.2⟩
          exact ⟨range, List.mem_cons_of_mem _ member, holds⟩
  · rintro ⟨range, member, above, below⟩
    have bounds := chain.within range member
    exact ⟨le_trans bounds.1 above, lt_of_lt_of_le below bounds.2⟩

/-- Over the integers each range takes at least one point. -/
theorem Chain.length_le {first last : Int} {ranges : List (Int × Int)}
    (chain : Chain first ranges last) : first + ranges.length ≤ last := by
  induction chain with
  | nil => simp
  | cons forward _ ih =>
      push_cast [List.length_cons]
      omega

end Sac2c.Cuts
