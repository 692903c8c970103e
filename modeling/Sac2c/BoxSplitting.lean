import Mathlib.Data.DFinsupp.WellFounded
import Mathlib.Data.Finset.Max
import Mathlib.Data.Multiset.DershowitzManna
import Mathlib.Order.PiLex

/-!
Splitting of boxes until any two of them are equal or apart in the first dimension
in which they differ. A round keeps intersections only, in one dimension each. If
the boxes tile a box then no point is lost, and the rounds come to an end.
-/

namespace Sac2c.BoxSplitting

variable {ι α : Type} [LinearOrder ι]

section Boxes

/-- The point lies in the box: a finite set for every dimension. -/
def Inside (p : ι → α) (v : ι → Finset α) : Prop := ∀ e, p e ∈ v e

/-- Boxes that have no point in common and are a box together. -/
structure Tiling (boxes : Set (ι → Finset α)) (whole : ι → Finset α) : Prop where
  inhabited : ∀ v ∈ boxes, ∃ p, Inside p v
  apart : ∀ v ∈ boxes, ∀ w ∈ boxes, ∀ p, Inside p v → Inside p w → v = w
  covered : ∀ p, Inside p whole ↔ ∃ v ∈ boxes, Inside p v

/-- Where `w` has a point that `v` lacks there is a box with this point, and without any
given one of `v`. -/
def Balanced (boxes : Set (ι → Finset α)) : Prop :=
  ∀ v ∈ boxes, ∀ w ∈ boxes, ∀ (d : ι) (p : ι → α), (∀ e < d, p e ∈ v e) → (∀ e < d, p e ∈ w e) →
    ∀ a ∈ v d, p d ∈ w d → p d ∉ v d → ∃ u ∈ boxes, (∀ e ≤ d, p e ∈ u e) ∧ a ∉ u d

theorem balanced_of_tiling {boxes : Set (ι → Finset α)} {whole : ι → Finset α}
    (tiles : Tiling boxes whole) : Balanced boxes := by
  intro v memberV w memberW d p beforeV beforeW a inV inW outside
  obtain ⟨q, insideV⟩ := tiles.inhabited v memberV
  obtain ⟨r, insideW⟩ := tiles.inhabited w memberW
  -- from dimension `d` on a point of `v`, with `x` in dimension `d` itself
  let point (x : α) : ι → α := fun e => if e < d then p e else if e = d then x else q e
  have pointV (x : α) (here : x ∈ v d) : Inside (point x) v := by
    intro e
    by_cases before : e < d
    · simpa [point, before] using beforeV e before
    · by_cases same : e = d
      · subst same
        simpa [point] using here
      · simpa [point, before, same] using insideV e
  have inWhole : Inside (point (p d)) whole := by
    have wholeV := (tiles.covered _).mpr ⟨v, memberV, insideV⟩
    have wholeW := (tiles.covered (fun e => if e = d then p d else r e)).mpr ⟨w, memberW, by
      intro e
      by_cases same : e = d
      · subst same
        simpa using inW
      · simpa [same] using insideW e⟩
    have wholeA := (tiles.covered _).mpr ⟨v, memberV, pointV a inV⟩
    intro e
    by_cases before : e < d
    · simpa [point, before] using wholeA e
    · by_cases same : e = d
      · subst same
        simpa [point] using wholeW e
      · simpa [point, before, same] using wholeV e
  obtain ⟨u, memberU, insideU⟩ := (tiles.covered _).mp inWhole
  have prefixU : ∀ e ≤ d, p e ∈ u e := by
    intro e upto
    rcases lt_or_eq_of_le upto with before | rfl
    · simpa [point, before] using insideU e
    · simpa [point] using insideU e
  refine ⟨u, memberU, prefixU, fun inU => ?_⟩
  have pointU : Inside (point a) u := by
    intro e
    by_cases same : e = d
    · subst same
      simpa [point] using inU
    · simpa [point, same] using insideU e
  have same : u = v := tiles.apart u memberU v memberV _ pointU (pointV a inV)
  exact outside (same ▸ prefixU d le_rfl)

theorem first_difference [WellFoundedLT ι] {v w : ι → Finset α} {d : ι} (differ : v d ≠ w d) :
    ∃ e ≤ d, (∀ f < e, v f = w f) ∧ v e ≠ w e := by
  obtain ⟨e, here, least⟩ := (wellFounded_lt (α := ι)).has_min {e | v e ≠ w e} ⟨d, differ⟩
  exact ⟨e, not_lt.mp (least d differ), fun f before => not_not.mp fun other =>
    least f other before, here⟩

theorem first_difference_unique {v w : ι → Finset α} {d e : ι} (beforeD : ∀ f < d, v f = w f)
    (differD : v d ≠ w d) (beforeE : ∀ f < e, v f = w f) (differE : v e ≠ w e) : d = e := by
  rcases lt_trichotomy d e with below | same | above
  · exact absurd (beforeE d below) differD
  · exact same
  · exact absurd (beforeD e above) differE

end Boxes

section Rounds
variable [DecidableEq α]

/-- `d` is the first dimension in which the boxes differ, and they overlap in it. -/
def Splits (v w : ι → Finset α) (d : ι) : Prop :=
  (∀ e < d, v e = w e) ∧ v d ≠ w d ∧ (v d ∩ w d).Nonempty

/-- What a split leaves of the first box. -/
def cut (v w : ι → Finset α) (d : ι) : ι → Finset α := Function.update v d (v d ∩ w d)

/-- Boxes that are split are replaced by what their splits leave of them. -/
def nextBoxes (boxes : Set (ι → Finset α)) : Set (ι → Finset α) :=
  {u | ∃ v ∈ boxes, (∃ w ∈ boxes, ∃ d, Splits v w d ∧ u = cut v w d) ∨
    (u = v ∧ ∀ w ∈ boxes, ∀ d, ¬ Splits v w d)}

theorem Splits.symm {v w : ι → Finset α} {d : ι} (splits : Splits v w d) : Splits w v d :=
  ⟨fun e before => (splits.1 e before).symm, splits.2.1.symm,
    Finset.inter_comm (v d) (w d) ▸ splits.2.2⟩

theorem cut_subset (v w : ι → Finset α) (d e : ι) : cut v w d e ⊆ v e := by
  by_cases same : e = d
  · subst same
    simp [cut]
  · simp [cut, same]

theorem inside_cut {v w : ι → Finset α} {d : ι} {p : ι → α} (inside : Inside p v)
    (common : p d ∈ w d) : Inside p (cut v w d) := by
  intro e
  by_cases same : e = d
  · subst same
    simpa [cut] using ⟨inside e, common⟩
  · simpa [cut, same] using inside e

theorem next_subset {boxes : Set (ι → Finset α)} {u : ι → Finset α} (member : u ∈ nextBoxes boxes) :
    ∃ v ∈ boxes, ∀ e, u e ⊆ v e := by
  obtain ⟨v, memberV, ⟨w, _, d, _, rfl⟩ | ⟨rfl, _⟩⟩ := member
  · exact ⟨v, memberV, cut_subset v w d⟩
  · exact ⟨u, memberV, fun e => subset_rfl⟩

/-- Every point of a box stays in a part of this box. -/
theorem next_covers [WellFoundedLT ι] {boxes : Set (ι → Finset α)} (balanced : Balanced boxes)
    {v : ι → Finset α} (memberV : v ∈ boxes) {p : ι → α} (inside : Inside p v) :
    ∃ u ∈ nextBoxes boxes, (∀ e, u e ⊆ v e) ∧ Inside p u := by
  have part {w : ι → Finset α} (memberW : w ∈ boxes) {d : ι} (splits : Splits v w d)
      (common : p d ∈ w d) : ∃ u ∈ nextBoxes boxes, (∀ e, u e ⊆ v e) ∧ Inside p u :=
    ⟨cut v w d, ⟨v, memberV, Or.inl ⟨w, memberW, d, splits, rfl⟩⟩, cut_subset v w d,
      inside_cut inside common⟩
  by_cases whole : ∀ w ∈ boxes, ∀ d, ¬ Splits v w d
  · exact ⟨v, ⟨v, memberV, Or.inr ⟨rfl, whole⟩⟩, fun _ => subset_rfl, inside⟩
  · push Not at whole
    obtain ⟨w, memberW, d, splits⟩ := whole
    by_cases common : p d ∈ w d
    · exact part memberW splits common
    · -- `w` takes a point `a` from `v`, so the box of `p` without `a` splits `v`, too
      obtain ⟨a, both⟩ := splits.2.2
      have bothIn := Finset.mem_inter.mp both
      obtain ⟨u, memberU, prefixU, without⟩ := balanced w memberW v memberV d p
        (fun e before => splits.1 e before ▸ inside e) (fun e _ => inside e) a bothIn.2 (inside d)
        common
      have differ : v d ≠ u d := fun same => without (same ▸ bothIn.1)
      obtain ⟨e, upto, before, here⟩ := first_difference differ
      exact part memberU ⟨before, here, p e, Finset.mem_inter.mpr ⟨inside e, prefixU e upto⟩⟩
        (prefixU e upto)

theorem balanced_next [WellFoundedLT ι] {boxes : Set (ι → Finset α)} (balanced : Balanced boxes)
    (inhabited : ∀ v ∈ boxes, ∃ p, Inside p v) : Balanced (nextBoxes boxes) := by
  intro v' memberV' w' memberW' d p beforeV' beforeW' a inV' inW' outside
  -- it is enough to find the box before the round
  have later : (∃ u ∈ boxes, (∀ e ≤ d, p e ∈ u e) ∧ a ∉ u d) →
      ∃ u ∈ nextBoxes boxes, (∀ e ≤ d, p e ∈ u e) ∧ a ∉ u d := by
    rintro ⟨u, memberU, prefixU, without⟩
    obtain ⟨q, insideU⟩ := inhabited u memberU
    have extended : Inside (fun e => if e ≤ d then p e else q e) u := by
      intro e
      by_cases upto : e ≤ d
      · simpa [upto] using prefixU e upto
      · simpa [upto] using insideU e
    obtain ⟨u', memberU', within, insideU'⟩ := next_covers balanced memberU extended
    refine ⟨u', memberU', fun e upto => ?_, fun inU' => without (within d inU')⟩
    simpa [upto] using insideU' e
  apply later
  obtain ⟨w, memberW, withinW⟩ := next_subset memberW'
  have beforeW (e : ι) (before : e < d) : p e ∈ w e := withinW e (beforeW' e before)
  obtain ⟨v, memberV, ⟨x, memberX, g, splits, rfl⟩ | ⟨rfl, _⟩⟩ := memberV'
  · have beforeV (e : ι) (before : e < d) : p e ∈ v e := cut_subset v x g e (beforeV' e before)
    have inV : a ∈ v d := cut_subset v x g d inV'
    by_cases here : p d ∈ v d
    · -- `v` has lost the point in this round, to `x`
      have same : d = g := by
        by_contra other
        exact outside (by simpa [cut, other] using here)
      subst same
      have inX : a ∈ v d ∩ x d := by simpa [cut] using inV'
      have missing : p d ∉ x d := fun found => outside (by simpa [cut] using ⟨here, found⟩)
      exact balanced x memberX v memberV d p
        (fun e before => splits.1 e before ▸ beforeV e before) beforeV a
        (Finset.mem_inter.mp inX).2 here missing
    · exact balanced v memberV w memberW d p beforeV beforeW a inV (withinW d inW') here
  · exact balanced v' memberV w memberW d p beforeV' beforeW a inV' (withinW d inW') outside

/-- A round neither loses nor adds a point. -/
theorem next_inside_iff [WellFoundedLT ι] {boxes : Set (ι → Finset α)}
    (balanced : Balanced boxes) (p : ι → α) :
    (∃ u ∈ nextBoxes boxes, Inside p u) ↔ ∃ v ∈ boxes, Inside p v := by
  constructor
  · rintro ⟨u, memberU, inside⟩
    obtain ⟨v, memberV, within⟩ := next_subset memberU
    exact ⟨v, memberV, fun e => within e (inside e)⟩
  · rintro ⟨v, memberV, inside⟩
    obtain ⟨u, memberU, _, insideU⟩ := next_covers balanced memberV inside
    exact ⟨u, memberU, insideU⟩

end Rounds

section Termination
variable [DecidableEq α]

/-- Boxes are compared by their extents, the first dimension counting most. -/
def extents (v : ι → Finset α) : Lex (ι → ℕ) := toLex fun e => (v e).card

def weight (boxes : Finset (ι → Finset α)) : Multiset (Lex (ι → ℕ)) := boxes.val.map extents

theorem extents_cut_lt {v w : ι → Finset α} {d : ι} (proper : v d ∩ w d ≠ v d) :
    extents (cut v w d) < extents v := by
  refine ⟨d, fun e before => ?_, ?_⟩
  · show (cut v w d e).card = (v e).card
    rw [cut, Function.update_of_ne before.ne]
  · show (cut v w d d).card < (v d).card
    rw [cut, Function.update_self]
    exact Finset.card_lt_card (Finset.inter_subset_left.ssubset_of_ne proper)

/-- A box that a split leaves whole is a smaller one than the other. -/
theorem extents_lt_of_subset {v w : ι → Finset α} {d : ι} (splits : Splits v w d)
    (whole : v d ∩ w d = v d) : extents v < extents w := by
  refine ⟨d, fun e before => congrArg Finset.card (splits.1 e before), ?_⟩
  exact Finset.card_lt_card ((Finset.inter_eq_left.mp whole).ssubset_of_ne splits.2.1)

theorem cut_whole {v w : ι → Finset α} {d : ι} (whole : v d ∩ w d = v d) : cut v w d = v := by
  rw [cut, whole, Function.update_eq_self]

/-- One of the boxes that lose points is at least as large as all the others of these, and
the round removes it. -/
theorem largest_removed [WellFoundedLT ι] {boxes : Finset (ι → Finset α)}
    (split : ∃ v ∈ boxes, ∃ w ∈ boxes, ∃ d, Splits v w d) :
    ∃ z ∈ boxes, z ∉ nextBoxes (boxes : Set (ι → Finset α)) ∧
      ∀ v ∈ boxes, ∀ w ∈ boxes, ∀ d, Splits v w d → v d ∩ w d ≠ v d → extents v ≤ extents z := by
  classical
  let proper := boxes.filter fun v => ∃ w ∈ boxes, ∃ d, Splits v w d ∧ v d ∩ w d ≠ v d
  have mem {v w : ι → Finset α} {d : ι} (memberV : v ∈ boxes) (memberW : w ∈ boxes)
      (splits : Splits v w d) (loses : v d ∩ w d ≠ v d) : v ∈ proper :=
    Finset.mem_filter.mpr ⟨memberV, w, memberW, d, splits, loses⟩
  have some : proper.Nonempty := by
    obtain ⟨v, memberV, w, memberW, d, splits⟩ := split
    by_cases whole : v d ∩ w d = v d
    · refine ⟨w, mem memberW memberV splits.symm fun other => splits.2.1 ?_⟩
      rw [← whole, Finset.inter_comm, other]
    · exact ⟨v, mem memberV memberW splits whole⟩
  obtain ⟨z, member, largest⟩ := proper.exists_max_image extents some
  obtain ⟨memberZ, x, memberX, g, splitsX, _⟩ := Finset.mem_filter.mp member
  refine ⟨z, memberZ, ?_, fun v memberV w memberW d splits loses =>
    largest v (mem memberV memberW splits loses)⟩
  rintro ⟨v, memberV, ⟨w, memberW, d, splits, rfl⟩ | ⟨rfl, unsplit⟩⟩
  · by_cases whole : v d ∩ w d = v d
    · have loses : w d ∩ v d ≠ w d := fun other => splits.2.1 (by
        rw [← whole, Finset.inter_comm, other])
      have bound := largest w (mem memberW memberV splits.symm loses)
      rw [cut_whole whole] at bound
      exact absurd (extents_lt_of_subset splits whole) bound.not_gt
    · exact absurd (extents_cut_lt whole) (largest v (mem memberV memberW splits whole)).not_gt
  · exact unsplit x memberX g splitsX

theorem weight_next [WellFoundedLT ι] (boxes boxes' : Finset (ι → Finset α))
    (next : (boxes' : Set (ι → Finset α)) = nextBoxes boxes)
    (split : ∃ v ∈ boxes, ∃ w ∈ boxes, ∃ d, Splits v w d) :
    (weight boxes').IsDershowitzMannaLT (weight boxes) := by
  classical
  obtain ⟨z, memberZ, removed, largest⟩ := largest_removed split
  have mem (u : ι → Finset α) : u ∈ boxes' ↔ u ∈ nextBoxes (boxes : Set (ι → Finset α)) := by
    rw [← next, Finset.mem_coe]
  have kept : boxes'.filter (· ∈ boxes) = boxes.filter (· ∈ boxes') := by
    ext u
    simp only [Finset.mem_filter, and_comm]
  have parts (left right : Finset (ι → Finset α)) : weight left =
      weight (left.filter (· ∈ right)) + weight (left.filter (· ∉ right)) := by
    rw [weight, weight, weight, ← Multiset.map_add, Finset.filter_val, Finset.filter_val,
      Multiset.filter_add_not]
  have gone : extents z ∈ weight (boxes.filter (· ∉ boxes')) :=
    Multiset.mem_map_of_mem _ (Finset.mem_filter.mpr ⟨memberZ, fun found =>
      removed ((mem z).mp found)⟩)
  refine ⟨weight (boxes.filter (· ∈ boxes')), weight (boxes'.filter (· ∉ boxes)),
    weight (boxes.filter (· ∉ boxes')), ?_, ?_, parts boxes boxes', ?_⟩
  · intro none
    simp [none] at gone
  · rw [← kept]
    exact parts boxes' boxes
  · intro y new
    obtain ⟨u, memberU, rfl⟩ := Multiset.mem_map.mp new
    obtain ⟨inNext, fresh⟩ := Finset.mem_filter.mp memberU
    refine ⟨extents z, gone, ?_⟩
    obtain ⟨v, memberV, ⟨w, memberW, d, splits, rfl⟩ | ⟨rfl, _⟩⟩ := (mem u).mp inNext
    · have loses : v d ∩ w d ≠ v d := fun whole => fresh ((cut_whole whole).symm ▸ memberV)
      exact (extents_cut_lt loses).trans_le (largest v memberV w memberW d splits loses)
    · exact absurd memberV fresh

end Termination

end Sac2c.BoxSplitting
