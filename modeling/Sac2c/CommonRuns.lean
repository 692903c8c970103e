import Mathlib.Algebra.Order.Group.Unbundled.Int
import Mathlib.Algebra.Order.Ring.Int
import Mathlib.Logic.Function.Basic
import Mathlib.Tactic.Common
import Sac2c.CollectedPieces

/-!
Runs of marked positions in one period, and the pieces a box falls into when each dimension is
cut at its runs. A run starts at a marked position and goes on to the next one that is not
marked; the search skips that one. A piece has the steps of the box.
-/

namespace Sac2c.CommonRuns

open CollectedPieces

section Search

/-- The first position behind `dc` that is not marked or not in the period. -/
def runEnd (common : Int → Bool) (step : Int) : Nat → Int → Int
  | 0, dc => dc
  | fuel + 1, dc =>
      if common (dc + 1) ∧ dc + 1 < step then runEnd common step fuel (dc + 1) else dc + 1

/-- The runs from `dc` on, each with its first position and the one behind its last. -/
def runs (common : Int → Bool) (step : Int) : Nat → Int → List (Int × Int)
  | 0, _ => []
  | fuel + 1, dc =>
      if dc < step then
        if common dc then
          let last := runEnd common step (fuel + 1) dc
          (dc, last) :: runs common step fuel (last + 1)
        else runs common step fuel (dc + 1)
      else []

variable {State : Type}

/-- The search with a state that each run changes: `enter` when it is found and `visit` if it
starts inside. The first one that does not ends the search. -/
def searchRuns (common : Int → Bool) (step : Int) (enter : Int → Int → State → State)
    (inside : State → Int → Bool) (visit : Int → Int → State → State) :
    Nat → Int → State → State
  | 0, _, state => state
  | fuel + 1, dc, state =>
      if dc < step then
        if common dc then
          let last := runEnd common step (fuel + 1) dc
          let state := enter dc last state
          if inside state dc then
            searchRuns common step enter inside visit fuel (last + 1) (visit dc last state)
          else state
        else searchRuns common step enter inside visit fuel (dc + 1) state
      else state

variable {common : Int → Bool} {step : Int}

theorem run_end_spec (common : Int → Bool) {fuel : Nat} {dc : Int} (enough : step - dc ≤ fuel)
    (within : dc < step) :
    dc < runEnd common step fuel dc ∧ runEnd common step fuel dc ≤ step ∧
      (∀ p, dc < p → p < runEnd common step fuel dc → common p) ∧
      (runEnd common step fuel dc < step → ¬ common (runEnd common step fuel dc)) := by
  induction fuel generalizing dc with
  | zero => omega
  | succ fuel ih =>
      simp only [runEnd]
      split
      next more =>
        obtain ⟨behind, bound, marked, stop⟩ := ih (show step - (dc + 1) ≤ fuel by omega) more.2
        refine ⟨by omega, bound, fun p after before => ?_, stop⟩
        by_cases here : p = dc + 1
        · exact here ▸ more.1
        · exact marked p (by omega) before
      next ends =>
        exact ⟨by omega, by omega, fun p after before => by omega,
          fun inside mark => ends ⟨mark, inside⟩⟩

/-- A run of the period that starts at `dc` or later. -/
structure IsRun (common : Int → Bool) (step dc : Int) (run : Int × Int) : Prop where
  starts : dc ≤ run.1
  nonempty : run.1 < run.2
  bound : run.2 ≤ step
  marked : ∀ p, run.1 ≤ p → p < run.2 → common p

theorem IsRun.earlier {dc dc' : Int} {run : Int × Int} (isRun : IsRun common step dc run)
    (before : dc' ≤ dc) : IsRun common step dc' run :=
  { isRun with starts := before.trans isRun.starts }

theorem first_run {fuel : Nat} {dc : Int} (enough : step - dc ≤ fuel) (within : dc < step)
    (mark : common dc) : IsRun common step dc (dc, runEnd common step fuel dc) := by
  obtain ⟨behind, bound, marked, -⟩ := run_end_spec common enough within
  refine ⟨Int.le_refl dc, behind, bound, fun p after before => ?_⟩
  rcases Int.lt_or_eq_of_le after with after | rfl
  · exact marked p after before
  · exact mark

theorem runs_are_runs {fuel : Nat} {dc : Int} (enough : step - dc ≤ fuel) :
    ∀ run ∈ runs common step fuel dc, IsRun common step dc run := by
  induction fuel generalizing dc with
  | zero => simp [runs]
  | succ fuel ih =>
      intro run member
      simp only [runs] at member
      split at member
      next within =>
        split at member
        next mark =>
          have first := first_run enough within mark
          have behind := first.nonempty
          rcases List.mem_cons.mp member with rfl | member
          · exact first
          · exact (ih (by simp only at behind; omega) run member).earlier
              (by simp only at behind; omega)
        next => exact (ih (by omega) run member).earlier (by omega)
      next => simp at member

/-- Every marked position is in a run. -/
theorem runs_cover {fuel : Nat} {dc p : Int} (enough : step - dc ≤ fuel) (after : dc ≤ p)
    (before : p < step) (mark : common p) :
    ∃ run ∈ runs common step fuel dc, run.1 ≤ p ∧ p < run.2 := by
  induction fuel generalizing dc with
  | zero => omega
  | succ fuel ih =>
      have within : dc < step := by omega
      simp only [runs, if_pos within]
      split
      next =>
        obtain ⟨behind, -, -, stop⟩ := run_end_spec common enough within
        by_cases inside : p < runEnd common step (fuel + 1) dc
        · exact ⟨_, List.mem_cons_self, after, inside⟩
        · -- the position behind the run is skipped, but it is not marked
          have skipped : p ≠ runEnd common step (fuel + 1) dc := by
            rintro rfl
            exact stop before mark
          have rest : step - (runEnd common step (fuel + 1) dc + 1) ≤ fuel := by omega
          obtain ⟨run, member, inRun⟩ := ih rest (by omega)
          exact ⟨run, List.mem_cons_of_mem _ member, inRun⟩
      next unmarked =>
        have other : p ≠ dc := by
          rintro rfl
          exact unmarked mark
        exact ih (by omega) (by omega)

/-- The runs come one behind the other. -/
theorem runs_ordered {fuel : Nat} {dc : Int} (enough : step - dc ≤ fuel) :
    (runs common step fuel dc).Pairwise fun run next => run.2 < next.1 := by
  induction fuel generalizing dc with
  | zero => simp [runs]
  | succ fuel ih =>
      simp only [runs]
      split
      next within =>
        split
        next mark =>
          have behind := (first_run enough within mark).nonempty
          simp only at behind
          refine List.Pairwise.cons (fun next member => ?_) (ih (by omega))
          have starts := (runs_are_runs (by omega) next member).starts
          simp only
          omega
        next => exact ih (by omega)
      next => exact List.Pairwise.nil

/-- The search visits the runs up to the first one that does not start inside, if the visits do
not move that end. -/
theorem search_runs_eq {Out : Type} (Kept : State → Prop) (out : State → Out)
    (act : Out → Int × Int → Out) (within : Int → Bool)
    {enter visit : Int → Int → State → State} {inside : State → Int → Bool}
    (entered : ∀ first last state, Kept state →
      Kept (enter first last state) ∧ out (enter first last state) = out state)
    (same : ∀ state first, Kept state → inside state first = within first)
    (visited : ∀ first last state, Kept state →
      Kept (visit first last (enter first last state)) ∧
        out (visit first last (enter first last state)) = act (out state) (first, last))
    {fuel : Nat} {dc : Int} {state : State} (start : Kept state) :
    Kept (searchRuns common step enter inside visit fuel dc state) ∧
      out (searchRuns common step enter inside visit fuel dc state) =
        ((runs common step fuel dc).takeWhile fun run => within run.1).foldl act (out state) := by
  induction fuel generalizing dc state with
  | zero => exact ⟨start, rfl⟩
  | succ fuel ih =>
      simp only [searchRuns, runs]
      split
      next =>
        split
        next =>
          obtain ⟨kept, unchanged⟩ := entered dc (runEnd common step (fuel + 1) dc) state start
          rw [same _ dc kept, List.takeWhile_cons]
          split
          · obtain ⟨kept, changed⟩ := visited dc (runEnd common step (fuel + 1) dc) state start
            rw [List.foldl_cons, ← changed]
            exact ih kept
          · exact ⟨kept, unchanged⟩
        next => exact ih start
      next => exact ⟨start, rfl⟩

end Search

section Pieces

/-- A box with a step and a width in each dimension. -/
@[ext]
structure Stepped (n : Nat) where
  l : Fin n → Int
  u : Fin n → Int
  step : Fin n → Int
  width : Fin n → Int

variable {n : Nat}

/-- The part of the box in one run of a dimension. -/
def Stepped.cut (base : Stepped n) (dim : Fin n) (run : Int × Int) : Stepped n :=
  { base with
    l := Function.update base.l dim (base.l dim + run.1)
    width := Function.update base.width dim (run.2 - run.1) }

/-- The runs of a dimension that start in the box. -/
def cuts (common : Int → Bool) (base : Stepped n) (dim : Fin n) : List (Int × Int) :=
  (runs common (base.step dim) (base.step dim).toNat 0).takeWhile
    fun run => decide (base.l dim + run.1 < base.u dim)

/-- The pieces of a box that is cut in the dimensions of the list. -/
def pieces (common : Fin n → Int → Bool) : List (Fin n) → Stepped n → List (Stepped n)
  | [], base => [base]
  | dim :: inner, base =>
      (cuts (common dim) base dim).flatMap fun run => pieces common inner (base.cut dim run)

/-- The integers of an interval that a grid picks. -/
def Within (l u step width i : Int) : Prop := l ≤ i ∧ i < u ∧ (i - l) % step < width

def Stepped.Has (box : Stepped n) (dim : Fin n) (i : Int) : Prop :=
  Within (box.l dim) (box.u dim) (box.step dim) (box.width dim) i

def Stepped.Contains (box : Stepped n) (iv : Fin n → Int) : Prop :=
  ∀ dim, box.Has dim (iv dim)

/-- An integer of the box at a marked position of the period. -/
def Marks (mark : Int → Bool) (base : Stepped n) (dim : Fin n) (i : Int) : Prop :=
  base.l dim ≤ i ∧ i < base.u dim ∧ mark ((i - base.l dim) % base.step dim)

variable {common : Fin n → Int → Bool} {base : Stepped n}

@[simp] theorem cut_u (dim : Fin n) (run : Int × Int) : (base.cut dim run).u = base.u := rfl

@[simp] theorem cut_step (dim : Fin n) (run : Int × Int) :
    (base.cut dim run).step = base.step := rfl

@[simp] theorem cut_l_self (dim : Fin n) (run : Int × Int) :
    (base.cut dim run).l dim = base.l dim + run.1 := by
  simp [Stepped.cut]

@[simp] theorem cut_width_self (dim : Fin n) (run : Int × Int) :
    (base.cut dim run).width dim = run.2 - run.1 := by
  simp [Stepped.cut]

theorem cut_l_other {dim other : Fin n} (run : Int × Int) (apart : other ≠ dim) :
    (base.cut dim run).l other = base.l other := by
  simp [Stepped.cut, apart]

theorem cut_width_other {dim other : Fin n} (run : Int × Int) (apart : other ≠ dim) :
    (base.cut dim run).width other = base.width other := by
  simp [Stepped.cut, apart]

theorem cut_has_other {dim other : Fin n} {i : Int} (run : Int × Int) (apart : other ≠ dim) :
    (base.cut dim run).Has other i ↔ base.Has other i := by
  simp [Stepped.Has, Within, cut_l_other run apart, cut_width_other run apart]

theorem cut_marks_other {dim other : Fin n} {mark : Int → Bool} {i : Int} (run : Int × Int)
    (apart : other ≠ dim) :
    Marks mark (base.cut dim run) other i ↔ Marks mark base other i := by
  simp [Marks, cut_l_other run apart]

/-- The residues of a run, counted from its first position. -/
theorem residue_in_run {j step first last : Int} (positive : 0 < step) (starts : 0 ≤ first)
    (nonempty : first < last) (bound : last ≤ step) :
    (j - first) % step < last - first ↔ first ≤ j % step ∧ j % step < last := by
  have low := Int.emod_nonneg j positive.ne'
  have high := Int.emod_lt_of_pos j positive
  have reduced : (j - first) % step = (j % step - first) % step := by
    rw [Int.emod_sub_emod]
  rw [reduced]
  by_cases before : j % step < first
  · have wrapped : (j % step - first) % step = j % step - first + step := by
      rw [← Int.add_emod_right]
      exact Int.emod_eq_of_lt (by omega) (by omega)
    omega
  · rw [Int.emod_eq_of_lt (by omega) (by omega)]
    omega

/-- A residue from `t` on, where `l` is the start of a period of several steps. -/
theorem residue_from {step period : Int} (divides : step ∣ period) (i l t : Int) :
    ((i - l) % period + (l - t) % step) % step = (i - t) % step := by
  have whole : i - l + (l - t) = i - t := by omega
  rw [Int.add_emod, Int.emod_emod_of_dvd _ divides, Int.emod_emod_of_dvd _ (Int.dvd_refl step),
    ← Int.add_emod, whole]

theorem cut_has_self {dim : Fin n} {mark : Int → Bool} {run : Int × Int} {i : Int}
    (isRun : IsRun mark (base.step dim) 0 run) :
    (base.cut dim run).Has dim i ↔
      base.l dim ≤ i ∧ i < base.u dim ∧ run.1 ≤ (i - base.l dim) % base.step dim ∧
        (i - base.l dim) % base.step dim < run.2 := by
  have starts := isRun.starts
  have nonempty := isRun.nonempty
  have bound := isRun.bound
  have residue := residue_in_run (j := i - base.l dim) (by omega) starts nonempty bound
  have below : 0 ≤ i - base.l dim → (i - base.l dim) % base.step dim ≤ i - base.l dim := by
    intro nonneg
    have split := Int.emod_add_mul_ediv (i - base.l dim) (base.step dim)
    have periods : 0 ≤ base.step dim * ((i - base.l dim) / base.step dim) :=
      Int.mul_nonneg (by omega) (Int.ediv_nonneg nonneg (by omega))
    omega
  simp only [Stepped.Has, Within, cut_u, cut_step, cut_l_self, cut_width_self, ← Int.sub_sub,
    residue]
  constructor
  · rintro ⟨low, high, inRun⟩
    exact ⟨by omega, high, inRun⟩
  · rintro ⟨low, high, inRun⟩
    have := below (by omega)
    exact ⟨by omega, high, inRun⟩

theorem cuts_are_runs {mark : Int → Bool} {dim : Fin n} :
    ∀ run ∈ cuts mark base dim, IsRun mark (base.step dim) 0 run :=
  fun run member => runs_are_runs (by omega) run (List.takeWhile_subset _ member)

theorem cuts_ordered {mark : Int → Bool} {dim : Fin n} :
    (cuts mark base dim).Pairwise fun run next => run.2 < next.1 :=
  (runs_ordered (by omega)).sublist (List.takeWhile_sublist _)

/-- An ordered list is left at the first element that fails, so nothing that holds is lost. -/
theorem mem_take_while_of_ordered {Elem : Type} {rel : Elem → Elem → Prop} {holds : Elem → Bool}
    {elems : List Elem} {elem : Elem} (ordered : elems.Pairwise rel)
    (back : ∀ a ∈ elems, ∀ b, rel a b → holds b → holds a) (member : elem ∈ elems)
    (here : holds elem) : elem ∈ elems.takeWhile holds := by
  induction ordered with
  | nil => cases member
  | @cons first rest before _ ih =>
      rcases List.mem_cons.mp member with rfl | member
      · rw [List.takeWhile_cons, if_pos here]
        exact List.mem_cons_self
      · have start := back first List.mem_cons_self elem (before elem member) here
        rw [List.takeWhile_cons, if_pos start]
        exact List.mem_cons_of_mem _
          (ih (fun a within => back a (List.mem_cons_of_mem first within)) member)

theorem cuts_cover {mark : Int → Bool} {dim : Fin n} {i : Int} (positive : 0 < base.step dim)
    (marks : Marks mark base dim i) :
    ∃ run ∈ cuts mark base dim, (base.cut dim run).Has dim i := by
  obtain ⟨low, high, here⟩ := marks
  have enough : base.step dim - 0 ≤ (base.step dim).toNat := by omega
  obtain ⟨run, member, inRun⟩ := runs_cover enough (Int.emod_nonneg _ positive.ne')
    (Int.emod_lt_of_pos _ positive) here
  have isRun := runs_are_runs enough run member
  have has := (cut_has_self isRun).mpr ⟨low, high, inRun⟩
  refine ⟨run, mem_take_while_of_ordered (runs_ordered enough) (fun a within b before inside => ?_)
    member ?_, has⟩
  · -- a run in front of one that starts inside does so too
    have nonempty := (runs_are_runs enough a within).nonempty
    simp only [decide_eq_true_eq] at inside ⊢
    omega
  · have start := has.1
    simp only [cut_l_self] at start
    simp only [decide_eq_true_eq]
    omega

/-- The pieces have just the marked elements of the box. -/
theorem pieces_exact {dims : List (Fin n)} (once : dims.Nodup) (positive : ∀ dim, 0 < base.step dim)
    {iv : Fin n → Int} :
    (∃ piece ∈ pieces common dims base, piece.Contains iv) ↔
      (∀ dim ∈ dims, Marks (common dim) base dim (iv dim)) ∧
        ∀ dim ∉ dims, base.Has dim (iv dim) := by
  induction dims generalizing base with
  | nil => simp [pieces, Stepped.Contains]
  | cons dim inner ih =>
      obtain ⟨fresh, once⟩ := List.nodup_cons.mp once
      have others (run : Int × Int) {other : Fin n} (within : other ∈ inner) : other ≠ dim := by
        rintro rfl
        exact fresh within
      have deeper (run : Int × Int) : (∃ piece ∈ pieces common inner (base.cut dim run),
          piece.Contains iv) ↔ (base.cut dim run).Has dim (iv dim) ∧
            (∀ other ∈ inner, Marks (common other) base other (iv other)) ∧
              ∀ other ∉ dim :: inner, base.Has other (iv other) := by
        have steps : ∀ other, 0 < (base.cut dim run).step other := positive
        rw [ih once steps]
        constructor
        · rintro ⟨marks, has⟩
          refine ⟨has dim fresh, fun other within => ?_, fun other outside => ?_⟩
          · exact (cut_marks_other run (others run within)).mp (marks other within)
          · obtain ⟨apart, outside⟩ := not_or.mp (mt List.mem_cons.mpr outside)
            exact (cut_has_other run apart).mp (has other outside)
        · rintro ⟨here, marks, has⟩
          refine ⟨fun other within => ?_, fun other outside => ?_⟩
          · exact (cut_marks_other run (others run within)).mpr (marks other within)
          · by_cases same : other = dim
            · exact same ▸ here
            · refine (cut_has_other run same).mpr (has other fun within => ?_)
              exact (List.mem_cons.mp within).elim same outside
      simp only [pieces, List.mem_flatMap]
      constructor
      · rintro ⟨piece, ⟨run, cut, member⟩, contains⟩
        obtain ⟨here, marks, has⟩ := (deeper run).mp ⟨piece, member, contains⟩
        obtain ⟨low, high, inRun⟩ := (cut_has_self (cuts_are_runs run cut)).mp here
        refine ⟨fun other within => ?_, has⟩
        rcases List.mem_cons.mp within with rfl | within
        · exact ⟨low, high, (cuts_are_runs run cut).marked _ inRun.1 inRun.2⟩
        · exact marks other within
      · rintro ⟨marks, has⟩
        obtain ⟨run, cut, here⟩ := cuts_cover (positive dim) (marks dim List.mem_cons_self)
        obtain ⟨piece, member, contains⟩ := (deeper run).mpr
          ⟨here, fun other within => marks other (List.mem_cons_of_mem dim within), has⟩
        exact ⟨piece, ⟨run, cut, member⟩, contains⟩

/-- The pieces are apart. -/
theorem pieces_apart {dims : List (Fin n)} (once : dims.Nodup)
    (positive : ∀ dim, 0 < base.step dim) :
    Apart Stepped.Contains (pieces common dims base) := by
  induction dims generalizing base with
  | nil => exact List.pairwise_singleton _ _
  | cons dim inner ih =>
      obtain ⟨fresh, once⟩ := List.nodup_cons.mp once
      rw [pieces, Apart, List.pairwise_flatMap]
      refine ⟨fun run _ => ih once positive, ?_⟩
      refine cuts_ordered.imp_of_mem fun {run next} cut cut' before => ?_
      intro piece member other member' iv contains contains'
      have inRun {run : Int × Int} (cut : run ∈ cuts (common dim) base dim) {piece : Stepped n}
          (member : piece ∈ pieces common inner (base.cut dim run))
          (contains : piece.Contains iv) :=
        have steps : ∀ other, 0 < (base.cut dim run).step other := positive
        (cut_has_self (cuts_are_runs run cut)).mp
          (((pieces_exact once steps).mp ⟨piece, member, contains⟩).2 dim fresh)
      have first := inRun cut member contains
      have second := inRun cut' member' contains'
      omega

/-- A piece has the upper bounds and the steps of the box, and a width of its own in each
dimension that is cut. -/
theorem pieces_shape {dims : List (Fin n)} {piece : Stepped n}
    (member : piece ∈ pieces common dims base) :
    piece.u = base.u ∧ piece.step = base.step ∧
      (∀ dim ∈ dims, 1 ≤ piece.width dim ∧ piece.width dim ≤ base.step dim) ∧
        ∀ dim ∉ dims, piece.width dim = base.width dim := by
  induction dims generalizing base with
  | nil =>
      cases List.mem_singleton.mp member
      simp
  | cons dim inner ih =>
      obtain ⟨run, cut, member⟩ := List.mem_flatMap.mp member
      obtain ⟨upper, step, widths, others⟩ := ih member
      refine ⟨upper, step, fun other within => ?_, fun other outside => ?_⟩
      · by_cases deeper : other ∈ inner
        · exact widths other deeper
        · have here : other = dim := (List.mem_cons.mp within).resolve_right deeper
          subst here
          obtain ⟨starts, nonempty, bound, -⟩ := cuts_are_runs run cut
          rw [others other deeper, cut_width_self]
          omega
      · obtain ⟨apart, outside⟩ := not_or.mp (mt List.mem_cons.mpr outside)
        rw [others other outside, cut_width_other run apart]

/-- A reference box that is as before, up to the widths where it is cut. -/
structure Restored (dims : List (Fin n)) (base box : Stepped n) : Prop where
  l : box.l = base.l
  u : box.u = base.u
  step : box.step = base.step
  width : ∀ dim ∉ dims, box.width dim = base.width dim

theorem Restored.refl (dims : List (Fin n)) (base : Stepped n) : Restored dims base base :=
  ⟨rfl, rfl, rfl, fun _ _ => rfl⟩

theorem Restored.cut {box : Stepped n} {dim : Fin n} {inner : List (Fin n)}
    (restored : Restored (dim :: inner) base box) (run : Int × Int) :
    Restored inner (base.cut dim run) (box.cut dim run) := by
  refine ⟨?_, restored.u, restored.step, fun other outside => ?_⟩
  · simp [Stepped.cut, restored.l]
  · by_cases same : other = dim
    · subst same
      simp
    · rw [cut_width_other run same, cut_width_other run same]
      exact restored.width other fun within => (List.mem_cons.mp within).elim same outside

/-- The width of a dimension may be written while it is cut. -/
theorem Restored.widen {box : Stepped n} {dim : Fin n} {inner : List (Fin n)}
    (restored : Restored (dim :: inner) base box) (width : Int) :
    Restored (dim :: inner) base { box with width := Function.update box.width dim width } := by
  refine ⟨restored.l, restored.u, restored.step, fun other outside => ?_⟩
  obtain ⟨apart, -⟩ := not_or.mp (mt List.mem_cons.mpr outside)
  rw [← restored.width other outside]
  exact Function.update_of_ne apart _ _

/-- The widths do not matter where the box is cut. -/
theorem Restored.pieces_eq {dims : List (Fin n)} {box : Stepped n}
    (restored : Restored dims base box) : pieces common dims box = pieces common dims base := by
  induction dims generalizing base box with
  | nil =>
      have same : box = base := Stepped.ext restored.l restored.u restored.step
        (funext fun dim => restored.width dim (by simp))
      rw [same]
  | cons dim inner ih =>
      have same : cuts (common dim) box dim = cuts (common dim) base dim := by
        rw [cuts, cuts, restored.l, restored.u, restored.step]
      rw [pieces, pieces, same]
      congr 1
      funext run
      exact ih (restored.cut run)

/-- The lower bound of a dimension is set back behind its inner dimensions. -/
theorem Restored.uncut {box inside : Stepped n} {dim : Fin n} {inner : List (Fin n)}
    (restored : Restored (dim :: inner) base box) {run : Int × Int}
    (deeper : Restored inner (box.cut dim run) inside) :
    Restored (dim :: inner) base
      { inside with l := Function.update inside.l dim (inside.l dim - run.1) } := by
  refine ⟨?_, deeper.u.trans restored.u, deeper.step.trans restored.step, fun other outside => ?_⟩
  · have back : Function.update (box.cut dim run).l dim ((box.cut dim run).l dim - run.1) =
        base.l := by
      simp [Stepped.cut, restored.l]
    rwa [← deeper.l] at back
  · obtain ⟨apart, outside'⟩ := not_or.mp (mt List.mem_cons.mpr outside)
    have kept := deeper.width other outside'
    rw [cut_width_other run apart] at kept
    exact kept.trans (restored.width other outside)

/-- A dimension of the recursion over a reference box: if each run handles the pieces of its own
part, the search handles them all. -/
theorem search_pieces {State Out : Type} (Kept : State → Prop) (out : State → Out)
    (emit : Out → Stepped n → Out) {dim : Fin n} {inner : List (Fin n)}
    {enter visit : Int → Int → State → State} {inside : State → Int → Bool}
    (entered : ∀ first last state, Kept state →
      Kept (enter first last state) ∧ out (enter first last state) = out state)
    (same : ∀ state first, Kept state →
      inside state first = decide (base.l dim + first < base.u dim))
    (visited : ∀ first last state, Kept state →
      Kept (visit first last (enter first last state)) ∧
        out (visit first last (enter first last state)) =
          (pieces common inner (base.cut dim (first, last))).foldl emit (out state))
    {state : State} (start : Kept state) :
    Kept (searchRuns (common dim) (base.step dim) enter inside visit (base.step dim).toNat 0
        state) ∧
      out (searchRuns (common dim) (base.step dim) enter inside visit (base.step dim).toNat 0
          state) =
        (pieces common (dim :: inner) base).foldl emit (out state) := by
  rw [pieces, List.foldl_flatMap]
  exact search_runs_eq Kept out
    (fun found run => (pieces common inner (base.cut dim run)).foldl emit found)
    (fun first => decide (base.l dim + first < base.u dim)) entered same visited start

end Pieces

section Intersection

variable {n : Nat} {l u l' u' : Fin n → Int}

/-- The bounds of the intersection of two boxes, written up to the first dimension where it is
empty. -/
def intersectBounds (l u l' u' : Fin n → Int) : List (Fin n) → Stepped n → Stepped n × Bool
  | [], box => (box, true)
  | d :: dims, box =>
      let low := max (l d) (l' d)
      let high := min (u d) (u' d)
      if low ≥ high then (box, false)
      else
        intersectBounds l u l' u' dims
          { box with l := Function.update box.l d low, u := Function.update box.u d high }

theorem intersect_bounds_complete {dims : List (Fin n)} {box : Stepped n} :
    (intersectBounds l u l' u' dims box).2 = true ↔
      ∀ d ∈ dims, max (l d) (l' d) < min (u d) (u' d) := by
  induction dims generalizing box with
  | nil => simp [intersectBounds]
  | cons d dims ih =>
      rw [intersectBounds, List.forall_mem_cons]
      split
      · simp only [Bool.false_eq_true, false_iff]
        rintro ⟨some_, -⟩
        omega
      · rw [ih]
        exact ⟨fun rest => ⟨by omega, rest⟩, fun all => all.2⟩

theorem intersect_bounds_others {dims : List (Fin n)} {box : Stepped n} {d : Fin n}
    (outside : d ∉ dims) :
    (intersectBounds l u l' u' dims box).1.l d = box.l d ∧
      (intersectBounds l u l' u' dims box).1.u d = box.u d := by
  induction dims generalizing box with
  | nil => exact ⟨rfl, rfl⟩
  | cons other dims ih =>
      obtain ⟨apart, outside⟩ := not_or.mp (mt List.mem_cons.mpr outside)
      rw [intersectBounds]
      split
      · exact ⟨rfl, rfl⟩
      · obtain ⟨low, high⟩ := ih outside
        refine ⟨low.trans ?_, high.trans ?_⟩ <;> simp [apart]

/-- The bounds in all dimensions, if they were all written. -/
theorem intersect_bounds_written {dims : List (Fin n)} {box : Stepped n}
    (complete : (intersectBounds l u l' u' dims box).2 = true) {d : Fin n} (inside : d ∈ dims) :
    (intersectBounds l u l' u' dims box).1.l d = max (l d) (l' d) ∧
      (intersectBounds l u l' u' dims box).1.u d = min (u d) (u' d) := by
  induction dims generalizing box with
  | nil => cases inside
  | cons other dims ih =>
      rw [intersectBounds] at complete ⊢
      split at complete
      · cases complete
      · rename_i some_
        rw [if_neg some_]
        by_cases deeper : d ∈ dims
        · exact ih complete deeper
        · have here : d = other := (List.mem_cons.mp inside).resolve_right deeper
          subst here
          obtain ⟨low, high⟩ := intersect_bounds_others deeper
          refine ⟨low.trans ?_, high.trans ?_⟩ <;> simp

variable {base : Stepped n} {dim : Fin n} {low high step width low' high' step' width' : Int}

/-- The marked elements of the box of both bounds are those of both grids, if the marks are their
common positions in a period of both. -/
theorem marks_iff {mark : Int → Bool} (positive : 0 < base.step dim)
    (l : base.l dim = max low low') (u : base.u dim = min high high')
    (divides : step ∣ base.step dim) (divides' : step' ∣ base.step dim)
    (marks : ∀ j, 0 ≤ j → (mark j ↔
      (j + (base.l dim - low) % step) % step < width ∧
        (j + (base.l dim - low') % step') % step' < width')) {i : Int} :
    Marks mark base dim i ↔ Within low high step width i ∧ Within low' high' step' width' i := by
  rw [Marks, marks _ (Int.emod_nonneg _ positive.ne'), residue_from divides,
    residue_from divides', Within, Within]
  omega

/-- Without grids the box of both bounds has what both have. -/
theorem plain_iff {l u i : Int} (lower : l = max low low') (upper : u = min high high') :
    Within l u 1 1 i ↔ Within low high 1 1 i ∧ Within low' high' 1 1 i := by
  simp only [Within, Int.emod_one]
  omega

/-- Nothing is in both boxes where the bounds are not all written. -/
theorem empty_of_incomplete {dims : List (Fin n)} {box : Stepped n}
    (incomplete : ¬ (intersectBounds l u l' u' dims box).2 = true) (iv : Fin n → Int) :
    ¬ ((∀ dim, l dim ≤ iv dim ∧ iv dim < u dim) ∧ ∀ dim, l' dim ≤ iv dim ∧ iv dim < u' dim) := by
  rintro ⟨inside, inside'⟩
  refine incomplete (intersect_bounds_complete.mpr fun d _ => ?_)
  have := inside d
  have := inside' d
  omega

/-- The pieces of a box are its common part of two things given dimension by dimension. -/
theorem pieces_collected {Source : Type} {points : Source → (Fin n → Int) → Prop}
    {source : Source} {left right : Fin n → Int → Prop}
    (both : ∀ iv, points source iv ↔ (∀ dim, left dim (iv dim)) ∧ ∀ dim, right dim (iv dim))
    {common : Fin n → Int → Bool} {dims : List (Fin n)} (all : ∀ dim, dim ∈ dims)
    (once : dims.Nodup) (positive : ∀ dim, 0 < base.step dim)
    (marks : ∀ dim i, Marks (common dim) base dim i ↔ left dim i ∧ right dim i) :
    Collected Stepped.Contains points
      (fun _ piece => ∀ dim, 1 ≤ piece.width dim ∧ piece.width dim ≤ piece.step dim)
      [source] (pieces common dims base) := by
  have exact_ (iv : Fin n → Int) :
      (∃ piece ∈ pieces common dims base, piece.Contains iv) ↔ points source iv := by
    rw [pieces_exact once positive, both]
    constructor
    · rintro ⟨here, -⟩
      exact ⟨fun dim => ((marks dim _).mp (here dim (all dim))).1,
        fun dim => ((marks dim _).mp (here dim (all dim))).2⟩
    · rintro ⟨left, right⟩
      exact ⟨fun dim _ => (marks dim _).mpr ⟨left dim, right dim⟩,
        fun dim outside => absurd (all dim) outside⟩
  refine ⟨pieces_apart once positive, fun other member iv inside => ?_, fun piece member => ?_⟩
  · exact (exact_ iv).mpr (List.mem_singleton.mp member ▸ inside)
  · obtain ⟨-, steps, widths, -⟩ := pieces_shape member
    exact ⟨source, List.mem_singleton_self source, fun dim => steps ▸ widths dim (all dim),
      fun iv inside => (exact_ iv).mp ⟨piece, member, inside⟩⟩

end Intersection

end Sac2c.CommonRuns
