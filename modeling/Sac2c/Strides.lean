import Mathlib.Data.Int.ConditionallyCompleteOrder
import Mathlib.Data.List.Nodup
import Mathlib.Tactic.Ring
import Mathlib.Tactic.Linarith
import Sac2c.Schedule

/-!
Multi-threaded strides against the sequential stride loop. The parts of
Block_DIM0 and of TS_Even are the pieces of one cut of the segment; adjusting
the bounds to a stride keeps the cut rising and moves every inner point onto the
stride's own phase, so that the loops of the pieces concatenate to the
sequential loop.
-/

namespace Sac2c.Strides

open Schedule

/-- The cut that both schedulers compute for `count` parts of `iterations`
unrolled iterations: the first `iterations % count` parts are one longer. -/
def evenCut (lower unrolling iterations : Int) (count : Nat) (index : Nat) : Int :=
  lower + (index * (iterations / count) + min (index : Int) (iterations % count)) * unrolling

theorem even_cut_first (lower unrolling iterations : Int) (count : Nat) (some : 0 < count) :
    evenCut lower unrolling iterations count 0 = lower := by
  have nonneg := Int.emod_nonneg iterations (b := (count : Int)) (by omega)
  have least : min (0 : Int) (iterations % count) = 0 := by omega
  simp [evenCut, least]

theorem even_cut_last (lower unrolling iterations : Int) (count : Nat) (some : 0 < count) :
    evenCut lower unrolling iterations count count = lower + iterations * unrolling := by
  have below := Int.emod_lt_of_pos iterations (b := (count : Int)) (by omega)
  have least : min (count : Int) (iterations % count) = iterations % count := by omega
  have whole := Int.mul_ediv_add_emod iterations count
  rw [evenCut, least, whole]

theorem even_cut_rising (lower unrolling iterations : Int) (count : Nat)
    (forward : 0 ≤ unrolling) (some : 0 ≤ iterations) :
    Monotone (evenCut lower unrolling iterations count) := by
  apply monotone_nat_of_le_succ
  intro index
  have quotient : 0 ≤ iterations / (count : Int) := Int.ediv_nonneg some (by omega)
  have longer : (index : Int) * (iterations / count) + min (index : Int) (iterations % count) ≤
      ((index + 1 : Nat) : Int) * (iterations / count) +
        min ((index + 1 : Nat) : Int) (iterations % count) := by
    push_cast
    have grown : (index : Int) * (iterations / count) ≤
        ((index : Int) + 1) * (iterations / count) := by linarith
    omega
  have scaled := Int.mul_le_mul_of_nonneg_right longer forward
  simp only [evenCut]
  omega

theorem even_cut_aligned (lower unrolling iterations : Int) (count index : Nat) :
    unrolling ∣ evenCut lower unrolling iterations count index - lower := by
  simp [evenCut]

/-- The part of every thread is the piece between two neighbouring cut points. -/
theorem block_dim0_piece (lower upper unrolling : Int) (threads selfLocalId : Nat)
    (ordered : lower ≤ upper) (forward : 1 ≤ unrolling) (inside : selfLocalId < threads) :
    blockDim0 lower upper unrolling threads selfLocalId =
      { start := evenCut lower unrolling ((upper - lower) / unrolling) threads selfLocalId
        stop := evenCut lower unrolling ((upper - lower) / unrolling) threads
          (selfLocalId + 1) } := by
  have iterations : (upper - lower).tdiv unrolling = (upper - lower) / unrolling :=
    Int.tdiv_eq_ediv_of_nonneg (by omega)
  have some : 0 ≤ (upper - lower) / unrolling := Int.ediv_nonneg (by omega) (by omega)
  have nonneg : 0 ≤ (upper - lower) / unrolling % (threads : Int) :=
    Int.emod_nonneg _ (by omega)
  simp only [blockDim0, iterations, Int.tdiv_eq_ediv_of_nonneg some,
    Int.tmod_eq_emod_of_nonneg some, evenCut]
  generalize (upper - lower) / unrolling / (threads : Int) = quotient
  generalize (upper - lower) / unrolling % (threads : Int) = rest at nonneg
  by_cases early : rest ≠ 0 ∧ (selfLocalId : Int) < rest
  · have here : min (selfLocalId : Int) rest = selfLocalId := by omega
    have next : min ((selfLocalId + 1 : Nat) : Int) rest = selfLocalId + 1 := by omega
    rw [if_pos early, here, next]
    push_cast
    congr 1 <;> ring
  · have here : min (selfLocalId : Int) rest = rest := by omega
    have next : min ((selfLocalId + 1 : Nat) : Int) rest = rest := by omega
    rw [if_neg early, here, next]
    push_cast
    congr 1 <;> ring

theorem ts_even_piece (lower upper unrolling : Int) (numTasks threads taskid : Nat)
    (ordered : lower ≤ upper) (forward : 1 ≤ unrolling) (inside : taskid < numTasks * threads) :
    tsEven lower upper unrolling numTasks threads taskid = (true,
      { start := evenCut lower unrolling ((upper - lower) / unrolling) (numTasks * threads) taskid
        stop := evenCut lower unrolling ((upper - lower) / unrolling) (numTasks * threads)
          (taskid + 1) }) := by
  have iterations : (upper - lower).tdiv unrolling = (upper - lower) / unrolling :=
    Int.tdiv_eq_ediv_of_nonneg (by omega)
  have some : 0 ≤ (upper - lower) / unrolling := Int.ediv_nonneg (by omega) (by omega)
  have known : (taskid : Int) < (numTasks : Int) * threads := by exact_mod_cast inside
  have nonneg : 0 ≤ (upper - lower) / unrolling % ((numTasks : Int) * threads) :=
    Int.emod_nonneg _ (by omega)
  simp only [tsEven, iterations, Int.tdiv_eq_ediv_of_nonneg some,
    Int.tmod_eq_emod_of_nonneg some, evenCut, if_pos known, Nat.cast_mul]
  generalize (upper - lower) / unrolling / ((numTasks : Int) * threads) = quotient
  generalize (upper - lower) / unrolling % ((numTasks : Int) * threads) = rest at nonneg
  by_cases early : rest ≠ 0 ∧ (taskid : Int) < rest
  · have here : min (taskid : Int) rest = taskid := by omega
    have next : min ((taskid + 1 : Nat) : Int) rest = taskid + 1 := by omega
    rw [if_pos early, here, next]
    push_cast
    congr 2 <;> ring
  · have here : min (taskid : Int) rest = rest := by omega
    have next : min ((taskid + 1 : Nat) : Int) rest = rest := by omega
    rw [if_neg early, here, next]
    push_cast
    congr 2 <;> ring

/-! Adjusting one bound. The moved bound is the first index on the stride's
phase that is not below the old one, capped at the end of the stride; a bound
outside the stride stays where it is. -/

theorem adjust_moved (bound lower upper unrolling : Int) :
    (adjustSchedulerBound bound lower upper unrolling).2 =
      bound + (adjustSchedulerBound bound lower upper unrolling).1 := by
  simp only [adjustSchedulerBound]
  split_ifs with inside phase
  · simp
  · simp
  · simpa using phase
  · simp

theorem adjust_outside (bound lower upper unrolling : Int)
    (outside : bound ≤ lower ∨ upper ≤ bound) :
    adjustSchedulerBound bound lower upper unrolling = (0, bound) := by
  have skipped : ¬ (lower < bound ∧ bound < upper) := by omega
  simp [adjustSchedulerBound, skipped]

theorem adjust_inside (bound lower upper unrolling : Int) (forward : 1 ≤ unrolling)
    (above : lower < bound) (below : bound < upper) :
    (adjustSchedulerBound bound lower upper unrolling).2 =
      if (bound - lower) % unrolling = 0 then bound
      else min upper (bound + (unrolling - (bound - lower) % unrolling)) := by
  have distance : (bound - lower).tmod unrolling = (bound - lower) % unrolling :=
    Int.tmod_eq_emod_of_nonneg (by omega)
  simp only [adjustSchedulerBound, above, below, and_self, ↓reduceIte, distance]
  split_ifs <;> simp <;> omega

theorem adjust_not_below (bound lower upper unrolling : Int) (forward : 1 ≤ unrolling) :
    bound ≤ (adjustSchedulerBound bound lower upper unrolling).2 := by
  by_cases inside : lower < bound ∧ bound < upper
  · rw [adjust_inside bound lower upper unrolling forward inside.1 inside.2]
    have phase := Int.emod_lt_of_pos (bound - lower) (b := unrolling) (by omega)
    split_ifs <;> omega
  · rw [adjust_outside bound lower upper unrolling (by omega)]

/-- Every adjusted bound is outside the open stride or on its phase. -/
theorem adjust_aligned (bound lower upper unrolling : Int) (forward : 1 ≤ unrolling) :
    (adjustSchedulerBound bound lower upper unrolling).2 ≤ lower ∨
      upper ≤ (adjustSchedulerBound bound lower upper unrolling).2 ∨
      unrolling ∣ (adjustSchedulerBound bound lower upper unrolling).2 - lower := by
  by_cases inside : lower < bound ∧ bound < upper
  · rw [adjust_inside bound lower upper unrolling forward inside.1 inside.2]
    by_cases phase : (bound - lower) % unrolling = 0
    · rw [if_pos phase]
      exact Or.inr (Or.inr (Int.dvd_of_emod_eq_zero phase))
    · rw [if_neg phase]
      by_cases capped : upper ≤ bound + (unrolling - (bound - lower) % unrolling)
      · exact Or.inr (Or.inl (by omega))
      · have chosen : min upper (bound + (unrolling - (bound - lower) % unrolling)) =
            bound + (unrolling - (bound - lower) % unrolling) := by omega
        have whole := Int.mul_ediv_add_emod (bound - lower) unrolling
        refine Or.inr (Or.inr ⟨(bound - lower) / unrolling + 1, ?_⟩)
        rw [chosen, Int.mul_add, Int.mul_one]
        omega
  · rw [adjust_outside bound lower upper unrolling (by omega)]
    simp only
    omega

theorem adjust_at_most_end (bound lower upper unrolling : Int) (forward : 1 ≤ unrolling)
    (below : bound < upper) :
    (adjustSchedulerBound bound lower upper unrolling).2 ≤ upper := by
  by_cases above : lower < bound
  · rw [adjust_inside bound lower upper unrolling forward above below]
    split_ifs <;> omega
  · rw [adjust_outside bound lower upper unrolling (by omega)]
    exact Int.le_of_lt below

/-- No index on the stride's phase lies between a bound and its adjustment. -/
theorem adjust_least (bound lower upper unrolling index : Int) (forward : 1 ≤ unrolling)
    (above : lower < bound) (below : bound < upper) (reached : bound ≤ index)
    (phase : unrolling ∣ index - lower) :
    (adjustSchedulerBound bound lower upper unrolling).2 ≤ index := by
  rw [adjust_inside bound lower upper unrolling forward above below]
  by_cases exact : (bound - lower) % unrolling = 0
  · rw [if_pos exact]
    exact reached
  · rw [if_neg exact]
    obtain ⟨steps, whole⟩ := phase
    have parts := Int.mul_ediv_add_emod (bound - lower) unrolling
    have positive := Int.emod_nonneg (bound - lower) (b := unrolling) (by omega)
    have passed : unrolling * ((bound - lower) / unrolling) < unrolling * steps := by omega
    have later : (bound - lower) / unrolling + 1 ≤ steps :=
      lt_of_mul_lt_mul_left passed (by omega)
    have scaled := Int.mul_le_mul_of_nonneg_left later (show 0 ≤ unrolling by omega)
    rw [Int.mul_add, Int.mul_one] at scaled
    omega

theorem adjust_rising (lower upper unrolling : Int) (forward : 1 ≤ unrolling) :
    Monotone fun bound => (adjustSchedulerBound bound lower upper unrolling).2 := by
  intro left right ordered
  simp only
  have moved := adjust_not_below right lower upper unrolling forward
  by_cases above : lower < left
  · by_cases below : left < upper
    · by_cases last : upper ≤ (adjustSchedulerBound right lower upper unrolling).2
      · exact le_trans (adjust_at_most_end left lower upper unrolling forward below) last
      · rcases adjust_aligned right lower upper unrolling forward with early | late | phase
        · omega
        · exact absurd late last
        · exact adjust_least left lower upper unrolling _ forward above below (by omega) phase
    · rw [adjust_outside left lower upper unrolling (by omega)]
      exact le_trans ordered moved
  · rw [adjust_outside left lower upper unrolling (by omega)]
    exact le_trans ordered moved

/-! Concatenating stride loops. A loop may be interrupted at any index of its own
phase, or at its end, and resumed there. -/

theorem stride_loop_append (first middle last step : Int) (forward : 1 ≤ step)
    (fromFirst : first ≤ middle) (toLast : middle ≤ last)
    (phase : middle = last ∨ step ∣ middle - first) :
    strideLoop first middle step ++ strideLoop middle last step = strideLoop first last step := by
  rcases phase with ended | phase
  · subst ended
    rw [stride_loop_past middle middle step (le_refl middle), List.append_nil]
  · by_cases same : first = middle
    · subst same
      rw [stride_loop_past first first step (le_refl first), List.nil_append]
    · obtain ⟨steps, whole⟩ := phase
      have positive : 0 < steps := by
        by_contra backward
        have turned := Int.mul_le_mul_of_nonneg_left
          (show steps ≤ 0 by omega) (show 0 ≤ step by omega)
        omega
      have stepped := Int.mul_le_mul_of_nonneg_left
        (show 1 ≤ steps by omega) (show 0 ≤ step by omega)
      have fits : first + step ≤ middle := by omega
      have rest : step ∣ middle - (first + step) := ⟨steps - 1, by rw [Int.mul_sub]; omega⟩
      have cutMiddle : min (first + step) middle = first + step := by omega
      have cutLast : min (first + step) last = first + step := by omega
      rw [stride_loop_inside first middle step forward (by omega),
        stride_loop_inside first last step forward (by omega), cutMiddle, cutLast,
        List.cons_append, stride_loop_append (first + step) middle last step forward fits toLast
          (Or.inr rest)]
termination_by (middle - first).toNat

theorem stride_loop_visits (idx stop step : Int) (forward : 1 ≤ step) (period : Period)
    (visited : period ∈ strideLoop idx stop step) :
    idx ≤ period.first ∧ period.first < stop ∧ step ∣ period.first - idx := by
  by_cases inside : idx < stop
  · rw [stride_loop_inside idx stop step forward inside] at visited
    rcases List.mem_cons.mp visited with head | tail
    · subst head
      exact ⟨le_refl idx, inside, by simp⟩
    · obtain ⟨above, below, phase⟩ :=
        stride_loop_visits (min (idx + step) stop) stop step forward period tail
      have next : min (idx + step) stop = idx + step := by omega
      rw [next] at above phase
      refine ⟨by omega, below, ?_⟩
      have shifted : period.first - idx = (period.first - (idx + step)) + step := by ring
      rw [shifted]
      exact Int.dvd_add phase (Int.dvd_refl step)
  · rw [stride_loop_past idx stop step (by omega)] at visited
    simp at visited
termination_by (stop - idx).toNat

theorem stride_loop_nodup (idx stop step : Int) (forward : 1 ≤ step) :
    (strideLoop idx stop step).Nodup := by
  by_cases inside : idx < stop
  · rw [stride_loop_inside idx stop step forward inside]
    apply List.nodup_cons.mpr
    constructor
    · intro again
      have later := (stride_loop_visits _ stop step forward _ again).1
      simp only at later
      omega
    · exact stride_loop_nodup (min (idx + step) stop) stop step forward
  · rw [stride_loop_past idx stop step (by omega)]
    exact List.nodup_nil
termination_by (stop - idx).toNat

/-- Loops over neighbouring pieces of a rising cut join to the loop over all of
them, if every cut point is on the phase or at the end. -/
theorem stride_loops_join (cut : Nat → Int) (rising : Monotone cut) (bnd2 step : Int)
    (forward : 1 ≤ step) (capped : ∀ index, cut index ≤ bnd2)
    (phase : ∀ index, cut index = bnd2 ∨ step ∣ cut index - cut 0) (count : Nat) :
    (List.range count).flatMap (fun index => strideLoop (cut index) (cut (index + 1)) step) =
      strideLoop (cut 0) (cut count) step := by
  induction count with
  | zero => simp [stride_loop_past]
  | succ count ih =>
      have below := rising (Nat.le_succ count)
      have reached : cut count = cut (count + 1) ∨ step ∣ cut count - cut 0 := by
        rcases phase count with ended | exact
        · exact Or.inl (le_antisymm below (ended ▸ capped (count + 1)))
        · exact Or.inr exact
      rw [List.range_succ, List.flatMap_append, ih]
      simp only [List.flatMap_cons, List.flatMap_nil, List.append_nil]
      exact stride_loop_append (cut 0) (cut count) (cut (count + 1)) step forward
        (rising (Nat.zero_le count)) below reached

/-- An adjusted cut point, clipped to the stride. -/
def clipped (cut : Nat → Int) (bnd1 bnd2 step : Int) (index : Nat) : Int :=
  max bnd1 (min bnd2 (adjustSchedulerBound (cut index) bnd1 bnd2 step).2)

theorem clipped_rising (cut : Nat → Int) (rising : Monotone cut) (bnd1 bnd2 step : Int)
    (forward : 1 ≤ step) : Monotone (clipped cut bnd1 bnd2 step) := by
  intro left right ordered
  have adjusted := adjust_rising bnd1 bnd2 step forward (rising ordered)
  simp only [clipped] at adjusted ⊢
  omega

theorem clipped_phase (cut : Nat → Int) (bnd1 bnd2 step : Int) (forward : 1 ≤ step)
    (nonempty : bnd1 ≤ bnd2) (index : Nat) :
    clipped cut bnd1 bnd2 step index = bnd2 ∨
      step ∣ clipped cut bnd1 bnd2 step index - bnd1 := by
  simp only [clipped]
  rcases adjust_aligned (cut index) bnd1 bnd2 step forward with early | late | phase
  · have least : max bnd1 (min bnd2 (adjustSchedulerBound (cut index) bnd1 bnd2 step).2) =
        bnd1 := by omega
    exact Or.inr (by rw [least]; simp)
  · exact Or.inl (by omega)
  · by_cases inside : bnd1 ≤ (adjustSchedulerBound (cut index) bnd1 bnd2 step).2 ∧
        (adjustSchedulerBound (cut index) bnd1 bnd2 step).2 ≤ bnd2
    · have kept : max bnd1 (min bnd2 (adjustSchedulerBound (cut index) bnd1 bnd2 step).2) =
          (adjustSchedulerBound (cut index) bnd1 bnd2 step).2 := by omega
      exact Or.inr (by rw [kept]; exact phase)
    · by_cases below : (adjustSchedulerBound (cut index) bnd1 bnd2 step).2 < bnd1
      · have least : max bnd1 (min bnd2 (adjustSchedulerBound (cut index) bnd1 bnd2 step).2) =
            bnd1 := by omega
        exact Or.inr (by rw [least]; simp)
      · exact Or.inl (by omega)

/-- The loop header clips an adjusted part to the stride, so it runs between two
clipped cut points. -/
theorem mt_loop_clipped (cut : Nat → Int) (rising : Monotone cut) (bnd1 bnd2 step : Int)
    (forward : 1 ≤ step) (nonempty : bnd1 ≤ bnd2) (index : Nat) :
    mtStrideLoop0 (adjustScheduler ⟨cut index, cut (index + 1)⟩ bnd1 bnd2 step) bnd1 bnd2 step =
      strideLoop (clipped cut bnd1 bnd2 step index) (clipped cut bnd1 bnd2 step (index + 1))
        step := by
  have adjusted := adjust_rising bnd1 bnd2 step forward (rising (Nat.le_succ index))
  simp only [mtStrideLoop0, adjustScheduler, clipped] at adjusted ⊢
  generalize (adjustSchedulerBound (cut index) bnd1 bnd2 step).2 = start at adjusted
  generalize (adjustSchedulerBound (cut (index + 1)) bnd1 bnd2 step).2 = stop at adjusted
  by_cases meets : bnd1 ≤ stop ∧ start ≤ bnd2
  · have first : max bnd1 (min bnd2 start) = max bnd1 start := by omega
    have last : max bnd1 (min bnd2 stop) = min bnd2 stop := by omega
    rw [first, last]
  · rw [stride_loop_past (max bnd1 start) (min bnd2 stop) step (by omega),
      stride_loop_past (max bnd1 (min bnd2 start)) (max bnd1 (min bnd2 stop)) step (by omega)]

/-- `count` parts of a segment are the consecutive, disjoint pieces of
`[lower, upper)`, each starting on the unrolling. -/
structure SplitsSegment (lower upper unrolling : Int) (count : Nat) (part : Nat → Part) :
    Prop where
  first : (part 0).start = lower
  last : (part (count - 1)).stop = upper
  linked : ∀ index, index + 1 < count → (part index).stop = (part (index + 1)).start
  ordered : ∀ index, index < count → (part index).start ≤ (part index).stop
  disjoint : ∀ left right point, left < count → right < count →
    (part left).Holds point → (part right).Holds point → left = right
  covers : ∀ point, (lower ≤ point ∧ point < upper) ↔
    ∃ index, index < count ∧ (part index).Holds point
  aligned : ∀ index, index < count → unrolling ∣ (part index).start - lower

/-- After the adjustment to the stride `[bnd1, bnd2)` the loops of the parts are,
one after the other, the sequential loop: every period is run by exactly one
part, and starts on the phase of the stride. -/
structure SplitsStride (bnd1 bnd2 step : Int) (count : Nat) (part : Nat → Part) : Prop where
  joined : (List.range count).flatMap (fun index =>
      mtStrideLoop0 (adjustScheduler (part index) bnd1 bnd2 step) bnd1 bnd2 step) =
    strideLoop0 bnd1 bnd2 step
  distinct : (strideLoop0 bnd1 bnd2 step).Nodup
  once : ∀ period ∈ strideLoop0 bnd1 bnd2 step, ∃! index, index < count ∧
    period ∈ mtStrideLoop0 (adjustScheduler (part index) bnd1 bnd2 step) bnd1 bnd2 step
  phase : ∀ period ∈ strideLoop0 bnd1 bnd2 step, step ∣ period.first - bnd1
  moved : ∀ index, index < count →
    (adjustScheduler (part index) bnd1 bnd2 step).start - (part index).start =
      (adjustSchedulerBound (part index).start bnd1 bnd2 step).1

/-- A family of parts that are the pieces of one rising cut of the segment. -/
structure CutBy (cut : Nat → Int) (lower upper unrolling : Int) (count : Nat)
    (part : Nat → Part) : Prop where
  rising : Monotone cut
  first : cut 0 = lower
  last : cut count = upper
  aligned : ∀ index, unrolling ∣ cut index - lower
  piece : ∀ index, index < count → part index = ⟨cut index, cut (index + 1)⟩

theorem cut_splits_segment (cut : Nat → Int) (lower upper unrolling : Int) (count : Nat)
    (part : Nat → Part) (some : 0 < count) (cutBy : CutBy cut lower upper unrolling count part) :
    SplitsSegment lower upper unrolling count part := by
  have holds : ∀ index point, index < count →
      ((part index).Holds point ↔ Cuts.Piece cut index point) := by
    intro index point inside
    rw [cutBy.piece index inside]
    exact Iff.rfl
  constructor
  · rw [cutBy.piece 0 some]
    exact cutBy.first
  · rw [cutBy.piece (count - 1) (by omega)]
    have back : count - 1 + 1 = count := by omega
    simp only [back]
    exact cutBy.last
  · intro index inside
    rw [cutBy.piece index (by omega), cutBy.piece (index + 1) inside]
  · intro index inside
    rw [cutBy.piece index inside]
    exact cutBy.rising (Nat.le_succ index)
  · intro left right point insideLeft insideRight inLeft inRight
    exact Cuts.piece_unique cut cutBy.rising ((holds left point insideLeft).mp inLeft)
      ((holds right point insideRight).mp inRight)
  · intro point
    have cover := Cuts.pieces_cover cut cutBy.rising count point
    rw [cutBy.first, cutBy.last] at cover
    rw [cover]
    exact exists_congr fun index => and_congr_right fun inside => (holds index point inside).symm
  · intro index inside
    rw [cutBy.piece index inside]
    exact cutBy.aligned index

theorem cut_splits_stride (cut : Nat → Int) (lower upper unrolling bnd1 bnd2 step : Int)
    (count : Nat) (part : Nat → Part) (cutBy : CutBy cut lower upper unrolling count part)
    (fromLower : lower ≤ bnd1) (toUpper : bnd2 ≤ upper) (forward : 1 ≤ step) :
    SplitsStride bnd1 bnd2 step count part := by
  have joined : (List.range count).flatMap (fun index =>
      mtStrideLoop0 (adjustScheduler (part index) bnd1 bnd2 step) bnd1 bnd2 step) =
      strideLoop0 bnd1 bnd2 step := by
    by_cases nonempty : bnd1 ≤ bnd2
    · have start : clipped cut bnd1 bnd2 step 0 = bnd1 := by
        simp only [clipped, cutBy.first]
        rw [adjust_outside lower bnd1 bnd2 step (Or.inl fromLower)]
        simp only
        omega
      have stop : clipped cut bnd1 bnd2 step count = bnd2 := by
        simp only [clipped, cutBy.last]
        rw [adjust_outside upper bnd1 bnd2 step (Or.inr toUpper)]
        simp only
        omega
      have join := stride_loops_join (clipped cut bnd1 bnd2 step)
        (clipped_rising cut cutBy.rising bnd1 bnd2 step forward) bnd2 step forward
        (fun index => by simp only [clipped]; omega)
        (fun index => by
          rw [start]
          exact clipped_phase cut bnd1 bnd2 step forward nonempty index) count
      rw [start, stop] at join
      rw [strideLoop0, ← join]
      apply List.flatMap_congr
      intro index member
      rw [cutBy.piece index (List.mem_range.mp member)]
      exact mt_loop_clipped cut cutBy.rising bnd1 bnd2 step forward nonempty index
    · rw [strideLoop0, stride_loop_past bnd1 bnd2 step (by omega)]
      apply List.flatMap_eq_nil_iff.mpr
      intro index _
      exact stride_loop_past _ _ step (by omega)
  constructor
  · exact joined
  · exact stride_loop_nodup bnd1 bnd2 step forward
  · intro period visited
    have inside := stride_loop_visits bnd1 bnd2 step forward period visited
    rw [← joined] at visited
    obtain ⟨index, member, here⟩ := List.mem_flatMap.mp visited
    refine ⟨index, ⟨List.mem_range.mp member, here⟩, ?_⟩
    rintro other ⟨inOther, there⟩
    have piece : ∀ place, place < count →
        period ∈ mtStrideLoop0 (adjustScheduler (part place) bnd1 bnd2 step) bnd1 bnd2 step →
        Cuts.Piece (clipped cut bnd1 bnd2 step) place period.first := by
      intro place inPlace run
      rw [cutBy.piece place inPlace,
        mt_loop_clipped cut cutBy.rising bnd1 bnd2 step forward (by omega) place] at run
      have bounds := stride_loop_visits _ _ step forward period run
      exact ⟨bounds.1, bounds.2.1⟩
    exact Cuts.piece_unique _ (clipped_rising cut cutBy.rising bnd1 bnd2 step forward)
      (piece other inOther there) (piece index (List.mem_range.mp member) here)
  · intro period visited
    exact (stride_loop_visits bnd1 bnd2 step forward period visited).2.2
  · intro index _
    simp only [adjustScheduler]
    rw [adjust_moved]
    omega

/-- The parts of all threads under Block_DIM0. -/
def blockParts (lower upper unrolling : Int) (threads selfLocalId : Nat) : Part :=
  blockDim0 lower upper unrolling threads selfLocalId

/-- The parts of all tasks under TS_Even. -/
def evenParts (lower upper unrolling : Int) (numTasks threads taskid : Nat) : Part :=
  (tsEven lower upper unrolling numTasks threads taskid).2

theorem block_cut_by (lower upper unrolling : Int) (threads : Nat) (ordered : lower ≤ upper)
    (forward : 1 ≤ unrolling) (divides : unrolling ∣ upper - lower) (some : 1 ≤ threads) :
    CutBy (evenCut lower unrolling ((upper - lower) / unrolling) threads) lower upper unrolling
      threads (blockParts lower upper unrolling threads) where
  rising := even_cut_rising lower unrolling _ threads (by omega)
    (Int.ediv_nonneg (by omega) (by omega))
  first := even_cut_first lower unrolling _ threads some
  last := by
    rw [even_cut_last lower unrolling _ threads some, Int.ediv_mul_cancel divides]
    omega
  aligned := even_cut_aligned lower unrolling _ threads
  piece := fun index inside => block_dim0_piece lower upper unrolling threads index ordered
    forward inside

theorem even_cut_by (lower upper unrolling : Int) (numTasks threads : Nat)
    (ordered : lower ≤ upper) (forward : 1 ≤ unrolling) (divides : unrolling ∣ upper - lower)
    (some : 0 < numTasks * threads) :
    CutBy (evenCut lower unrolling ((upper - lower) / unrolling) (numTasks * threads)) lower upper
      unrolling (numTasks * threads) (evenParts lower upper unrolling numTasks threads) where
  rising := even_cut_rising lower unrolling _ _ (by omega)
    (Int.ediv_nonneg (by omega) (by omega))
  first := even_cut_first lower unrolling _ _ some
  last := by
    rw [even_cut_last lower unrolling _ _ some, Int.ediv_mul_cancel divides]
    omega
  aligned := even_cut_aligned lower unrolling _ _
  piece := fun index inside => by
    simp only [evenParts, ts_even_piece lower upper unrolling numTasks threads index ordered
      forward inside]

end Sac2c.Strides
