import Mathlib.Algebra.Order.Ring.Nat
import Mathlib.Data.List.Nodup
import Mathlib.Data.List.Range
import Mathlib.Data.List.Perm.Basic

/-!
The binomial tree of the numbers below `n` that is encoded in powers of two: a
node of class `c` has the sons at the distances c, c/2, .., 1, and a son at the
distance `i` has the class i/2, halved until it has room below `n`.
-/

namespace Sac2c.BinomialTree

/-- What `for (i = start; i; i >>= 1)` runs through. -/
def halves (i : Nat) : List Nat :=
  if i = 0 then [] else i :: halves (i / 2)
termination_by i

/-- `while (node + c >= n) c >>= 1`, which stops at 0 at the latest if `node < n`. -/
def correctClass (n node c : Nat) : Nat :=
  if c = 0 then 0 else if n ≤ node + c then correctClass n node (c / 2) else c
termination_by c

theorem correct_class_le (n node c : Nat) : correctClass n node c ≤ c := by
  induction c using Nat.strong_induction_on with
  | _ c ih =>
      rw [correctClass]
      split
      · exact Nat.zero_le c
      · split
        · have smaller := ih (c / 2) (by omega)
          omega
        · exact le_refl c

/-- The nodes below the sons of `node` at the distances i, i/2, .., 1, these
included, with their classes. -/
def brood (n node i : Nat) : List (Nat × Nat) :=
  if i = 0 then []
  else
    (node + i, correctClass n (node + i) (i / 2)) ::
      brood n (node + i) (correctClass n (node + i) (i / 2)) ++ brood n node (i / 2)
termination_by i
decreasing_by
  · have := correct_class_le n (node + i) (i / 2)
    omega
  · omega

section Halves

@[simp] theorem halves_zero : halves 0 = [] := by rw [halves, if_pos rfl]

theorem halves_pos {i : Nat} (positive : 0 < i) : halves i = i :: halves (i / 2) := by
  rw [halves, if_neg (Nat.ne_of_gt positive)]

theorem halves_bounds {i j : Nat} (listed : j ∈ halves i) : 0 < j ∧ j ≤ i := by
  induction i using Nat.strong_induction_on with
  | _ i ih =>
      rw [halves] at listed
      split at listed
      · exact absurd listed List.not_mem_nil
      · rcases List.mem_cons.mp listed with rfl | later
        · omega
        · have rest := ih (i / 2) (by omega) later
          omega

theorem halves_half {c i : Nat} (listed : i ∈ halves c) (positive : 0 < i / 2) :
    i / 2 ∈ halves c := by
  induction c using Nat.strong_induction_on with
  | _ c ih =>
      have bound := halves_bounds listed
      rw [halves_pos (by omega : 0 < c)] at listed ⊢
      apply List.mem_cons_of_mem
      rcases List.mem_cons.mp listed with rfl | later
      · rw [halves_pos positive]
        exact List.mem_cons_self ..
      · exact ih (c / 2) (by omega) later

/-- Between a distance and its half there is no other. -/
theorem halves_gap {c i j : Nat} (first : i ∈ halves c) (second : j ∈ halves c) (less : j < i) :
    j ≤ i / 2 := by
  induction c using Nat.strong_induction_on with
  | _ c ih =>
      have bound := halves_bounds first
      rw [halves_pos (by omega : 0 < c)] at first second
      rcases List.mem_cons.mp first with rfl | below
      · rcases List.mem_cons.mp second with rfl | below'
        · omega
        · exact (halves_bounds below').2
      · rcases List.mem_cons.mp second with rfl | below'
        · omega
        · exact ih (c / 2) (by omega) below below'

theorem halves_length_le {c i : Nat} (listed : i ∈ halves c) :
    (halves i).length ≤ (halves c).length := by
  induction c using Nat.strong_induction_on with
  | _ c ih =>
      have bound := halves_bounds listed
      rw [halves_pos (by omega : 0 < c)] at listed ⊢
      rcases List.mem_cons.mp listed with rfl | below
      · rw [halves_pos (by omega : 0 < i)]
      · exact Nat.le_succ_of_le (ih (c / 2) (by omega) below)

theorem halves_nodup (i : Nat) : (halves i).Nodup := by
  induction i using Nat.strong_induction_on with
  | _ i ih =>
      rw [halves]
      split
      · exact List.nodup_nil
      · apply List.nodup_cons.mpr ⟨_, ih (i / 2) (by omega)⟩
        intro listed
        have bound := halves_bounds listed
        omega

/-- Zero or a power of two. -/
def IsClass (c : Nat) : Prop := c = 0 ∨ ∃ k, c = 2 ^ k

theorem IsClass.half {c : Nat} (power : IsClass c) : IsClass (c / 2) := by
  rcases power with rfl | ⟨k, rfl⟩
  · exact Or.inl rfl
  · cases k with
    | zero => exact Or.inl rfl
    | succ k => exact Or.inr ⟨k, by rw [Nat.pow_succ, Nat.mul_div_cancel _ (by decide)]⟩

theorem IsClass.double_half {c : Nat} (power : IsClass c) (more : 1 < c) : 2 * (c / 2) = c := by
  rcases power with rfl | ⟨k, rfl⟩
  · omega
  · cases k with
    | zero => omega
    | succ k => rw [Nat.pow_succ]; omega

/-- The distances of a node are powers of two. -/
theorem halves_power {c j : Nat} (power : IsClass c) (listed : j ∈ halves c) :
    ∃ m, j = 2 ^ m := by
  induction c using Nat.strong_induction_on with
  | _ c ih =>
      by_cases zero : c = 0
      · simp [zero] at listed
      · rw [halves_pos (Nat.pos_of_ne_zero zero)] at listed
        rcases List.mem_cons.mp listed with rfl | later
        · exact power.resolve_left zero
        · exact ih (c / 2) (by omega) power.half later

theorem power_divides {i j : Nat} (first : ∃ m, i = 2 ^ m) (second : ∃ m, j = 2 ^ m)
    (less : j < i) : 2 * j ∣ i := by
  obtain ⟨m, rfl⟩ := first
  obtain ⟨l, rfl⟩ := second
  rw [Nat.mul_comm, ← Nat.pow_succ]
  exact Nat.pow_dvd_pow 2 ((Nat.pow_lt_pow_iff_right (by decide)).mp less)

end Halves

section Classes

variable {n node c : Nat}

theorem correct_class_power (power : IsClass c) : IsClass (correctClass n node c) := by
  induction c using Nat.strong_induction_on with
  | _ c ih =>
      rw [correctClass]
      split
      · exact Or.inl rfl
      · split
        · exact ih (c / 2) (by omega) power.half
        · exact power

theorem correct_class_room (inside : node < n) : node + correctClass n node c < n := by
  induction c using Nat.strong_induction_on with
  | _ c ih =>
      rw [correctClass]
      split
      · exact inside
      · split
        · exact ih (c / 2) (by omega)
        · omega

/-- The correction takes no number below `n` from the reach of the node. -/
theorem correct_class_reach (power : IsClass c) (inside : node < n) :
    min n (node + 2 * correctClass n node c) - (node + 1) =
      min n (node + 2 * c) - (node + 1) := by
  induction c using Nat.strong_induction_on with
  | _ c ih =>
      rw [correctClass]
      split
      · next zero => rw [zero]
      · split
        · next far =>
            rw [ih (c / 2) (by omega) power.half]
            by_cases one : c = 1
            · subst one
              omega
            · have double := power.double_half (by omega)
              omega
        · rfl

theorem halves_correct_class {j : Nat} (listed : j ∈ halves (correctClass n node c)) :
    j ∈ halves c := by
  induction c using Nat.strong_induction_on with
  | _ c ih =>
      rw [correctClass] at listed
      split at listed
      · next zero => rwa [zero]
      · next positive =>
          split at listed
          · rw [halves_pos (Nat.pos_of_ne_zero positive)]
            exact List.mem_cons_of_mem c (ih (c / 2) (by omega) listed)
          · exact listed

end Classes

section Brood

variable {n node i : Nat}

@[simp] theorem brood_zero : brood n node 0 = [] := by rw [brood, if_pos rfl]

theorem brood_pos (positive : 0 < i) : brood n node i =
    (node + i, correctClass n (node + i) (i / 2)) ::
      brood n (node + i) (correctClass n (node + i) (i / 2)) ++ brood n node (i / 2) := by
  rw [brood, if_neg (Nat.ne_of_gt positive)]

theorem range_split {start middle stop : Nat} (before : start ≤ middle) (inside : middle < stop) :
    List.range' start (stop - start) =
      List.range' start (middle - start) ++
        middle :: List.range' (middle + 1) (stop - (middle + 1)) := by
  have length : stop - start = (middle - start) + ((stop - (middle + 1)) + 1) := by omega
  rw [length, ← List.range'_append_1, List.range'_succ]
  congr 2
  · omega
  · congr 1
    omega

/-- The nodes below are the numbers that follow, as far as the distances reach. -/
theorem brood_nodes (power : IsClass i) (room : node + i < n) :
    ((brood n node i).map Prod.fst).Perm
      (List.range' (node + 1) (min n (node + 2 * i) - (node + 1))) := by
  induction i using Nat.strong_induction_on generalizing node with
  | _ i ih =>
      by_cases zero : i = 0
      · subst zero
        have none : min n (node + 2 * 0) - (node + 1) = 0 := by omega
        rw [brood_zero, none]
        rfl
      · have smaller := correct_class_le n (node + i) (i / 2)
        have son := ih (correctClass n (node + i) (i / 2)) (by omega)
          (correct_class_power power.half) (correct_class_room room)
        have rest := ih (i / 2) (by omega) power.half (by omega : node + i / 2 < n)
        rw [correct_class_reach power.half room] at son
        rw [brood_pos (Nat.pos_of_ne_zero zero), List.map_append, List.map_cons,
          range_split (by omega : node + 1 ≤ node + i) (by omega)]
        by_cases one : i = 1
        · subst one
          have ends : min n (node + 2 * 1) - (node + 1 + 1) = 0 := by omega
          have none : min n (node + 1 + 2 * (1 / 2)) - (node + 1 + 1) = 0 := by omega
          rw [none] at son
          rw [ends, Nat.sub_self, brood_zero]
          simpa using son
        · have double := power.double_half (by omega)
          have reach : min n (node + i + 2 * (i / 2)) = min n (node + 2 * i) := by omega
          have half : min n (node + 2 * (i / 2)) = node + i := by omega
          rw [reach] at son
          rw [half] at rest
          exact (List.perm_append_comm.trans (rest.append (son.cons (node + i))))

theorem brood_root {j : Nat} (listed : j ∈ halves i) :
    (node + j, correctClass n (node + j) (j / 2)) ∈ brood n node i := by
  induction i using Nat.strong_induction_on with
  | _ i ih =>
      by_cases zero : i = 0
      · simp [zero] at listed
      · have positive := Nat.pos_of_ne_zero zero
        rw [halves_pos positive] at listed
        rw [brood_pos positive]
        rcases List.mem_cons.mp listed with rfl | later
        · exact List.mem_append_left _ (List.mem_cons_self ..)
        · exact List.mem_append_right _ (ih (i / 2) (by omega) later)

/-- The parts of a brood: the first son, what is below it, and the other sons with theirs. -/
theorem mem_brood {entry : Nat × Nat} (positive : 0 < i) : entry ∈ brood n node i ↔
    entry = (node + i, correctClass n (node + i) (i / 2)) ∨
      entry ∈ brood n (node + i) (correctClass n (node + i) (i / 2)) ∨
      entry ∈ brood n node (i / 2) := by
  rw [brood_pos positive, List.mem_append, List.mem_cons, or_assoc]

theorem brood_son {b c j : Nat} (member : (b, c) ∈ brood n node i) (listed : j ∈ halves c) :
    (b + j, correctClass n (b + j) (j / 2)) ∈ brood n node i := by
  induction i using Nat.strong_induction_on generalizing node with
  | _ i ih =>
      by_cases zero : i = 0
      · simp [zero] at member
      · have positive := Nat.pos_of_ne_zero zero
        have smaller := correct_class_le n (node + i) (i / 2)
        rw [mem_brood positive] at member ⊢
        rcases member with same | below | later
        · cases same
          exact Or.inr (Or.inl (brood_root listed))
        · exact Or.inr (Or.inl (ih _ (by omega) below))
        · exact Or.inr (Or.inr (ih _ (by omega) later))

theorem brood_father {s c : Nat} (member : (s, c) ∈ brood n node i) :
    (∃ j, j ∈ halves i ∧ s = node + j) ∨
      ∃ b d j, (b, d) ∈ brood n node i ∧ j ∈ halves d ∧ s = b + j := by
  induction i using Nat.strong_induction_on generalizing node with
  | _ i ih =>
      by_cases zero : i = 0
      · simp [zero] at member
      · have positive := Nat.pos_of_ne_zero zero
        have smaller := correct_class_le n (node + i) (i / 2)
        simp only [mem_brood positive] at member ⊢
        rw [halves_pos positive]
        rcases member with same | below | later
        · cases same
          exact Or.inl ⟨i, List.mem_cons_self .., rfl⟩
        · rcases ih _ (by omega) below with ⟨j, listed, same⟩ | ⟨b, d, j, inside, listed, same⟩
          · exact Or.inr ⟨_, _, j, Or.inl rfl, listed, same⟩
          · exact Or.inr ⟨b, d, j, Or.inr (Or.inl inside), listed, same⟩
        · rcases ih _ (by omega) later with ⟨j, listed, same⟩ | ⟨b, d, j, inside, listed, same⟩
          · exact Or.inl ⟨j, List.mem_cons_of_mem i listed, same⟩
          · exact Or.inr ⟨b, d, j, Or.inr (Or.inr inside), listed, same⟩

/-- A node is a multiple of twice each of its distances. -/
def Aligned (node c : Nat) : Prop := IsClass c ∧ ∀ j, j ∈ halves c → 2 * j ∣ node

theorem Aligned.half (aligned : Aligned node i) : Aligned node (i / 2) := by
  refine ⟨aligned.1.half, ?_⟩
  intro j listed
  apply aligned.2 j
  have bound := halves_bounds listed
  rw [halves_pos (by omega : 0 < i)]
  exact List.mem_cons_of_mem i listed

theorem Aligned.son (aligned : Aligned node i) {j : Nat} (listed : j ∈ halves i) :
    Aligned (node + j) (correctClass n (node + j) (j / 2)) := by
  have power := halves_power aligned.1 listed
  refine ⟨correct_class_power (IsClass.half (Or.inr power)), ?_⟩
  intro l inner
  have below := halves_correct_class inner
  have bound := halves_bounds below
  have distance := halves_power (IsClass.half (Or.inr power)) below
  have divides := power_divides power distance (by omega)
  exact Nat.dvd_add ((divides.trans ⟨2, Nat.mul_comm 2 j⟩).trans (aligned.2 j listed)) divides

theorem brood_aligned {b c : Nat} (aligned : Aligned node i) (member : (b, c) ∈ brood n node i) :
    Aligned b c := by
  induction i using Nat.strong_induction_on generalizing node with
  | _ i ih =>
      by_cases zero : i = 0
      · simp [zero] at member
      · have positive := Nat.pos_of_ne_zero zero
        have smaller := correct_class_le n (node + i) (i / 2)
        have first : i ∈ halves i := halves_pos positive ▸ List.mem_cons_self ..
        rw [mem_brood positive] at member
        rcases member with same | below | later
        · cases same
          exact aligned.son first
        · exact ih _ (by omega) (aligned.son first) below
        · exact ih _ (by omega) aligned.half later

end Brood

section Tree

/-- The nodes of the tree with the root 0, with their classes. -/
def tree (n c : Nat) : List (Nat × Nat) := (0, c) :: brood n 0 c

variable {n root b c j : Nat}

theorem tree_son (member : (b, c) ∈ tree n root) (listed : j ∈ halves c) :
    (b + j, correctClass n (b + j) (j / 2)) ∈ tree n root := by
  rcases List.mem_cons.mp member with same | below
  · cases same
    exact List.mem_cons_of_mem _ (brood_root listed)
  · exact List.mem_cons_of_mem _ (brood_son below listed)

theorem tree_father {s : Nat} (member : (s, c) ∈ tree n root) (below : s ≠ 0) :
    ∃ b d j, (b, d) ∈ tree n root ∧ j ∈ halves d ∧ s = b + j := by
  rcases List.mem_cons.mp member with same | member
  · cases same
    exact absurd rfl below
  · rcases brood_father member with ⟨j, listed, same⟩ | ⟨b, d, j, inside, listed, same⟩
    · exact ⟨0, root, j, List.mem_cons_self .., listed, same⟩
    · exact ⟨b, d, j, List.mem_cons_of_mem _ inside, listed, same⟩

theorem tree_aligned (power : IsClass root) (member : (b, c) ∈ tree n root) : Aligned b c := by
  have aligned : Aligned 0 root := ⟨power, fun j _ => Nat.dvd_zero (2 * j)⟩
  rcases List.mem_cons.mp member with same | below
  · cases same
    exact aligned
  · exact brood_aligned aligned below

/-- A number behind an aligned node tells the distance by its lowest digit that is set. -/
theorem distance_not_lt {b' c' j' : Nat} (aligned : Aligned b c) (aligned' : Aligned b' c')
    (listed : j ∈ halves c) (listed' : j' ∈ halves c') (same : b + j = b' + j') : ¬ j < j' := by
  intro less
  have distance := halves_power aligned.1 listed
  have distance' := halves_power aligned'.1 listed'
  have divides := power_divides distance' distance less
  have left : 2 * j ∣ b := aligned.2 j listed
  have right : 2 * j ∣ b' + j' :=
    Nat.dvd_add ((divides.trans ⟨2, Nat.mul_comm 2 j'⟩).trans (aligned'.2 j' listed')) divides
  rw [← same] at right
  have whole := Nat.le_of_dvd (halves_bounds listed).1 ((Nat.dvd_add_right left).mp right)
  have positive := (halves_bounds listed).1
  omega

/-- No node is the son of two nodes. -/
theorem sons_apart (power : IsClass root) {b' c' j' : Nat} (member : (b, c) ∈ tree n root)
    (member' : (b', c') ∈ tree n root) (listed : j ∈ halves c) (listed' : j' ∈ halves c')
    (same : b + j = b' + j') : b = b' ∧ j = j' := by
  have aligned := tree_aligned power member
  have aligned' := tree_aligned power member'
  have equal : j = j' := by
    rcases Nat.lt_trichotomy j j' with less | equal | more
    · exact absurd less (distance_not_lt aligned aligned' listed listed' same)
    · exact equal
    · exact absurd more (distance_not_lt aligned' aligned listed' listed same.symm)
  omega

/-- The tree has each number below `n` once as a node. -/
theorem tree_nodes (power : IsClass root) (room : root < n) (reach : n ≤ 2 * root ∨ n = 1) :
    ((tree n root).map Prod.fst).Perm (List.range n) := by
  have below := brood_nodes power (by omega : 0 + root < n)
  have all : min n (0 + 2 * root) - (0 + 1) = n - 1 := by omega
  have split : List.range n = 0 :: List.range' (0 + 1) (n - 1) := by
    rw [← List.range'_succ, ← List.range_eq_range']
    congr 1
    omega
  rw [all] at below
  rw [split]
  exact below.cons 0

end Tree

end Sac2c.BinomialTree
