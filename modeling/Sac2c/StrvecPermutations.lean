import Sac2c.GpuKernel
import Sac2c.Reindexing
import Mathlib.Data.List.Perm.Subperm
import Mathlib.Data.List.Nodup
import Mathlib.Data.List.NodupEquivFin

/-!
The Permute mapping of the gpukernel pragma. What the parser lets through is a
permutation, and for one `InvPermuteStrvec` finds exactly the vectors that
`PermuteStrvec` takes to the one given. Permuting the axes of an index space is
undone by the inverse on every index vector.
-/

namespace Sac2c.StrvecPermutations

open GpuKernel Reindexing

section MapM

variable {α β : Type}

theorem mapM_eq_some_iff {f : α → Option β} {l : List α} {w : List β} :
    l.mapM f = some w ↔ List.Forall₂ (fun a b => f a = some b) l w := by
  induction l generalizing w with
  | nil => simp [eq_comm]
  | cons a l ih =>
      simp only [List.mapM_cons, Option.bind_eq_bind, Option.bind_eq_some_iff, Option.pure_def,
        Option.some.injEq, List.forall₂_cons_left_iff, ← ih]
      constructor
      · rintro ⟨b, found, rest, tail, rfl⟩
        exact ⟨b, rest, found, tail, rfl⟩
      · rintro ⟨b, rest, found, tail, rfl⟩
        exact ⟨b, found, rest, tail, rfl⟩

/-- A loop over the positions fills one entry each. -/
theorem mapM_range_eq_some_iff {f : Nat → Option β} {n : Nat} {w : List β} :
    (List.range n).mapM f = some w ↔ w.length = n ∧ ∀ i < n, f i = w[i]? := by
  rw [mapM_eq_some_iff, List.forall₂_iff_get]
  constructor
  · rintro ⟨same, each⟩
    rw [List.length_range] at same
    refine ⟨same.symm, fun i lt => ?_⟩
    have found := each i (by simpa using lt) (by omega)
    rw [List.getElem?_eq_getElem (by omega)]
    simpa using found
  · rintro ⟨same, each⟩
    refine ⟨by rw [List.length_range, same], fun i lt lt' => ?_⟩
    have found := each i (by simpa using lt)
    rw [List.getElem?_eq_getElem (by omega)] at found
    simpa using found

theorem mapM_total {f : α → Option β} {l : List α} (each : ∀ a ∈ l, ∃ b, f a = some b) :
    ∃ w, l.mapM f = some w := by
  induction l with
  | nil => exact ⟨[], rfl⟩
  | cons a l ih =>
      obtain ⟨b, found⟩ := each a (List.mem_cons_self ..)
      obtain ⟨w, tail⟩ := ih fun a member => each a (List.mem_cons_of_mem _ member)
      exact ⟨b :: w, by simp [found, tail]⟩

theorem mapM_entries_eq_some_iff {entries : List (Option β)} {w : List β} :
    (entries.mapM fun entry => entry) = some w ↔ entries = w.map some := by
  rw [mapM_eq_some_iff]
  induction entries generalizing w with
  | nil => cases w <;> simp
  | cons entry entries ih =>
      cases w with
      | nil => simp
      | cons b w => simp [ih]

end MapM

section Checked

/-- What `checkPermutationArg` lets through has no entry twice and none out of range. -/
theorem permutationHits_iff {length : Nat} {permutation hits : List Nat} :
    permutationHits length permutation hits = true ↔
      permutation.Nodup ∧ ∀ p ∈ permutation, p < length ∧ p ∉ hits := by
  induction permutation generalizing hits with
  | nil => simp [permutationHits]
  | cons point rest ih =>
      simp only [permutationHits, Bool.and_eq_true, decide_eq_true_eq, Bool.not_eq_true',
        List.contains_eq_mem, decide_eq_false_iff_not, ih, List.nodup_cons, List.mem_cons,
        forall_eq_or_imp, not_or]
      constructor
      · rintro ⟨⟨lt, fresh⟩, distinct, others⟩
        exact ⟨⟨fun twice => (others point twice).2.1 rfl, distinct⟩, ⟨lt, fresh⟩,
          fun p member => ⟨(others p member).1, (others p member).2.2⟩⟩
      · rintro ⟨⟨once, distinct⟩, ⟨lt, fresh⟩, others⟩
        refine ⟨⟨lt, fresh⟩, distinct, fun p member => ⟨(others p member).1, ?_, (others p member).2⟩⟩
        rintro rfl
        exact once member

theorem checked_perm {permutation : List Nat}
    (checked : (Mapping.permute permutation).checkArgs = true) :
    permutation.Perm (List.range permutation.length) := by
  obtain ⟨distinct, within⟩ := permutationHits_iff.mp checked
  apply (distinct.subperm fun p member => List.mem_range.mpr (within p member).1).perm_of_length_le
  simp

end Checked

section Vectors

variable {α : Type} {permutation : List Nat}

theorem permuteStrvec_eq_some_iff {vec newvec : List α} :
    permuteStrvec permutation vec = some newvec ↔ newvec.length = vec.length ∧
      ∀ i < vec.length, (permutation[i]?.bind fun p => vec[p]?) = newvec[i]? := by
  simp only [permuteStrvec, mapM_range_eq_some_iff, Option.bind_eq_bind]

theorem permuted_mem {vec newvec : List α} (permuted : permuteStrvec permutation vec = some newvec)
    {a : α} (member : a ∈ newvec) : a ∈ vec := by
  obtain ⟨length, each⟩ := permuteStrvec_eq_some_iff.mp permuted
  obtain ⟨i, lt, rfl⟩ := List.mem_iff_getElem.mp member
  have moved := each i (by omega)
  rw [List.getElem?_eq_getElem lt, Option.bind_eq_some_iff] at moved
  obtain ⟨p, -, found⟩ := moved
  exact List.mem_of_getElem? found

theorem perm_lt (perm : permutation.Perm (List.range permutation.length)) {i : Nat}
    (lt : i < permutation.length) : permutation[i] < permutation.length :=
  List.mem_range.mp (perm.mem_iff.mp (List.getElem_mem lt))

/-- A permutation finds every entry. -/
theorem permuteStrvec_total (perm : permutation.Perm (List.range permutation.length))
    (vec : List α) (full : permutation.length = vec.length) :
    ∃ newvec, permuteStrvec permutation vec = some newvec := by
  apply mapM_total
  intro i member
  have lt := List.mem_range.mp member
  have within : permutation[i] < vec.length := by
    rw [← full]
    exact perm_lt perm (by omega)
  simp only [List.getElem?_eq_getElem (show i < permutation.length by omega),
    Option.bind_eq_bind, Option.bind_some, List.getElem?_eq_getElem within]
  exact ⟨vec[permutation[i]], rfl⟩

/-- The loop of `InvPermuteStrvec` after its first turns -/
theorem invPermute_turns (perm : permutation.Perm (List.range permutation.length))
    (vec : List α) (full : permutation.length = vec.length) (turns : Nat)
    (le : turns ≤ vec.length) :
    let newvec := (List.range turns).foldl
      (fun newvec i => newvec.set (permutation.getD i vec.length) vec[i]?)
      (List.replicate vec.length none)
    newvec.length = vec.length ∧
      ∀ i (lt : i < turns), newvec[permutation[i]]? = some vec[i]? := by
  have distinct : permutation.Nodup := perm.nodup_iff.mpr List.nodup_range
  induction turns with
  | zero => simp
  | succ turns ih =>
      obtain ⟨same, done⟩ := ih (by omega)
      simp only [List.range_succ, List.foldl_append, List.foldl_cons, List.foldl_nil]
      rw [show permutation.getD turns vec.length = permutation[turns] by
        simp [show turns < permutation.length by omega]]
      refine ⟨by rw [List.length_set, same], fun i lt => ?_⟩
      rw [List.getElem?_set]
      by_cases last : i = turns
      · subst last
        rw [if_pos rfl, if_pos (by rw [same, ← full]; exact perm_lt perm (by omega))]
      · rw [if_neg, done i (by omega)]
        intro equal
        exact last ((List.Nodup.getElem_inj_iff distinct).mp equal).symm

/-- For a permutation the inverse finds what was permuted, and nothing else. -/
theorem invPermuteStrvec_eq_some_iff (perm : permutation.Perm (List.range permutation.length))
    {vec old : List α} (full : permutation.length = vec.length) :
    invPermuteStrvec permutation vec = some old ↔ permuteStrvec permutation old = some vec := by
  obtain ⟨same, placed⟩ := invPermute_turns perm vec full vec.length le_rfl
  rw [invPermuteStrvec, mapM_entries_eq_some_iff, permuteStrvec_eq_some_iff]
  constructor
  · intro filled
    rw [filled] at same placed
    rw [List.length_map] at same
    refine ⟨same.symm, fun i lt => ?_⟩
    have there := placed i (by omega)
    rw [List.getElem?_map, List.getElem?_eq_getElem (show i < vec.length by omega),
      Option.map_eq_some_iff] at there
    obtain ⟨a, found, equal⟩ := there
    rw [List.getElem?_eq_getElem (show i < permutation.length by omega), Option.bind_some, found,
      List.getElem?_eq_getElem (show i < vec.length by omega), equal]
  · rintro ⟨length, each⟩
    apply List.ext_getElem?
    intro j
    by_cases lt : j < vec.length
    · obtain ⟨i, iLt, rfl⟩ := List.mem_iff_getElem.mp
        (perm.mem_iff.mpr (List.mem_range.mpr (full.symm ▸ lt)))
      have moved := each i (by omega)
      rw [List.getElem?_eq_getElem iLt, Option.bind_some] at moved
      rw [placed i (by omega), List.getElem?_map, moved,
        List.getElem?_eq_getElem (show i < vec.length by omega)]
      rfl
    · rw [List.getElem?_eq_none (by omega), List.getElem?_eq_none (by simp; omega)]

theorem permuted_perm {vec newvec : List α} (perm : permutation.Perm (List.range permutation.length))
    (full : permutation.length = vec.length)
    (permuted : permuteStrvec permutation vec = some newvec) : newvec.Perm vec := by
  obtain ⟨same, each⟩ := permuteStrvec_eq_some_iff.mp permuted
  have gathered : newvec.map some = permutation.map (vec[·]?) := by
    apply List.ext_getElem?
    intro i
    by_cases lt : i < vec.length
    · have moved := each i lt
      rw [List.getElem?_eq_getElem (show i < permutation.length by omega), Option.bind_some]
        at moved
      rw [List.getElem?_map, ← moved, List.getElem?_map,
        List.getElem?_eq_getElem (show i < permutation.length by omega), Option.map_some,
        List.getElem?_eq_getElem (by rw [← full]; exact perm_lt perm (by omega))]
      rfl
    · rw [List.getElem?_eq_none (by simp; omega), List.getElem?_eq_none (by simp; omega)]
  have inOrder : (List.range permutation.length).map (vec[·]?) = vec.map some := by
    apply List.ext_getElem?
    intro i
    by_cases lt : i < vec.length
    · simp [full, lt]
    · rw [List.getElem?_eq_none (by simp; omega), List.getElem?_eq_none (by simp; omega)]
  have whole : (newvec.map some).Perm (vec.map some) := by
    rw [gathered, ← inOrder]
    exact perm.map _
  exact (List.map_perm_map_iff (Option.some_injective _)).mp whole

/-- A vector of permuted axes comes from one vector of the axes before. -/
theorem permute_exact {axes newaxes : List (Set Int)}
    (perm : permutation.Perm (List.range permutation.length))
    (permuted : permuteStrvec permutation axes = some newaxes)
    (full : permutation.length = axes.length) :
    Reindexes (Box newaxes) (invPermuteStrvec permutation) (Box axes) := by
  obtain ⟨same, each⟩ := permuteStrvec_eq_some_iff.mp permuted
  have moved {old vector : List Int} (length : old.length = axes.length)
      (taken : permuteStrvec permutation old = some vector) :
      vector ∈ Box newaxes ↔ old ∈ Box axes := by
    obtain ⟨sameV, eachV⟩ := permuteStrvec_eq_some_iff.mp taken
    rw [box_iff, box_iff]
    constructor
    · rintro ⟨-, inside⟩
      refine ⟨length, fun k i axis atOld atAxes => ?_⟩
      obtain ⟨lt, -⟩ := List.getElem?_eq_some_iff.mp atOld
      obtain ⟨m, mLt, rfl⟩ := List.mem_iff_getElem.mp
        (perm.mem_iff.mpr (List.mem_range.mpr (show k < permutation.length by omega)))
      have here := each m (by omega)
      have hereV := eachV m (by omega)
      rw [List.getElem?_eq_getElem mLt, Option.bind_some] at here hereV
      exact inside m i axis (hereV.symm.trans atOld) (here.symm.trans atAxes)
    · rintro ⟨-, inside⟩
      refine ⟨by omega, fun k i axis atVector atAxes => ?_⟩
      obtain ⟨lt, -⟩ := List.getElem?_eq_some_iff.mp atVector
      have here := each k (by omega)
      have hereV := eachV k (by omega)
      rw [List.getElem?_eq_getElem (by omega), Option.bind_some] at here hereV
      exact inside _ i axis (hereV.trans atVector) (here.trans atAxes)
  refine ⟨?_, ?_⟩
  · intro vector inside old found
    have taken := (invPermuteStrvec_eq_some_iff perm
      (by rw [full, ← same]; exact (box_length inside).symm)).mp found
    have length := (permuteStrvec_eq_some_iff.mp taken).1
    exact (moved (by rw [← length, box_length inside, same]) taken).mp inside
  · intro old inside
    obtain ⟨vector, taken⟩ := permuteStrvec_total perm old (by rw [full, box_length inside])
    have length := (permuteStrvec_eq_some_iff.mp taken).1
    have inverse : invPermuteStrvec permutation vector = some old :=
      (invPermuteStrvec_eq_some_iff perm (by rw [full, length, box_length inside])).mpr taken
    refine ⟨vector, ⟨(moved (box_length inside) taken).mpr inside, inverse⟩, ?_⟩
    rintro other ⟨otherInside, found⟩
    have taken' := (invPermuteStrvec_eq_some_iff perm
      (by rw [full, ← same]; exact (box_length otherInside).symm)).mp found
    exact Option.some.inj (taken'.symm.trans taken)

end Vectors

end Sac2c.StrvecPermutations
