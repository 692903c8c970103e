import Mathlib.Data.Fin.Basic
import Sac2c.ModuloPartitioning

/-!
The shared result method of arrayopt/wl_modulo_partitioning.c: a generator is cut into one
partition for each result of a modulo operation, which is then computed once outside of the
with-loop. The lower bounds of the partitions come out of a cache, the step is shared.
-/

namespace Sac2c.SharedResults

open ModuloPartitioning (aplmod NodeCache cacheWrapper Lags cache_wrapper_node lags_wrapper
  dvd_sub_aplmod aplmod_eq_iff aplmod_range)

variable {dims : Nat}

section Model

/-- The bounds and the step of a partition; the width is 1. -/
structure Generator (dims : Nat) where
  bound1 : Fin dims → Int
  bound2 : Fin dims → Int
  /-- PART_STEP may be NULL. -/
  step : Option (Fin dims → Int)

def Generator.stepAt (generator : Generator dims) (dim : Fin dims) : Int :=
  generator.step.getD (fun _ => 1) dim

/-- `aplmod (iv + c, x)`, where `iv` is the index of the generator in `dimension`. -/
structure Modulo (dims : Nat) where
  generator : Generator dims
  dimension : Fin dims
  offset : Int
  divisor : Int
  /-- DeterminePartitionMethod aborts otherwise. -/
  unit_step : generator.stepAt dimension = 1

/-- What DetermineNrSharedResultPartitions knows besides the divisor. -/
structure Settings where
  dosrp : Bool
  isConstLowerBound : Bool
  isConstUpperBound : Bool
  isConstDivisor : Bool
  cuda : Bool
  aggressive : Bool

def determineNrSharedResultPartitions (settings : Settings) (divisor : Int) : Nat :=
  if !settings.dosrp then 0
  else if !settings.isConstDivisor || divisor == 0 then 0
  else
    let isBeneficial := (settings.isConstLowerBound && settings.isConstUpperBound) ||
      divisor.natAbs == 1 || settings.cuda
    if !isBeneficial && !settings.aggressive then 0 else divisor.natAbs

/-- INFO_LOWER_BOUND_CACHE and INFO_SRP_NEW_STEP_AVIS. -/
structure Caches (dims : Nat) where
  lowerBound : Option NodeCache
  newStep : Option (Fin dims → Int)

/-- ResetNodeCaches. -/
def Caches.reset : Caches dims := ⟨none, none⟩

/-- A partition, and the value that stands for the modulo operation in its code. -/
structure Part (dims : Nat) where
  generator : Generator dims
  result : Int

variable (modulo : Modulo dims)

def Modulo.lowerBound : Int := modulo.generator.bound1 modulo.dimension

def Modulo.upperBound : Int := modulo.generator.bound2 modulo.dimension

def getSrpLowerBound (nrCurrent : Nat) (caches : Caches dims) : NodeCache :=
  cacheWrapper modulo.lowerBound (· + 1) nrCurrent caches.lowerBound

def setSrpStep (partition : Generator dims) (caches : Caches dims) : Generator dims × Caches dims :=
  match caches.newStep with
  | some newStep => ({ partition with step := some newStep }, caches)
  | none =>
      let newStep := Function.update (partition.step.getD fun _ => 1) modulo.dimension
        modulo.divisor.natAbs
      ({ partition with step := some newStep }, { caches with newStep := some newStep })

def setPartitionBounds (nrCurrent : Nat) (partition : Generator dims) (caches : Caches dims) :
    Generator dims × Caches dims :=
  let lower := getSrpLowerBound modulo nrCurrent caches
  setSrpStep modulo
    { partition with
      bound1 := Function.update partition.bound1 modulo.dimension lower.node
      bound2 := Function.update partition.bound2 modulo.dimension modulo.upperBound }
    { caches with lowerBound := some lower }

def replaceAplmod (nrRequired nrCurrent : Nat) (caches : Caches dims) : Int × Caches dims :=
  let lower := getSrpLowerBound modulo nrCurrent caches
  (aplmod (lower.node + modulo.offset) modulo.divisor,
    if nrCurrent + 1 = nrRequired then Caches.reset else { caches with lowerBound := some lower })

/-- ATravPart for a copy of the partition and the `remaining` ones behind it. -/
def travParts (nrRequired : Nat) : Nat → Nat → Caches dims → List (Part dims) × Caches dims
  | 0, _, caches => ([], caches)
  | remaining + 1, nrCurrent, caches =>
      let (partition, caches) := setPartitionBounds modulo nrCurrent modulo.generator caches
      let (result, caches) := replaceAplmod modulo nrRequired nrCurrent caches
      let (parts, caches) := travParts nrRequired remaining (nrCurrent + 1) caches
      (⟨partition, result⟩ :: parts, caches)

/-- What becomes of the partition. If no other partition uses its code and it is not cut, then
WLMPprf replaces the operation at once. -/
def splitPartition (nrRequired : Nat) (isUniquePartitionCode : Bool) (caches : Caches dims) :
    List (Part dims) × Caches dims :=
  if isUniquePartitionCode && nrRequired == 1 then
    let (result, caches) := replaceAplmod modulo nrRequired 0 caches
    ([⟨modulo.generator, result⟩], caches)
  else travParts modulo nrRequired nrRequired 0 caches

end Model

section Meaning

def Generator.ContainsAt (generator : Generator dims) (dim : Fin dims) (index : Int) : Prop :=
  generator.bound1 dim ≤ index ∧ index < generator.bound2 dim ∧
    (index - generator.bound1 dim) % generator.stepAt dim = 0

def Generator.Contains (generator : Generator dims) (iv : Fin dims → Int) : Prop :=
  ∀ dim, generator.ContainsAt dim (iv dim)

/-- The index is in `l + k <= iv < u step |x|`. -/
def Modulo.InResidue (modulo : Modulo dims) (k : Nat) (index : Int) : Prop :=
  modulo.lowerBound + k ≤ index ∧ index < modulo.upperBound ∧
    (index - (modulo.lowerBound + k)) % modulo.divisor.natAbs = 0

/-- The partitions make up the one that they were copied from, and in each of them the modulo
operation has one result. -/
structure Shares (modulo : Modulo dims) (parts : List (Part dims)) : Prop where
  length : parts.length = modulo.divisor.natAbs
  contains : ∀ (k : Nat) part, parts[k]? = some part → ∀ iv, part.generator.Contains iv ↔
    modulo.InResidue k (iv modulo.dimension) ∧
      ∀ dim, dim ≠ modulo.dimension → modulo.generator.ContainsAt dim (iv dim)
  disjoint : parts.Pairwise fun part other =>
    ∀ iv, part.generator.Contains iv → ¬ other.generator.Contains iv
  cover : ∀ iv, (∃ part ∈ parts, part.generator.Contains iv) ↔ modulo.generator.Contains iv
  replaced : ∀ (k : Nat) part, parts[k]? = some part →
    part.result = aplmod (modulo.lowerBound + k + modulo.offset) modulo.divisor
  result : ∀ part ∈ parts, ∀ iv, part.generator.Contains iv →
    aplmod (iv modulo.dimension + modulo.offset) modulo.divisor = part.result

end Meaning

section Residues
variable {divisor : Int}

/-- The modulo only depends on the residue. -/
theorem aplmod_congr (nonzero : divisor ≠ 0) {dividend dividend' : Int}
    (congruent : divisor ∣ dividend - dividend') :
    aplmod dividend divisor = aplmod dividend' divisor := by
  apply (aplmod_eq_iff dividend nonzero ?_).mpr (aplmod_range dividend' nonzero)
  have split : dividend - aplmod dividend' divisor =
      dividend - dividend' + (dividend' - aplmod dividend' divisor) := by
    omega
  rw [split]
  exact Int.dvd_add congruent (dvd_sub_aplmod dividend' divisor)

variable {modulo : Modulo dims}

theorem in_residue_iff {k : Nat} (small : k < modulo.divisor.natAbs)
    (index : Int) : modulo.InResidue k index ↔
      (modulo.lowerBound ≤ index ∧ index < modulo.upperBound) ∧
        (index - modulo.lowerBound) % modulo.divisor.natAbs = k := by
  have positive : (0 : Int) < modulo.divisor.natAbs := by omega
  have same : index - (modulo.lowerBound + k) = index - modulo.lowerBound - k := by omega
  rw [Modulo.InResidue, same]
  constructor
  · rintro ⟨lower, upper, whole⟩
    have residue := Int.emod_eq_emod_iff_emod_sub_eq_zero.mpr whole
    rw [Int.emod_eq_of_lt (Int.natCast_nonneg k) (Int.ofNat_lt.mpr small)] at residue
    exact ⟨⟨by omega, upper⟩, residue⟩
  · rintro ⟨⟨lower, upper⟩, residue⟩
    have split := Int.emod_add_mul_ediv (index - modulo.lowerBound) modulo.divisor.natAbs
    have rounds : 0 ≤ (modulo.divisor.natAbs : Int) *
        ((index - modulo.lowerBound) / modulo.divisor.natAbs) :=
      Int.mul_nonneg positive.le (Int.ediv_nonneg (Int.sub_nonneg_of_le lower) positive.le)
    refine ⟨by omega, upper, Int.emod_eq_emod_iff_emod_sub_eq_zero.mp ?_⟩
    rw [residue, Int.emod_eq_of_lt (Int.natCast_nonneg k) (Int.ofNat_lt.mpr small)]

theorem in_residue_aplmod (nonzero : modulo.divisor ≠ 0) {k : Nat} {index : Int}
    (inside : modulo.InResidue k index) :
    aplmod (index + modulo.offset) modulo.divisor =
      aplmod (modulo.lowerBound + k + modulo.offset) modulo.divisor := by
  apply aplmod_congr nonzero
  have split : index + modulo.offset - (modulo.lowerBound + k + modulo.offset) =
      index - (modulo.lowerBound + k) := by
    omega
  rw [split]
  exact Int.natAbs_dvd.mp (Int.dvd_of_emod_eq_zero inside.2.2)

end Residues

section Caches
variable {modulo : Modulo dims}

def Modulo.newStep (modulo : Modulo dims) : Fin dims → Int :=
  Function.update (modulo.generator.step.getD fun _ => 1) modulo.dimension modulo.divisor.natAbs

/-- The partition with the number `k`. -/
def Modulo.part (modulo : Modulo dims) (k : Nat) : Part dims where
  generator :=
    { bound1 := Function.update modulo.generator.bound1 modulo.dimension (modulo.lowerBound + k)
      bound2 := Function.update modulo.generator.bound2 modulo.dimension modulo.upperBound
      step := some modulo.newStep }
  result := aplmod (modulo.lowerBound + k + modulo.offset) modulo.divisor

/-- The caches are empty, or have been filled for this partition or an earlier one. -/
structure Ready (modulo : Modulo dims) (nrCurrent : Nat) (caches : Caches dims) : Prop where
  lower : Lags modulo.lowerBound (· + 1) nrCurrent caches.lowerBound
  step : ∀ newStep, caches.newStep = some newStep → newStep = modulo.newStep

/-- The caches after the bounds of a partition have been set. -/
def Modulo.filled (modulo : Modulo dims) (nrCurrent : Nat) : Caches dims :=
  ⟨some ⟨nrCurrent, modulo.lowerBound + nrCurrent⟩, some modulo.newStep⟩

theorem reset_ready (modulo : Modulo dims) (nrCurrent : Nat) :
    Ready modulo nrCurrent Caches.reset := by
  constructor
  · intro entry cached
    cases cached
  · intro newStep cached
    cases cached

theorem iterate_lower_bound (bound1 : Int) (k : Nat) : (· + 1)^[k] bound1 = bound1 + k := by
  induction k with
  | zero => exact (Int.add_zero bound1).symm
  | succ k ih =>
      rw [Function.iterate_succ_apply', ih, Nat.cast_succ]
      omega

theorem filled_ready (modulo : Modulo dims) (nrCurrent : Nat) :
    Ready modulo nrCurrent (modulo.filled nrCurrent) := by
  constructor
  · intro entry cached
    cases cached
    exact ⟨Nat.le_refl nrCurrent, (iterate_lower_bound _ _).symm⟩
  · intro newStep cached
    cases cached
    rfl

theorem Ready.later {nrCurrent : Nat} {caches : Caches dims}
    (ready : Ready modulo nrCurrent caches) : Ready modulo (nrCurrent + 1) caches :=
  ⟨ready.lower.later, ready.step⟩

variable {nrCurrent : Nat} {caches : Caches dims}

theorem get_lower_bound_eq (ready : Ready modulo nrCurrent caches) :
    getSrpLowerBound modulo nrCurrent caches = ⟨nrCurrent, modulo.lowerBound + nrCurrent⟩ := by
  rw [getSrpLowerBound, cache_wrapper_node ready.lower, iterate_lower_bound]

/-- Every copy gets the step of the first one. -/
theorem set_partition_bounds_eq (ready : Ready modulo nrCurrent caches) :
    setPartitionBounds modulo nrCurrent modulo.generator caches =
      ((modulo.part nrCurrent).generator, modulo.filled nrCurrent) := by
  rw [setPartitionBounds, get_lower_bound_eq ready]
  cases cached : caches.newStep with
  | none =>
      simp only [setSrpStep]
      rfl
  | some newStep =>
      simp only [setSrpStep]
      rw [ready.step newStep cached]
      rfl

theorem replace_aplmod_eq (modulo : Modulo dims) (nrRequired nrCurrent : Nat) :
    replaceAplmod modulo nrRequired nrCurrent (modulo.filled nrCurrent) =
      ((modulo.part nrCurrent).result,
        if nrCurrent + 1 = nrRequired then Caches.reset else modulo.filled nrCurrent) := by
  rw [replaceAplmod, get_lower_bound_eq (filled_ready modulo nrCurrent)]
  rfl

/-- All partitions from `nrCurrent` on are built, and then the caches are empty again. -/
theorem trav_parts_eq (nrRequired remaining : Nat) (all : nrCurrent + (remaining + 1) = nrRequired)
    (ready : Ready modulo nrCurrent caches) :
    travParts modulo nrRequired (remaining + 1) nrCurrent caches =
      ((List.range' nrCurrent (remaining + 1)).map modulo.part, Caches.reset) := by
  induction remaining generalizing nrCurrent caches with
  | zero =>
      rw [travParts, set_partition_bounds_eq ready]
      dsimp only
      rw [replace_aplmod_eq, if_pos all]
      rfl
  | succ remaining ih =>
      have inner : nrCurrent + 1 ≠ nrRequired := by omega
      have later := ih (by omega) (filled_ready modulo nrCurrent).later
      rw [travParts, set_partition_bounds_eq ready]
      dsimp only
      rw [replace_aplmod_eq, if_neg inner, later]
      rfl

end Caches

section Partitions
variable {modulo : Modulo dims}

theorem part_contains (modulo : Modulo dims) (k : Nat) (iv : Fin dims → Int) :
    (modulo.part k).generator.Contains iv ↔ modulo.InResidue k (iv modulo.dimension) ∧
      ∀ dim, dim ≠ modulo.dimension → modulo.generator.ContainsAt dim (iv dim) := by
  have here : (modulo.part k).generator.ContainsAt modulo.dimension (iv modulo.dimension) ↔
      modulo.InResidue k (iv modulo.dimension) := by
    simp [Generator.ContainsAt, Generator.stepAt, Modulo.part, Modulo.newStep, Modulo.InResidue]
  have there (dim : Fin dims) (other : dim ≠ modulo.dimension) :
      (modulo.part k).generator.ContainsAt dim (iv dim) ↔
        modulo.generator.ContainsAt dim (iv dim) := by
    simp [Generator.ContainsAt, Generator.stepAt, Modulo.part, Modulo.newStep, other]
  constructor
  · intro inside
    exact ⟨here.mp (inside modulo.dimension), fun dim other => (there dim other).mp (inside dim)⟩
  · rintro ⟨residue, others⟩ dim
    by_cases same : dim = modulo.dimension
    · rw [same]
      exact here.mpr residue
    · exact (there dim same).mpr (others dim same)

/-- The step of the dimension was 1. -/
theorem generator_contains (modulo : Modulo dims) (iv : Fin dims → Int) :
    modulo.generator.Contains iv ↔
      (modulo.lowerBound ≤ iv modulo.dimension ∧ iv modulo.dimension < modulo.upperBound) ∧
        ∀ dim, dim ≠ modulo.dimension → modulo.generator.ContainsAt dim (iv dim) := by
  have here : modulo.generator.ContainsAt modulo.dimension (iv modulo.dimension) ↔
      modulo.lowerBound ≤ iv modulo.dimension ∧ iv modulo.dimension < modulo.upperBound := by
    rw [Generator.ContainsAt, modulo.unit_step, Int.emod_one, and_iff_left rfl]
    rfl
  constructor
  · intro inside
    exact ⟨here.mp (inside modulo.dimension), fun dim _ => inside dim⟩
  · rintro ⟨range, others⟩ dim
    by_cases same : dim = modulo.dimension
    · rw [same]
      exact here.mpr range
    · exact others dim same

theorem in_range {k : Nat} {index : Int} (inside : modulo.InResidue k index) :
    modulo.lowerBound ≤ index ∧ index < modulo.upperBound := by
  obtain ⟨lower, upper, _⟩ := inside
  exact ⟨by omega, upper⟩

/-- An index belongs to the partition of its residue, and to no other one. -/
theorem residue_unique {j k : Nat} {index : Int} (smallJ : j < modulo.divisor.natAbs)
    (smallK : k < modulo.divisor.natAbs) (first : modulo.InResidue j index)
    (second : modulo.InResidue k index) : j = k := by
  have residueJ := ((in_residue_iff smallJ index).mp first).2
  have residueK := ((in_residue_iff smallK index).mp second).2
  exact Int.ofNat_inj.mp (residueJ.symm.trans residueK)

theorem residue_exists (nonzero : modulo.divisor ≠ 0) {index : Int}
    (lower : modulo.lowerBound ≤ index) (upper : index < modulo.upperBound) :
    ∃ k < modulo.divisor.natAbs, modulo.InResidue k index := by
  have positive : (0 : Int) < modulo.divisor.natAbs := by omega
  obtain ⟨k, residue⟩ := Int.eq_ofNat_of_zero_le
    (Int.emod_nonneg (index - modulo.lowerBound) positive.ne')
  have small := Int.emod_lt_of_pos (index - modulo.lowerBound) positive
  rw [residue] at small
  have bound : k < modulo.divisor.natAbs := Int.ofNat_lt.mp small
  exact ⟨k, bound, (in_residue_iff bound index).mpr ⟨⟨lower, upper⟩, residue⟩⟩

/-- It is enough to know what the partition with the number `k` contains and what its result is. -/
theorem shares_of_parts (nonzero : modulo.divisor ≠ 0) (parts : List (Part dims))
    (length : parts.length = modulo.divisor.natAbs)
    (contains : ∀ (k : Nat) part, parts[k]? = some part → ∀ iv, part.generator.Contains iv ↔
      modulo.InResidue k (iv modulo.dimension) ∧
        ∀ dim, dim ≠ modulo.dimension → modulo.generator.ContainsAt dim (iv dim))
    (replaced : ∀ (k : Nat) part, parts[k]? = some part →
      part.result = aplmod (modulo.lowerBound + k + modulo.offset) modulo.divisor) :
    Shares modulo parts := by
  refine ⟨length, contains, ?_, ?_, replaced, ?_⟩
  · rw [List.pairwise_iff_getElem]
    intro j k boundJ boundK before iv first second
    have residueJ := ((contains j _ (List.getElem?_eq_getElem boundJ) iv).mp first).1
    have residueK := ((contains k _ (List.getElem?_eq_getElem boundK) iv).mp second).1
    have same := residue_unique (length ▸ boundJ) (length ▸ boundK) residueJ residueK
    exact Nat.ne_of_lt before same
  · intro iv
    rw [generator_contains]
    constructor
    · rintro ⟨part, member, inside⟩
      obtain ⟨k, found⟩ := List.mem_iff_getElem?.mp member
      obtain ⟨residue, others⟩ := (contains k part found iv).mp inside
      exact ⟨in_range residue, others⟩
    · rintro ⟨⟨lower, upper⟩, others⟩
      obtain ⟨k, small, residue⟩ := residue_exists nonzero lower upper
      have found := List.getElem?_eq_getElem (length.symm ▸ small : k < parts.length)
      exact ⟨_, List.mem_of_getElem? found, (contains k _ found iv).mpr ⟨residue, others⟩⟩
  · intro part member iv inside
    obtain ⟨k, found⟩ := List.mem_iff_getElem?.mp member
    rw [replaced k part found]
    exact in_residue_aplmod nonzero ((contains k part found iv).mp inside).1

theorem travelled_shares (nonzero : modulo.divisor ≠ 0) :
    Shares modulo ((List.range' 0 modulo.divisor.natAbs).map modulo.part) := by
  have part (k : Nat) (part : Part dims)
      (found : ((List.range' 0 modulo.divisor.natAbs).map modulo.part)[k]? = some part) :
      part = modulo.part k := by
    obtain ⟨bound, same⟩ := List.getElem?_eq_some_iff.mp found
    rw [← same, List.getElem_map, List.getElem_range', Nat.zero_add, Nat.one_mul]
  apply shares_of_parts nonzero
  · rw [List.length_map, List.length_range']
  · intro k other found iv
    rw [part k other found]
    exact part_contains modulo k iv
  · intro k other found
    rw [part k other found]
    rfl

/-- With a divisor of 1 or -1 the partition stays as it is. -/
theorem shortcut_shares (single : modulo.divisor.natAbs = 1) :
    Shares modulo [⟨modulo.generator, (modulo.part 0).result⟩] := by
  have part (k : Nat) (part : Part dims)
      (found : [(⟨modulo.generator, (modulo.part 0).result⟩ : Part dims)][k]? = some part) :
      k = 0 ∧ part = ⟨modulo.generator, (modulo.part 0).result⟩ := by
    cases k with
    | zero => exact ⟨rfl, (Option.some.inj found).symm⟩
    | succ k => cases found
  apply shares_of_parts (by omega)
  · exact single.symm
  · intro k other found iv
    obtain ⟨rfl, rfl⟩ := part k other found
    rw [generator_contains, Modulo.InResidue, single, Nat.cast_one, Int.emod_one,
      Nat.cast_zero, Int.add_zero, and_iff_left rfl]
  · intro k other found
    obtain ⟨rfl, rfl⟩ := part k other found
    rfl

theorem split_partition_shares (nonzero : modulo.divisor ≠ 0) (isUniquePartitionCode : Bool) :
    Shares modulo (splitPartition modulo modulo.divisor.natAbs isUniquePartitionCode
        Caches.reset).1 ∧
      (splitPartition modulo modulo.divisor.natAbs isUniquePartitionCode Caches.reset).2 =
        Caches.reset := by
  rw [splitPartition]
  split_ifs with shortcut
  · obtain ⟨_, single⟩ := Bool.and_eq_true_iff.mp shortcut
    have single := beq_iff_eq.mp single
    have lower := get_lower_bound_eq (reset_ready modulo 0)
    simp only [replaceAplmod, lower, single, if_true, and_true]
    exact shortcut_shares single
  · obtain ⟨remaining, count⟩ := Nat.exists_eq_succ_of_ne_zero (Int.natAbs_ne_zero.mpr nonzero)
    have built := trav_parts_eq modulo.divisor.natAbs remaining (by omega) (reset_ready modulo 0)
    rw [← Nat.succ_eq_add_one, ← count] at built
    rw [built]
    exact ⟨travelled_shares nonzero, rfl⟩

/-- Whatever the settings are there is no other number of partitions. -/
theorem determine_nr (settings : Settings) (divisor : Int) :
    determineNrSharedResultPartitions settings divisor = 0 ∨
      determineNrSharedResultPartitions settings divisor = divisor.natAbs := by
  rw [determineNrSharedResultPartitions]
  dsimp only
  split_ifs
  · exact Or.inl rfl
  · exact Or.inl rfl
  · exact Or.inl rfl
  · exact Or.inr rfl

/-- The shared result method, which leaves the caches as it finds them. -/
theorem shared_result (modulo : Modulo dims) (nonzero : modulo.divisor ≠ 0) (settings : Settings)
    (isUniquePartitionCode : Bool) :
    (determineNrSharedResultPartitions settings modulo.divisor = 0 ∨
      determineNrSharedResultPartitions settings modulo.divisor = modulo.divisor.natAbs) ∧
    Shares modulo (splitPartition modulo modulo.divisor.natAbs isUniquePartitionCode
      Caches.reset).1 ∧
    (splitPartition modulo modulo.divisor.natAbs isUniquePartitionCode Caches.reset).2 =
      Caches.reset :=
  ⟨determine_nr settings modulo.divisor, split_partition_shares nonzero isUniquePartitionCode⟩

/-- `aplmod (iv + 1, -3)` in `4 <= iv < 6`. -/
def third : Modulo 1 where
  generator := ⟨fun _ => 4, fun _ => 6, none⟩
  dimension := ⟨0, Nat.one_pos⟩
  offset := 1
  divisor := -3
  unit_step := rfl

/-- There are fewer indices than partitions. -/
theorem shared_result_third : third.divisor ≠ 0 ∧
    Shares third (splitPartition third 3 false Caches.reset).1 := by
  have nonzero : third.divisor ≠ 0 := by decide
  exact ⟨nonzero, (shared_result third nonzero ⟨true, true, true, true, false, false⟩ false).2.1⟩

end Partitions

end Sac2c.SharedResults
