import Mathlib.Tactic.Common
import Sac2c.Arenas

/-!
The choice of an arena and of a number of units for a request in bytes: the comparison
tree of SAC_HM_MallocAnyChunk_st, _mt and _at (libsacphm/heap/wrapper.c), of the library
malloc (libsacphm/compat/malloc.c) and of the macro SAC_HM_MALLOC_FIXED_SIZE without cache
adjustment (runtime/phm_h/phm.h). Sizes in bytes have 64 bits and no sign, numbers of units
have 64 bits and a sign.
-/

namespace Sac2c.SizeClasses

open Arenas

section Model

/-- SAC_HM_size_byte_t. -/
abbrev SizeByte := BitVec 64

/-- SAC_HM_size_unit_t. -/
abbrev SizeUnit := BitVec 64

/-- SAC_HM_ARENA_n_MAXCS_BYTES, an unsigned long. -/
def maxcsBytes (num : Nat) : SizeByte := BitVec.ofNat 64 (arenaMaxcsBytes num)

/-- The tree of comparisons, down to the number of the arena and the units. -/
def comparisonTree (unitsOf : SizeByte → SizeUnit) (size : SizeByte) : Nat × SizeUnit :=
  if size ≤ maxcsBytes 4 then
    if size ≤ maxcsBytes 2 then
      if size ≤ maxcsBytes 1 then (1, 2) else (2, 4)
    else
      if size ≤ maxcsBytes 3 then (3, 8) else (4, 16)
  else
    let units := unitsOf size
    if units.toInt < arenaMincs 7 then
      if units.toInt < arenaMincs 6 then (5, units) else (6, units)
    else
      if units.toInt < arenaMincs 8 then (7, units) else (topArena, units)

/-- The units of the functions: `((size - 1) / SAC_HM_UNIT_SIZE) + 3`. -/
def unitsOfFunction (size : SizeByte) : SizeUnit := (size - 1) / 16 + 3

/-- The units of the macro: `SAC_HM_BYTES_2_UNITS (size) + 2`. -/
def unitsOfMacro (size : SizeByte) : SizeUnit := ((size - 1) / 16 + 1) + 2

/-- The call of SAC_HM_MallocSmallChunk or SAC_HM_MallocLargeChunk that is made, with
`SAC_HM_arenas[thread][arena]`, and whether SAC_HM_top_arena_lock is held. -/
structure Call where
  thread : BitVec 32
  arena : Nat
  units : SizeUnit
  locked : Bool
  deriving DecidableEq

/-- The arenas below the top one belong to a thread, and the top arena to all. -/
def callOf (thread : BitVec 32) (multiThreaded : Bool) : Nat × SizeUnit → Call
  | (arena, units) =>
      if arena = topArena then ⟨0, topArena, units, multiThreaded⟩ else ⟨thread, arena, units, false⟩

/-- SAC_MT_MODE = 0, or SAC_MT_globally_single, or neither. -/
inductive Threading where
  | sequential
  | globallySingle
  | multiThreaded
  deriving DecidableEq

def mallocAnyChunkSt (size : SizeByte) : Call :=
  callOf 0 false (comparisonTree unitsOfFunction size)

/-- It does not look at SAC_MT_globally_single. -/
def mallocAnyChunkMt (threading : Threading) (size : SizeByte) (threadId : BitVec 32) : Call :=
  if threading = .sequential then mallocAnyChunkSt size
  else callOf threadId true (comparisonTree unitsOfFunction size)

def mallocAnyChunkAt (threading : Threading) (size : SizeByte) (threadId : BitVec 32) : Call :=
  if threading = .sequential then mallocAnyChunkSt size
  else callOf threadId (threading = .multiThreaded) (comparisonTree unitsOfFunction size)

/-- What malloc stores in `thread_id` for a request that goes to the top arena. -/
def invalidId : BitVec 32 := 0xb19b00b5

/-- Whether malloc calls SAC_HM_CurrentThreadId. -/
def looksUp (threading : Threading) (size : SizeByte) : Bool :=
  threading = .multiThreaded && size ≤ maxcsBytes 7

/-- The library malloc up to the call, where `current` is what SAC_HM_CurrentThreadId answers;
none if the assertion on `thread_id` fails. -/
def malloc (threading : Threading) (current : BitVec 32) (size : SizeByte) : Option Call :=
  let threadId := match threading with
    | .multiThreaded => if looksUp threading size then current else invalidId
    | _ => 0
  let call := callOf threadId (threading = .multiThreaded) (comparisonTree unitsOfFunction size)
  if 5 ≤ call.arena ∧ call.arena < topArena ∧ ¬ 0 ≤ threadId.toInt then none else some call

/-- SAC_HM_thread_status, with SAC_MT_SELF_THREAD_ID. An ST function runs only as long as the
program is globally single (SAC_HM_ASSERT). -/
inductive ThreadStatus where
  | singleThreaded
  | multiThreaded (self : BitVec 32)
  | anyThreaded (globallySingle : Bool) (self : BitVec 32)

/-- SAC_HM_MALLOC_FIXED_SIZE, in a build without SAC_DO_MULTITHREAD if there is no status. -/
def mallocFixedSize (status : Option ThreadStatus) (size : SizeByte) : Call :=
  let chosen := comparisonTree unitsOfMacro size
  match status with
  | none => callOf 0 false chosen
  | some .singleThreaded => callOf 0 false chosen
  | some (.multiThreaded self) => callOf self true chosen
  | some (.anyThreaded globallySingle self) => callOf self (!globallySingle) chosen

end Model

section Units

theorem maxcs_bytes_value :
    (maxcsBytes 1).toNat = 16 ∧ (maxcsBytes 2).toNat = 48 ∧ (maxcsBytes 3).toNat = 112 ∧
      (maxcsBytes 4).toNat = 240 ∧ (maxcsBytes 7).toNat = 131040 := by
  decide

/-- In a large arena nothing overflows. -/
theorem units_of_function (size : SizeByte) (large : 1 ≤ size.toNat) :
    (unitsOfFunction size).toInt = (size.toNat - 1) / 16 + 3 := by
  have bounded := size.isLt
  have less : (size - 1).toNat = size.toNat - 1 := by bv_omega
  have value : (unitsOfFunction size).toNat = (size.toNat - 1) / 16 + 3 := by
    have sixteen : (16 : SizeByte).toNat = 16 := rfl
    have three : (3 : SizeByte).toNat = 3 := rfl
    rw [unitsOfFunction, BitVec.toNat_add, BitVec.toNat_udiv, less, sixteen, three]
    exact Nat.mod_eq_of_lt (by omega)
  rw [BitVec.toInt_eq_toNat_of_lt (by omega), value]
  omega

theorem units_of_macro (size : SizeByte) : unitsOfMacro size = unitsOfFunction size := by
  rw [unitsOfMacro, unitsOfFunction, BitVec.add_assoc]
  rfl

end Units

section Classes

/-- The units of header in front of a payload. -/
def headerUnits (arena : Nat) : Int := if IsSmallArena arena then 1 else 2

/-- What is left of a new bin has a header again, and in a large arena a last unit is kept
for the arena of arenas. The top arena has no bins. -/
def BinServes (arena : Nat) (units : Int) : Prop :=
  if IsSmallArena arena then units + 1 ≤ arenaBinsize arena
  else arena < topArena → units + 3 ≤ arenaBinsize arena - 1

/-- A request of the class of the arena. -/
structure InClass (size : SizeByte) (arena : Nat) (units : Int) : Prop where
  known : 1 ≤ arena ∧ arena ≤ topArena
  least : arenaMincs arena ≤ units
  below : arena < topArena → units < arenaMincs (arena + 1)
  room : size.toNat ≤ (units - headerUnits arena) * unitSize
  bin : BinServes arena units

/-- Where the comparisons of a size lead. -/
theorem tree_cases (size : SizeByte) :
    (size.toNat ≤ 16 ∧ comparisonTree unitsOfFunction size = (1, 2)) ∨
    (16 < size.toNat ∧ size.toNat ≤ 48 ∧ comparisonTree unitsOfFunction size = (2, 4)) ∨
    (48 < size.toNat ∧ size.toNat ≤ 112 ∧ comparisonTree unitsOfFunction size = (3, 8)) ∨
    (112 < size.toNat ∧ size.toNat ≤ 240 ∧ comparisonTree unitsOfFunction size = (4, 16)) ∨
    (240 < size.toNat ∧ size.toNat ≤ 131040 ∧ ∃ arena, 5 ≤ arena ∧ arena < topArena ∧
      comparisonTree unitsOfFunction size = (arena, unitsOfFunction size) ∧
      arenaMincs arena ≤ (unitsOfFunction size).toInt ∧
      (unitsOfFunction size).toInt < arenaMincs (arena + 1)) ∨
    (131040 < size.toNat ∧ comparisonTree unitsOfFunction size = (topArena, unitsOfFunction size) ∧
      arenaMincs topArena ≤ (unitsOfFunction size).toInt) := by
  obtain ⟨max1, max2, max3, max4, _⟩ := maxcs_bytes_value
  simp only [comparisonTree, BitVec.le_def, max1, max2, max3, max4]
  by_cases small : size.toNat ≤ 240
  · rw [if_pos small]
    split_ifs with two one three
    · exact Or.inl ⟨one, rfl⟩
    · exact Or.inr (Or.inl ⟨by omega, two, rfl⟩)
    · exact Or.inr (Or.inr (Or.inl ⟨by omega, three, rfl⟩))
    · exact Or.inr (Or.inr (Or.inr (Or.inl ⟨by omega, small, rfl⟩)))
  · have units := units_of_function size (by omega)
    rw [if_neg small]
    simp only [arenaMincs, topArena, units]
    split_ifs with seven six eight
    · exact Or.inr (Or.inr (Or.inr (Or.inr (Or.inl
        ⟨by omega, by omega, 5, by decide, by decide, rfl, by simp only; omega, six⟩))))
    · exact Or.inr (Or.inr (Or.inr (Or.inr (Or.inl
        ⟨by omega, by omega, 6, by decide, by decide, rfl, by simp only; omega, seven⟩))))
    · exact Or.inr (Or.inr (Or.inr (Or.inr (Or.inl
        ⟨by omega, by omega, 7, by decide, by decide, rfl, by simp only; omega, eight⟩))))
    · exact Or.inr (Or.inr (Or.inr (Or.inr (Or.inr ⟨by omega, rfl, by omega⟩))))

theorem small_in_class {size : SizeByte} {arena : Nat} {units : SizeUnit} (count : Nat)
    (value : units.toInt = count) (some : 1 ≤ arena) (small : IsSmallArena arena)
    (least : arenaMincs arena ≤ count) (below : count < arenaMincs (arena + 1))
    (bin : count + 1 ≤ arenaBinsize arena) (room : size.toNat + 16 ≤ count * 16) :
    InClass size arena units.toInt := by
  have fits := small
  simp only [IsSmallArena] at fits
  rw [value]
  refine ⟨⟨some, by simp only [topArena]; omega⟩, by omega, fun _ => by omega, ?_, ?_⟩
  · simp only [headerUnits, if_pos small, unitSize]
    omega
  · simp only [BinServes, if_pos small]
    omega

theorem tree_in_class (size : SizeByte) :
    InClass size (comparisonTree unitsOfFunction size).1
      (comparisonTree unitsOfFunction size).2.toInt := by
  have small : ∀ arena, 5 ≤ arena → ¬ IsSmallArena arena := fun arena large => Nat.not_lt.mpr large
  rcases tree_cases size with ⟨most, tree⟩ | ⟨_, most, tree⟩ | ⟨_, most, tree⟩ | ⟨_, most, tree⟩ |
    ⟨more, most, arena, large, lower, tree, least, below⟩ | ⟨more, tree, least⟩
  · rw [tree]
    exact small_in_class 2 rfl (by decide) (by decide) (by decide) (by decide) (by decide)
      (by omega)
  · rw [tree]
    exact small_in_class 4 rfl (by decide) (by decide) (by decide) (by decide) (by decide)
      (by omega)
  · rw [tree]
    exact small_in_class 8 rfl (by decide) (by decide) (by decide) (by decide) (by decide)
      (by omega)
  · rw [tree]
    exact small_in_class 16 rfl (by decide) (by decide) (by decide) (by decide) (by decide)
      (by omega)
  · have units := units_of_function size (by omega)
    rw [tree]
    refine ⟨⟨by dsimp only; omega, by dsimp only; omega⟩, least, fun _ => below, ?_, ?_⟩
    · simp only [headerUnits, if_neg (small arena large), unitSize, units]
      omega
    · simp only [BinServes, if_neg (small arena large)]
      intro _
      obtain rfl | rfl | rfl : arena = 5 ∨ arena = 6 ∨ arena = 7 := by
        simp only [topArena] at lower
        omega
      · simp only [arenaMincs, arenaBinsize] at below ⊢
        omega
      · simp only [arenaMincs, arenaBinsize] at below ⊢
        omega
      · simp only [arenaMincs, arenaBinsize] at below ⊢
        omega
  · have units := units_of_function size (by omega)
    rw [tree]
    refine ⟨⟨by simp [topArena], Nat.le_refl _⟩, least, fun lower => absurd lower (Nat.lt_irrefl _),
      ?_, ?_⟩
    · simp only [headerUnits, if_neg (small topArena (by decide)), unitSize, units]
      omega
    · simp only [BinServes, if_neg (small topArena (by decide))]
      exact fun lower => absurd lower (by decide)

/-- The bound in bytes of malloc and the bounds in units of the tree agree. -/
theorem looks_up_iff (threading : Threading) (size : SizeByte) :
    looksUp threading size = true ↔
      threading = .multiThreaded ∧ (comparisonTree unitsOfFunction size).1 < topArena := by
  obtain ⟨_, _, _, _, max7⟩ := maxcs_bytes_value
  simp only [looksUp, Bool.and_eq_true, decide_eq_true_eq, BitVec.le_def, max7]
  refine and_congr_right fun _ => ?_
  rcases tree_cases size with ⟨most, tree⟩ | ⟨_, most, tree⟩ | ⟨_, most, tree⟩ | ⟨_, most, tree⟩ |
    ⟨_, most, arena, _, lower, tree, _⟩ | ⟨more, tree, _⟩
  · simp [tree, topArena, show size.toNat ≤ 131040 by omega]
  · simp [tree, topArena, show size.toNat ≤ 131040 by omega]
  · simp [tree, topArena, show size.toNat ≤ 131040 by omega]
  · simp [tree, topArena, show size.toNat ≤ 131040 by omega]
  · simp [tree, lower, most]
  · simp [tree, show ¬ size.toNat ≤ 131040 by omega]

end Classes

section Agreement

/-- The call asks for these units of this arena. -/
def Call.Chooses (call : Call) (arena : Nat) (units : SizeUnit) : Prop :=
  call.arena = arena ∧ call.units = units

theorem call_of_chooses (thread : BitVec 32) (multiThreaded : Bool) (chosen : Nat × SizeUnit) :
    (callOf thread multiThreaded chosen).Chooses chosen.1 chosen.2 := by
  obtain ⟨arena, units⟩ := chosen
  simp only [callOf, Call.Chooses]
  split
  · next top => exact ⟨top.symm, rfl⟩
  · exact ⟨rfl, rfl⟩

theorem call_of_local {thread : BitVec 32} {multiThreaded : Bool} {chosen : Nat × SizeUnit}
    (lower : chosen.1 < topArena) : (callOf thread multiThreaded chosen).thread = thread := by
  obtain ⟨arena, units⟩ := chosen
  simp only [callOf, if_neg (Nat.ne_of_lt lower)]

/-- A thread id as SAC_HM_CurrentThreadId answers it. -/
structure ThreadId where
  id : BitVec 32
  valid : 0 ≤ id.toInt

/-- What the library malloc does with a request: a lookup goes with an arena of the thread that
was found, and without one it takes the arenas of thread 0 or the top arena. -/
structure Asks (threading : Threading) (current : ThreadId) (size : SizeByte) (arena : Nat)
    (call : Call) : Prop where
  lookup : looksUp threading size = true ↔ threading = .multiThreaded ∧ arena < topArena
  found : looksUp threading size = true → call.thread = current.id
  master : looksUp threading size = false → call.thread = 0

theorem malloc_asks (threading : Threading) (current : ThreadId) (size : SizeByte) :
    ∃ call, malloc threading current.id size = some call ∧
      call.Chooses (comparisonTree unitsOfFunction size).1 (comparisonTree unitsOfFunction size).2 ∧
      Asks threading current size (comparisonTree unitsOfFunction size).1 call := by
  have lookup := looks_up_iff threading size
  have nonneg : (0 : Int) ≤ (0 : BitVec 32).toInt := by decide
  have valid := current.valid
  by_cases lower : (comparisonTree unitsOfFunction size).1 < topArena
  · cases threading with
    | multiThreaded =>
        have looks : looksUp .multiThreaded size = true := lookup.mpr ⟨rfl, lower⟩
        refine ⟨_, ?_, call_of_chooses current.id true _, lookup, ?_, ?_⟩
        · simp [malloc, looks, valid]
        · exact fun _ => call_of_local lower
        · exact fun none => absurd (none.symm.trans looks) (by decide)
    | globallySingle =>
        refine ⟨_, ?_, call_of_chooses 0 false _, lookup, nofun, fun _ => call_of_local lower⟩
        simp [malloc]
    | sequential =>
        refine ⟨_, ?_, call_of_chooses 0 false _, lookup, nofun, fun _ => call_of_local lower⟩
        simp [malloc]
  · have top : (comparisonTree unitsOfFunction size).1 = topArena := by
      have known := (tree_in_class size).known
      omega
    have none : looksUp threading size = false := by
      rw [Bool.eq_false_iff]
      exact fun looks => lower (lookup.mp looks).2
    refine ⟨_, ?_, call_of_chooses invalidId (threading = .multiThreaded) _, lookup, ?_, ?_⟩
    · cases threading <;> simp [malloc, none, callOf, top]
    · exact fun looks => absurd (none.symm.trans looks) (by decide)
    · intro _
      simp [callOf, top]

/-- All copies of the tree choose the same arena and the same units, of the right class. -/
theorem size_classes_agree (size : SizeByte) : ∃ arena units,
    InClass size arena units.toInt ∧
    (mallocAnyChunkSt size).Chooses arena units ∧
    (∀ threading thread, (mallocAnyChunkMt threading size thread).Chooses arena units) ∧
    (∀ threading thread, (mallocAnyChunkAt threading size thread).Chooses arena units) ∧
    (∀ status, (mallocFixedSize status size).Chooses arena units) ∧
    ∀ threading (current : ThreadId), ∃ call, malloc threading current.id size = some call ∧
      call.Chooses arena units ∧ Asks threading current size arena call := by
  have same : comparisonTree unitsOfMacro size = comparisonTree unitsOfFunction size := by
    simp only [comparisonTree, units_of_macro]
  refine ⟨_, _, tree_in_class size, call_of_chooses 0 false _, ?_, ?_, ?_, ?_⟩
  · intro threading thread
    simp only [mallocAnyChunkMt]
    split
    · exact call_of_chooses 0 false _
    · exact call_of_chooses thread true _
  · intro threading thread
    simp only [mallocAnyChunkAt]
    split
    · exact call_of_chooses 0 false _
    · exact call_of_chooses thread _ _
  · intro status
    simp only [mallocFixedSize, same]
    split
    · exact call_of_chooses 0 false _
    · exact call_of_chooses 0 false _
    · next self => exact call_of_chooses self true _
    · next globallySingle self => exact call_of_chooses self (!globallySingle) _
  · exact fun threading current => malloc_asks threading current size

/-- The last size of arena 7 and the first one of the top arena. -/
example : (mallocAnyChunkSt 131040).arena = 7 ∧ (mallocAnyChunkSt 131041).arena = topArena := by
  decide

end Agreement

end Sac2c.SizeClasses
