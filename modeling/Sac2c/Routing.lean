import Mathlib.Order.Basic
import Sac2c.Arenas

/-!
The allocation macros with arena preselection and descriptor allocation
optimisation, without cache adjustment, and the de-allocation macro that derives
the arena once more from the size of the array alone. The macros are followed to
the heap manager call they end in.
-/

namespace Sac2c.Routing

open Arenas

/-- SAC_HM_thread_status. -/
inductive ThreadStatus where
  | singleThreaded
  | multiThreaded
  | anyThreaded
deriving DecidableEq, Repr

/-- The units that are requested and the number of the arena they come from. -/
structure Allocation where
  units : Nat
  arena : Nat
deriving DecidableEq, Repr

/-- SAC_HM_MALLOC_FIXED_SIZE. -/
def mallocFixedSize (size : Nat) : Allocation :=
  if size ≤ arenaMaxcsBytes 4 then
    if size ≤ arenaMaxcsBytes 2 then
      if size ≤ arenaMaxcsBytes 1 then { units := 2, arena := 1 } else { units := 4, arena := 2 }
    else
      if size ≤ arenaMaxcsBytes 3 then { units := 8, arena := 3 } else { units := 16, arena := 4 }
  else
    let units := bytes2Units size + 2
    if units < arenaMincs 7 then
      if units < arenaMincs 6 then { units := units, arena := 5 }
      else { units := units, arena := 6 }
    else
      if units < arenaMincs 8 then { units := units, arena := 7 }
      else { units := units, arena := topArena }

/-- The preprocessor settings on which the size of a descriptor depends. -/
structure DescriptorSettings where
  distmem : Bool
  cudaCureg : Bool
  /-- SAC_DISTMEM_size, which is added under SAC_DO_DISTMEM_PTR_DESC. -/
  distmemSize : Nat
  /-- SAC_FORCE_DESC_SIZE, used if it is not negative. -/
  forceDescSize : Int

def defaultSettings : DescriptorSettings :=
  { distmem := false, cudaCureg := false, distmemSize := 0, forceDescSize := -1 }

/-- FIXED_SIZE_OF_DESC. -/
def fixedSizeOfDesc (settings : DescriptorSettings) : Nat :=
  if settings.distmem then 9 else if settings.cudaCureg then 7 else 6

/-- BYTE_SIZE_OF_DESC, with sizeof( intptr_t) = 8. -/
def byteSizeOfDesc (settings : DescriptorSettings) (dim : Nat) : Nat :=
  if 0 ≤ settings.forceDescSize then settings.forceDescSize.toNat
  else (fixedSizeOfDesc settings + dim * 1 + settings.distmemSize) * 8

/-- The size that SAC_HM_MALLOC_FIXED_SIZE_WITH_DESC passes on. -/
def sizeWithDesc (settings : DescriptorSettings) (size dim : Nat) : Nat :=
  size + byteSizeOfDesc settings dim + 2 * unitSize

/-- SAC_HM_MALLOC_FIXED_SIZE_WITH_DESC. -/
def mallocFixedSizeWithDesc (settings : DescriptorSettings) (size dim : Nat) : Allocation :=
  mallocFixedSize (sizeWithDesc settings size dim)

/-- SAC_HM_MallocDesc: where the descriptor begins, in units from the array. -/
def mallocDesc (size : Nat) : Nat := bytes2Units size + 1

/-- The call that a de-allocation ends in. An arena stands for the one of this
number that SAC_HM_ADDR_ARENA finds in the header, which is the only top arena
for the number 8. -/
inductive FreeCall where
  | freeSmallChunk (arena : Nat)
  | freeLargeChunk (arena : Nat)
  | freeTopArenaMt
  | freeTopArenaAt
deriving DecidableEq, Repr

/-- The switch over SAC_HM_thread_status by which the top arena is released. -/
def freeTopArena : ThreadStatus → FreeCall
  | .singleThreaded => .freeLargeChunk topArena
  | .multiThreaded => .freeTopArenaMt
  | .anyThreaded => .freeTopArenaAt

/-- SAC_HM_FREE_FIXED_SIZE on a chunk of the given arena. -/
def freeFixedSize (status : ThreadStatus) (arena size : Nat) : FreeCall :=
  if size + 2 * unitSize ≤ arenaMaxcsBytes 4 then .freeSmallChunk arena
  else if size ≤ arenaMaxcsBytes 4 then
    if arena = 4 then .freeSmallChunk arena else .freeLargeChunk arena
  else if bytes2Units size + (2 + 2) < arenaMincs 8 then .freeLargeChunk arena
  else if bytes2Units size + 2 < arenaMincs 8 then
    if arena = 7 then .freeLargeChunk arena else freeTopArena status
  else freeTopArena status

/-- Chunks of small arenas, and no others, are freed as small chunks; chunks of
the top arena, and no others, by a release of the top arena. -/
structure Routed (status : ThreadStatus) (arena size : Nat) : Prop where
  small : (∃ num, freeFixedSize status arena size = .freeSmallChunk num) ↔ IsSmallArena arena
  top : freeFixedSize status arena size = freeTopArena status ↔ arena = topArena

/-- The bytes of a chunk from the address that is handed out on. -/
def payloadBytes (allocation : Allocation) : Nat :=
  if IsSmallArena allocation.arena then (allocation.units - 1) * unitSize
  else (allocation.units - 2) * unitSize

/-- Array, header unit of the descriptor and descriptor lie one behind the other
in the chunk. Offsets are in bytes from the array. -/
structure DescriptorFits (settings : DescriptorSettings) (size dim : Nat) : Prop where
  array : size ≤ (mallocDesc size - 1) * unitSize
  header : (mallocDesc size - 1) * unitSize + unitSize ≤ mallocDesc size * unitSize
  descriptor : mallocDesc size * unitSize + byteSizeOfDesc settings dim ≤
    payloadBytes (mallocFixedSizeWithDesc settings size dim)

@[simp] theorem maxcs_bytes_four : arenaMaxcsBytes 4 = 240 := rfl

@[simp] theorem mincs_eight : arenaMincs 8 = 8193 := rfl

theorem malloc_small_iff (size : Nat) :
    IsSmallArena (mallocFixedSize size).arena ↔ size ≤ 240 := by
  unfold mallocFixedSize IsSmallArena topArena
  rw [maxcs_bytes_four]
  by_cases small : size ≤ 240
  · simp only [small, ↓reduceIte, iff_true]
    split_ifs <;> decide
  · simp only [small, ↓reduceIte, iff_false]
    split_ifs <;> simp

theorem malloc_top_iff (size : Nat) :
    (mallocFixedSize size).arena = topArena ↔ 8193 ≤ bytes2Units size + 2 := by
  unfold mallocFixedSize
  rw [maxcs_bytes_four, mincs_eight]
  by_cases small : size ≤ 240
  · have few : ¬ 8193 ≤ bytes2Units size + 2 := by
      simp only [bytes2Units, unitSize]
      omega
    simp only [small, few, ↓reduceIte, iff_false]
    split_ifs <;> decide
  · simp only [small, ↓reduceIte]
    by_cases below : bytes2Units size + 2 < 8193
    · simp only [below, ↓reduceIte, Nat.not_le.mpr below, iff_false]
      split_ifs <;> simp [topArena]
    · have notSeven : ¬ bytes2Units size + 2 < arenaMincs 7 := by
        simp only [arenaMincs]
        omega
      simp only [notSeven, below, ↓reduceIte, Nat.not_lt.mp below]

theorem malloc_arena_four (size : Nat) (above : 112 < size) (below : size ≤ 240) :
    (mallocFixedSize size).arena = 4 := by
  have notTwo : ¬ size ≤ 48 := by omega
  have notThree : ¬ size ≤ 112 := by omega
  simp [mallocFixedSize, arenaMaxcsBytes, arenaMincs, unitSize, below, notTwo, notThree]

theorem malloc_arena_seven (size : Nat) (above : 1025 ≤ bytes2Units size + 2)
    (below : bytes2Units size + 2 < 8193) : (mallocFixedSize size).arena = 7 := by
  have notSmall : ¬ size ≤ 240 := by
    simp only [bytes2Units, unitSize] at above
    omega
  simp [mallocFixedSize, maxcs_bytes_four, notSmall, arenaMincs, below, Nat.not_lt.mpr above]

/-- Each arena holds the requested bytes behind its own kind of header. -/
theorem malloc_fixed_size_holds (size : Nat) : size ≤ payloadBytes (mallocFixedSize size) := by
  have fits := bytes_fit_units size
  unfold mallocFixedSize
  rw [maxcs_bytes_four]
  by_cases small : size ≤ 240
  · simp only [small, ↓reduceIte, arenaMaxcsBytes, arenaMincs, unitSize]
    split_ifs <;> simp [payloadBytes, IsSmallArena, unitSize] <;> omega
  · simp only [small, ↓reduceIte]
    split_ifs <;> simpa [payloadBytes, IsSmallArena, topArena] using fits

/-- The slack of two units in the macro separates the sizes for which a small
chunk is taken for granted from those for which the header is asked. -/
theorem free_small_iff (status : ThreadStatus) (arena size : Nat) :
    (∃ num, freeFixedSize status arena size = .freeSmallChunk num) ↔
      size ≤ 208 ∨ (size ≤ 240 ∧ arena = 4) := by
  unfold freeFixedSize
  rw [maxcs_bytes_four, mincs_eight]
  by_cases tiny : size ≤ 208
  · have slack : size + 2 * unitSize ≤ 240 := by
      simp only [unitSize]
      omega
    simp [slack, tiny]
  · have slack : ¬ size + 2 * unitSize ≤ 240 := by
      simp only [unitSize]
      omega
    have release : ∀ num, freeTopArena status ≠ .freeSmallChunk num := by
      intro num
      cases status <;> simp [freeTopArena]
    simp only [slack, tiny, ↓reduceIte, false_or]
    by_cases small : size ≤ 240
    · by_cases four : arena = 4
      · simp [small, four]
      · simp [small, four]
    · simp only [small, ↓reduceIte, false_and, iff_false]
      split_ifs <;> simp [release]

theorem free_top_iff (status : ThreadStatus) (arena size : Nat) :
    freeFixedSize status arena size = freeTopArena status ↔
      208 < size ∧ ((status = .singleThreaded ∧ arena = topArena) ∨
        (8193 ≤ bytes2Units size + 4 ∧ (arena = 7 → 8193 ≤ bytes2Units size + 2))) := by
  have release : ∀ num, FreeCall.freeLargeChunk num = freeTopArena status ↔
      status = .singleThreaded ∧ num = topArena := by
    intro num
    cases status <;> simp [freeTopArena]
  have never : ∀ num, FreeCall.freeSmallChunk num ≠ freeTopArena status := by
    intro num
    cases status <;> simp [freeTopArena]
  unfold freeFixedSize
  rw [maxcs_bytes_four, mincs_eight]
  by_cases tiny : size ≤ 208
  · have slack : size + 2 * unitSize ≤ 240 := by
      simp only [unitSize]
      omega
    simp only [slack, ↓reduceIte, never, false_iff]
    omega
  · have slack : ¬ size + 2 * unitSize ≤ 240 := by
      simp only [unitSize]
      omega
    simp only [slack, ↓reduceIte, Nat.not_le.mp tiny, true_and]
    by_cases small : size ≤ 240
    · have few : ¬ 8193 ≤ bytes2Units size + 4 := by
        simp only [bytes2Units, unitSize]
        omega
      by_cases four : arena = 4
      · simp [small, four, never, few, topArena]
      · simp [small, four, release, few]
    · by_cases far : bytes2Units size + 4 < 8193
      · simp [small, far, release, Nat.not_le.mpr far]
      · by_cases near : bytes2Units size + 2 < 8193
        · by_cases seven : arena = 7
          · simp [small, far, near, seven, release, topArena, Nat.not_le.mpr near]
          · simp [small, far, near, seven, Nat.not_lt.mp far]
        · simp [small, far, near, Nat.not_lt.mp far, Nat.not_lt.mp near]

/-- What goes wrong when a descriptor is allocated along: the request leaves the
small arenas, but the array alone would be within the slack; or, unless the
program is single-threaded, the request reaches the top arena, but the array
alone is too small for the macro to consider that. -/
def Misrouted (settings : DescriptorSettings) (status : ThreadStatus) (size dim : Nat) : Prop :=
  (size + 2 * unitSize ≤ arenaMaxcsBytes 4 ∧
    arenaMaxcsBytes 4 < sizeWithDesc settings size dim) ∨
  (status ≠ .singleThreaded ∧ arenaMaxcsBytes 4 < size + 2 * unitSize ∧
    bytes2Units size + 4 < arenaMincs 8 ∧
    arenaMincs 8 ≤ bytes2Units (sizeWithDesc settings size dim) + 2)

/-- Allocation and de-allocation agree on the arena, with and without a
descriptor, and the descriptor has its place in the chunk. -/
structure Agrees (settings : DescriptorSettings) (status : ThreadStatus) (size dim : Nat) :
    Prop where
  plain : Routed status (mallocFixedSize size).arena size
  withDesc : Routed status (mallocFixedSizeWithDesc settings size dim).arena size
  fits : DescriptorFits settings size dim

theorem descriptor_fits (settings : DescriptorSettings) (size dim : Nat) (nonempty : 1 ≤ size) :
    DescriptorFits settings size dim where
  array := by
    simpa [mallocDesc] using bytes_fit_units size
  header := by
    simp only [mallocDesc, unitSize]
    omega
  descriptor := by
    have holds := malloc_fixed_size_holds (sizeWithDesc settings size dim)
    have tight := units_fit_bytes size nonempty
    simp only [mallocFixedSizeWithDesc]
    simp only [sizeWithDesc, mallocDesc, unitSize] at holds tight ⊢
    omega

/-- Without a descriptor the size of the array is the size of the request. -/
theorem plain_routed (status : ThreadStatus) (size : Nat) :
    Routed status (mallocFixedSize size).arena size where
  small := by
    rw [free_small_iff, malloc_small_iff]
    constructor
    · omega
    · intro small
      by_cases tiny : size ≤ 208
      · exact Or.inl tiny
      · exact Or.inr ⟨small, malloc_arena_four size (by omega) small⟩
  top := by
    rw [free_top_iff]
    constructor
    · rintro ⟨_, ⟨_, top⟩ | ⟨many, seven⟩⟩
      · exact top
      · rw [malloc_top_iff]
        by_contra below
        have inSeven := malloc_arena_seven size (by omega) (by omega)
        exact below (seven inSeven)
    · intro top
      have many := (malloc_top_iff size).mp top
      refine ⟨?_, Or.inr ⟨by omega, fun _ => many⟩⟩
      simp only [bytes2Units, unitSize] at many
      omega

/-- The request with a descriptor is at least two units larger than the array,
so the array's size decides everything but the cases of `Misrouted`. -/
theorem with_desc_routed (settings : DescriptorSettings) (status : ThreadStatus) (size dim : Nat)
    (nonempty : 1 ≤ size) (routes : ¬ Misrouted settings status size dim) :
    Routed status (mallocFixedSizeWithDesc settings size dim).arena size := by
  have larger : size + 2 * unitSize ≤ sizeWithDesc settings size dim := by
    simp only [sizeWithDesc]
    omega
  have units := bytes2units_mono larger
  rw [bytes2units_add size 2 nonempty] at units
  simp only [Misrouted, maxcs_bytes_four, mincs_eight, not_or, not_and, Nat.not_le,
    Nat.not_lt] at routes
  simp only [unitSize] at larger routes
  constructor
  · rw [free_small_iff, mallocFixedSizeWithDesc, malloc_small_iff]
    constructor
    · rintro (tiny | ⟨_, four⟩)
      · exact routes.1 (by omega)
      · rw [← malloc_small_iff, four]
        decide
    · intro small
      exact Or.inl (by omega)
  · rw [free_top_iff, mallocFixedSizeWithDesc, malloc_top_iff]
    constructor
    · rintro ⟨_, ⟨_, many⟩ | ⟨far, _⟩⟩
      · exact many
      · omega
    · intro many
      have above : 208 < size := by
        by_contra tiny
        have fits := routes.1 (by omega)
        simp only [bytes2Units, unitSize] at many
        omega
      refine ⟨above, ?_⟩
      by_cases single : status = .singleThreaded
      · exact Or.inl ⟨single, many⟩
      · have far : 8193 ≤ bytes2Units size + 4 := by
          by_contra near
          have below := routes.2 single (by omega) (by omega)
          omega
        refine Or.inr ⟨far, ?_⟩
        intro seven
        have top := (malloc_top_iff _).mpr many
        rw [seven] at top
        exact absurd top (by decide)

theorem misrouted_not_routed (settings : DescriptorSettings) (status : ThreadStatus)
    (size dim : Nat) (wrong : Misrouted settings status size dim) :
    ¬ Routed status (mallocFixedSizeWithDesc settings size dim).arena size := by
  intro routed
  have small := routed.small
  have top := routed.top
  rw [free_small_iff, mallocFixedSizeWithDesc, malloc_small_iff] at small
  rw [free_top_iff, mallocFixedSizeWithDesc, malloc_top_iff] at top
  simp only [Misrouted, maxcs_bytes_four, mincs_eight, unitSize] at wrong
  rcases wrong with ⟨tiny, left⟩ | ⟨threads, _, near, many⟩
  · have back := small.mp (Or.inl (by omega))
    omega
  · rcases (top.mpr many).2 with ⟨single, _⟩ | ⟨far, _⟩
    · exact threads single
    · omega

theorem agrees_iff (settings : DescriptorSettings) (status : ThreadStatus) (size dim : Nat)
    (nonempty : 1 ≤ size) :
    Agrees settings status size dim ↔ ¬ Misrouted settings status size dim := by
  constructor
  · intro agrees wrong
    exact misrouted_not_routed settings status size dim wrong agrees.withDesc
  · intro routes
    exact ⟨plain_routed status size, with_desc_routed settings status size dim nonempty routes,
      descriptor_fits settings size dim nonempty⟩

/-- A vector of 100 doubles in a single-threaded program. -/
theorem agrees_iff_vector : Agrees defaultSettings .singleThreaded 800 1 :=
  (agrees_iff defaultSettings .singleThreaded 800 1 (by decide)).mpr (by
    simp [Misrouted, arenaMaxcsBytes, arenaMincs, unitSize])

/-- A vector of 26 doubles: it comes from the arena 5 of large chunks, but is
freed as a small chunk. -/
theorem vector_misrouted : ¬ Agrees defaultSettings .singleThreaded 208 1 := by
  intro agrees
  refine misrouted_not_routed _ _ _ _ (Or.inl ?_) agrees.withDesc
  decide

end Sac2c.Routing
