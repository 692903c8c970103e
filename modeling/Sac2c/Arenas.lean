import Mathlib.Data.Nat.Notation

/-!
The arenas of the private heap manager (runtime/phm_h/phm.h): size classes, bin
sizes and the unit in which memory is administrated. On a 64-bit machine
SAC_HM_header_t has two words of 8 bytes.
-/

namespace Sac2c.Arenas

/-- SAC_HM_UNIT_SIZE. -/
def unitSize : Nat := 16

/-- SAC_HM_BYTES_2_UNITS. -/
def bytes2Units (size : Nat) : Nat := (size - 1) / unitSize + 1

/-- SAC_HM_TOP_ARENA. -/
def topArena : Nat := 8

/-- SAC_HM_ARENA_n_MINCS. -/
def arenaMincs : Nat → Nat
  | 0 => 1
  | 1 => 2
  | 2 => 3
  | 3 => 5
  | 4 => 9
  | 5 => 17
  | 6 => 129
  | 7 => 1025
  | _ => 8193

/-- SAC_HM_ARENA_n_MAXCS_BYTES: small chunks have one unit of header, large
chunks two. -/
def arenaMaxcsBytes (num : Nat) : Nat :=
  if num < 5 then (arenaMincs (num + 1) - 2) * unitSize
  else (arenaMincs (num + 1) - 3) * unitSize

/-- SAC_HM_ARENA_n_BINSIZE, in units. -/
def arenaBinsize : Nat → Nat
  | 0 => 131072
  | 1 => 512
  | 2 => 512
  | 3 => 256
  | 4 => 512
  | 5 => 2048
  | 6 => 8196
  | 7 => 32768
  | _ => 0

def IsSmallArena (num : Nat) : Prop := num < 5

instance (num : Nat) : Decidable (IsSmallArena num) := inferInstanceAs (Decidable (_ < _))

theorem bytes_fit_units (size : Nat) : size ≤ bytes2Units size * unitSize := by
  simp only [bytes2Units, unitSize]
  omega

theorem units_fit_bytes (size : Nat) (nonempty : 1 ≤ size) :
    bytes2Units size * unitSize < size + unitSize := by
  simp only [bytes2Units, unitSize]
  omega

theorem bytes2units_add (size count : Nat) (nonempty : 1 ≤ size) :
    bytes2Units (size + count * unitSize) = bytes2Units size + count := by
  simp only [bytes2Units, unitSize]
  omega

theorem bytes2units_mono {size larger : Nat} (grows : size ≤ larger) :
    bytes2Units size ≤ bytes2Units larger := by
  simp only [bytes2Units, unitSize]
  omega

end Sac2c.Arenas
