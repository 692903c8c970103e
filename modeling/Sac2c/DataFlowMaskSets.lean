import Mathlib.Data.Finset.Card
import Mathlib.Data.Finset.SDiff
import Mathlib.Data.Finset.Lattice.Basic
import Mathlib.Data.List.GetD
import Sac2c.DataFlowMask

/-!
What data flow masks are for: sets of declarations. The reference keeps the declarations of the
base and, for each mask, its members and its default. A run over word arrays follows the reference
exactly as long as no call meets one of three conditions on the state before it: the memory given
to an exclusive or, the unused bits of a mask when the base grows, and set bits that declarations
left behind when they were dropped.
-/

namespace Sac2c.DataFlowMask

open BitWords

section Reference

variable {Decl : Type} [DecidableEq Decl]

structure SetMask (Decl : Type) where
  isSetByDefault : Bool
  members : Finset Decl

structure SetState (Decl : Type) where
  declared : Finset Decl
  masks : List (SetMask Decl)

def Combination.sets (op : Combination) (s t : Finset Decl) : Finset Decl :=
  match op with
  | .and => s ∩ t
  | .or => s ∪ t
  | .minus => s \ t
  | .xor => (s \ t) ∪ (t \ s)

namespace SetMask

/-- Dropped declarations leave the mask, added ones are members if it is set by default. -/
def update (mask : SetMask Decl) (old new : Finset Decl) : SetMask Decl :=
  { mask with members := (mask.members ∩ new) ∪ (if mask.isSetByDefault then new \ old else ∅) }

def inv (mask : SetMask Decl) (declared : Finset Decl) : SetMask Decl :=
  ⟨!mask.isSetByDefault, declared \ mask.members⟩

def withMembers (mask : SetMask Decl) (members : Finset Decl) : SetMask Decl :=
  { mask with members := members }

end SetMask

namespace SetState

def generate (r : SetState Decl) (new : SetMask Decl) : SetState Decl :=
  { r with masks := r.masks ++ [new] }

def onMask (r : SetState Decl) (mask : Nat) (body : SetMask Decl → SetMask Decl) :
    Option (SetState Decl) :=
  r.masks[mask]?.map fun set => { r with masks := r.masks.set mask (body set) }

def onMasks (r : SetState Decl) (mask mask2 : Nat)
    (body : SetMask Decl → SetMask Decl → SetState Decl) : Option (SetState Decl) :=
  match r.masks[mask]?, r.masks[mask2]? with
  | some set, some set2 => some (body set set2)
  | _, _ => none

/-- The state after a call. -/
def step (r : SetState Decl) : Op Decl → Option (SetState Decl)
  | .updateMaskBase chain _ =>
      some ⟨chain.nodes.toFinset,
        r.masks.map fun mask => mask.update r.declared chain.nodes.toFinset⟩
  | .genMaskClear _ => some (r.generate ⟨false, ∅⟩)
  | .genMaskSet _ => some (r.generate ⟨true, r.declared⟩)
  | .genMaskCopy _ mask => r.masks[mask]?.map r.generate
  | .genMaskInv _ mask => r.masks[mask]?.map fun set => r.generate (set.inv r.declared)
  | .genMask op _ mask1 mask2 =>
      r.onMasks mask1 mask2 fun set1 set2 =>
        r.generate (set1.withMembers (op.sets set1.members set2.members))
  | .setMaskClear mask => r.onMask mask fun set => set.withMembers ∅
  | .setMaskSet mask => r.onMask mask fun set => set.withMembers r.declared
  | .setMaskCopy mask mask2 =>
      r.onMasks mask mask2 fun set set2 =>
        { r with masks := r.masks.set mask (set.withMembers set2.members) }
  | .setMaskInv mask => r.onMask mask fun set => set.inv r.declared
  | .setMask op mask mask2 =>
      r.onMasks mask mask2 fun set set2 =>
        { r with masks :=
            r.masks.set mask (set.withMembers (op.sets set.members set2.members)) }
  | .setMaskEntryClear mask decl => r.onMask mask fun set => set.withMembers (set.members.erase decl)
  | .setMaskEntrySet mask decl => r.onMask mask fun set => set.withMembers (insert decl set.members)
  | .testMask mask => r.onMask mask id
  | .testMaskEntry mask _ => r.onMask mask id
  | .getMaskEntryDecls _ mask => r.onMask mask id

/-- What a call must report: the number of members, membership, or each member or each other
declaration once. -/
def Reports (r : SetState Decl) : Op Decl → Report Decl → Prop
  | .testMask mask, report => ∀ set, r.masks[mask]? = some set → report = .count set.members.card
  | .testMaskEntry mask decl, report =>
      ∀ set, r.masks[mask]? = some set → report = .entry (decide (decl ∈ set.members))
  | .getMaskEntryDecls isSet mask, report =>
      ∀ set, r.masks[mask]? = some set → ∃ decls, report = .decls decls ∧ decls.Nodup ∧
        ∀ decl, decl ∈ decls ↔ decl ∈ r.declared ∧ decide (decl ∈ set.members) = isSet
  | _, report => report = .nothing

def init (chain : DeclChain Decl) : SetState Decl :=
  ⟨chain.nodes.toFinset, []⟩

end SetState

end Reference

section Relation

variable {Decl : Type} [DecidableEq Decl]

/-- The bit of a mask at a position, in its words or by its default. -/
def maskBit (mask : Mask) (position : Nat) : Bool :=
  bitOr mask.isSetByDefault mask.bitfield position

structure MaskRepresents (base : MaskBase Decl) (mask : Mask) (set : SetMask Decl) : Prop where
  default : mask.isSetByDefault = set.isSetByDefault
  members : ∀ position decl, base[position]? = some (some decl) →
    maskBit mask position = decide (decl ∈ set.members)

/-- The word arrays of a state stand for the sets of the reference. -/
structure Represents (s : State Decl) (r : SetState Decl) : Prop where
  backrefs : ∀ position decl, s.base[position]? = some (some decl) → s.backref decl = position
  declared : ∀ decl, decl ∈ r.declared ↔ some decl ∈ s.base
  within : ∀ set ∈ r.masks, set.members ⊆ r.declared
  count : s.masks.length = r.masks.length
  masks : ∀ (k : Nat) mask set, s.masks[k]? = some mask → r.masks[k]? = some set →
    MaskRepresents s.base mask set

/-- The declarations of a chain that are not in the base yet. -/
def addedDecls (base : MaskBase Decl) (chain : List Decl) : List Decl :=
  chain.filter fun decl => decide (some decl ∉ base)

/-- When a call keeps to the sets, by the state before it. -/
def Harmless (s : State Decl) : Op Decl → Prop
  | .updateMaskBase chain _ =>
      ∀ mask ∈ s.masks, ∀ position, s.base.length ≤ position →
        position < s.base.length + (addedDecls s.base chain.nodes).length →
        maskBit mask position = mask.isSetByDefault
  | .genMask .xor memory mask1 _ =>
      ∀ mask, s.masks[mask1]? = some mask → ∀ position decl,
        s.base[position]? = some (some decl) →
        (memory (position / 64)).getLsbD (position % 64) = maskBit mask position
  | .testMask k =>
      ∀ mask, s.masks[k]? = some mask → ∀ position, s.base[position]? = some none →
        maskBit mask position = false
  | .getMaskEntryDecls isSet k =>
      ∀ mask, s.masks[k]? = some mask → ∀ dropped position decl, dropped < position →
        s.base[dropped]? = some none → maskBit mask dropped = isSet →
        s.base[position]? = some (some decl) → maskBit mask position ≠ isSet
  | _ => True

/-- All states of a run stand for the sets of the reference run, and all reports are right. -/
def Follows : State Decl → SetState Decl → List (Op Decl) → Prop
  | s, r, [] => Represents s r
  | s, r, op :: ops =>
      Represents s r ∧ ∀ s' report, s.step op = some (s', report) →
        ∃ r', r.step op = some r' ∧ r.Reports op report ∧ Follows s' r' ops

def HarmlessRun : State Decl → List (Op Decl) → Prop
  | _, [] => True
  | s, op :: ops =>
      ∀ s' report, s.step op = some (s', report) → Harmless s op ∧ HarmlessRun s' ops

end Relation

section MaskBits

variable {Decl : Type} {base : MaskBase Decl} {mask : Mask} {position : Nat}

@[simp] theorem check_mask_default (base : MaskBase Decl) (mask : Mask) :
    (checkMask base mask).isSetByDefault = mask.isSetByDefault := by
  unfold checkMask extendMask
  split <;> rfl

@[simp] theorem check_mask_bit (base : MaskBase Decl) (mask : Mask) (position : Nat) :
    maskBit (checkMask base mask) position = maskBit mask position := by
  unfold checkMask
  split
  · exact bitOr_append_fill (by decide) _
  · rfl

theorem check_mask_covers (base : MaskBase Decl) (mask : Mask) :
    numBitfields base ≤ (checkMask base mask).bitfield.length := by
  unfold checkMask extendMask
  split
  · simp only [List.length_append, List.length_replicate]
    omega
  · omega

theorem covered (covers : numBitfields base ≤ mask.bitfield.length)
    (declared : position < base.length) : position / 64 < mask.bitfield.length := by
  have : position / 64 ≤ base.length / 64 := Nat.div_le_div_right (by omega)
  simp only [numBitfields] at covers
  omega

theorem word_bit (inside : position / 64 < mask.bitfield.length) :
    (word mask (position / 64)).getLsbD (position % 64) = maskBit mask position := by
  rw [maskBit, bitOr_of_lt inside, word, List.getD_eq_getElem _ _ inside]

theorem is_nth_bit_set_eq (inside : position / 64 < mask.bitfield.length) :
    isNthBitSet mask position = maskBit mask position := by
  rw [← word_bit inside, Bool.eq_iff_iff, isNthBitSet, decide_eq_true_eq, accessMaskTable,
    and_oneAt_pos (Nat.mod_lt _ (by decide))]
  rfl

theorem for_each_bitfield_bit (body : Nat → Word → Word)
    (inside : position / 64 < mask.bitfield.length) :
    maskBit (forEachBitfield mask body) position =
      (body (position / 64) (word mask (position / 64))).getLsbD (position % 64) := by
  rw [maskBit, forEachBitfield, bitOr_mapIdx body inside, word, List.getD_eq_getElem _ _ inside]

theorem generated_bit (memory : Memory) (flag : Bool) (body : Nat → Word → Word)
    (declared : position < base.length) :
    maskBit (forEachBitfield (genUninitializedMask base memory flag) body) position =
      (body (position / 64) (memory (position / 64))).getLsbD (position % 64) := by
  have inside : position / 64 < (genUninitializedMask base memory flag).bitfield.length :=
    covered (by simp [genUninitializedMask]) declared
  rw [for_each_bitfield_bit body inside, word, List.getD_eq_getElem _ _ inside]
  simp [genUninitializedMask]

theorem entry_set_bit (target : Nat) (inside : target / 64 < mask.bitfield.length) :
    maskBit (setMaskEntrySet mask target) position =
      if position = target then true else maskBit mask position := by
  refine bitOr_modify (by decide) inside ?_
  intro bits bit below
  rw [BitVec.getLsbD_or, accessMaskTable, getLsbD_oneAt below]
  by_cases same : bit = target % 64
  · simp [same]
  · simp [same, Ne.symm same]

theorem entry_clear_bit (target : Nat) (inside : target / 64 < mask.bitfield.length) :
    maskBit (setMaskEntryClear mask target) position =
      if position = target then false else maskBit mask position := by
  refine bitOr_modify (by decide) inside ?_
  intro bits bit below
  rw [BitVec.getLsbD_and, BitVec.getLsbD_not, accessMaskTable, getLsbD_oneAt below]
  by_cases same : bit = target % 64
  · simp [same]
  · simp [same, Ne.symm same, below]

end MaskBits

section MaskOperations

variable {Decl : Type} [DecidableEq Decl] {base : MaskBase Decl} {mask mask2 : Mask}
variable {set set2 : SetMask Decl} {declared : Finset Decl}

omit [DecidableEq Decl] in
theorem declared_lt {position : Nat} {decl : Decl}
    (found : base[position]? = some (some decl)) : position < base.length :=
  (List.getElem?_eq_some_iff.mp found).1

theorem MaskRepresents.check (rep : MaskRepresents base mask set) :
    MaskRepresents base (checkMask base mask) set :=
  ⟨by simpa using rep.default, by simpa using rep.members⟩

/-- A new mask holds the members whose bits its loop computes. -/
theorem generated_members {members : Finset Decl} {memory : Memory} {flag : Bool}
    {body : Nat → Word → Word}
    (bits : ∀ position decl, base[position]? = some (some decl) →
      (body (position / 64) (memory (position / 64))).getLsbD (position % 64) =
        decide (decl ∈ members)) (position : Nat) (decl : Decl)
    (found : base[position]? = some (some decl)) :
    maskBit (forEachBitfield (genUninitializedMask base memory flag) body) position =
      decide (decl ∈ members) := by
  rw [generated_bit memory flag body (declared_lt found), bits position decl found]

/-- An assigned mask holds the members whose bits its loop computes. -/
theorem assigned_members {members : Finset Decl} {body : Nat → Word → Word}
    (covers : numBitfields base ≤ mask.bitfield.length)
    (bits : ∀ position decl, base[position]? = some (some decl) →
      (body (position / 64) (word mask (position / 64))).getLsbD (position % 64) =
        decide (decl ∈ members)) (position : Nat) (decl : Decl)
    (found : base[position]? = some (some decl)) :
    maskBit (forEachBitfield mask body) position = decide (decl ∈ members) := by
  rw [for_each_bitfield_bit body (covered covers (declared_lt found)), bits position decl found]

/-- The words of a mask that covers the base hold its members. -/
theorem MaskRepresents.word_bit (rep : MaskRepresents base mask set)
    (covers : numBitfields base ≤ mask.bitfield.length) {position : Nat} {decl : Decl}
    (found : base[position]? = some (some decl)) :
    (word mask (position / 64)).getLsbD (position % 64) = decide (decl ∈ set.members) := by
  rw [DataFlowMask.word_bit (covered covers (declared_lt found)), rep.members position decl found]

theorem bit_lt (position : Nat) : position % 64 < 64 :=
  Nat.mod_lt _ (by decide)

theorem gen_clear_represents (memory : Memory) :
    MaskRepresents base (genMaskClear base memory) (⟨false, ∅⟩ : SetMask Decl) := by
  refine ⟨rfl, generated_members fun position decl _ => ?_⟩
  rw [getLsbD_fill (bit_lt position)]
  simp

theorem gen_set_represents (memory : Memory)
    (known : ∀ decl, decl ∈ declared ↔ some decl ∈ base) :
    MaskRepresents base (genMaskSet base memory) ⟨true, declared⟩ := by
  refine ⟨rfl, generated_members fun position decl found => ?_⟩
  rw [getLsbD_fill (bit_lt position)]
  simp [known, List.mem_of_getElem? found]

theorem gen_copy_represents (memory : Memory) (rep : MaskRepresents base mask set)
    (covers : numBitfields base ≤ mask.bitfield.length) :
    MaskRepresents base (genMaskCopy base memory mask) set :=
  ⟨rep.default, generated_members fun _ _ found => rep.word_bit covers found⟩

theorem gen_inv_represents (memory : Memory) (rep : MaskRepresents base mask set)
    (covers : numBitfields base ≤ mask.bitfield.length)
    (known : ∀ decl, decl ∈ declared ↔ some decl ∈ base) :
    MaskRepresents base (genMaskInv base memory mask) (set.inv declared) := by
  refine ⟨congrArg (!·) rep.default, generated_members fun position decl found => ?_⟩
  rw [BitVec.getLsbD_not, rep.word_bit covers found]
  simp [SetMask.inv, known, List.mem_of_getElem? found, bit_lt]

/-- Exclusive or keeps what the allocated memory held in place of the first mask. -/
theorem gen_xor_represents_iff (memory : Memory) (rep : MaskRepresents base mask set)
    (rep2 : MaskRepresents base mask2 set2)
    (covers2 : numBitfields base ≤ mask2.bitfield.length) :
    MaskRepresents base (genMaskXor base memory mask mask2)
        (set.withMembers (Combination.sets .xor set.members set2.members)) ↔
      ∀ position decl, base[position]? = some (some decl) →
        (memory (position / 64)).getLsbD (position % 64) = maskBit mask position := by
  have member : ∀ position decl, base[position]? = some (some decl) →
      (maskBit (genMaskXor base memory mask mask2) position =
          decide (decl ∈ Combination.sets .xor set.members set2.members) ↔
        (memory (position / 64)).getLsbD (position % 64) = maskBit mask position) := by
    intro position decl found
    rw [genMaskXor, genMaskCombined, generated_bit memory _ _ (declared_lt found),
      BitVec.getLsbD_xor, rep2.word_bit covers2 found, rep.members position decl found]
    simp only [Combination.sets, Finset.mem_union, Finset.mem_sdiff]
    by_cases first : decl ∈ set.members <;> by_cases second : decl ∈ set2.members <;>
      simp [first, second]
  constructor
  · intro combined position decl found
    exact (member position decl found).mp (combined.members position decl found)
  · intro memoryBits
    exact ⟨rep.default, fun position decl found =>
      (member position decl found).mpr (memoryBits position decl found)⟩

/-- The other three generators read both masks. -/
theorem gen_mask_represents (memory : Memory) {op : Combination} (reads : op ≠ .xor)
    (rep : MaskRepresents base mask set) (rep2 : MaskRepresents base mask2 set2)
    (covers : numBitfields base ≤ mask.bitfield.length)
    (covers2 : numBitfields base ≤ mask2.bitfield.length) :
    MaskRepresents base (op.genMask base memory mask mask2)
      (set.withMembers (op.sets set.members set2.members)) := by
  cases op with
  | and =>
      refine ⟨rep.default, generated_members fun position decl found => ?_⟩
      rw [BitVec.getLsbD_and, rep.word_bit covers found, rep2.word_bit covers2 found]
      simp [SetMask.withMembers, Combination.sets]
  | or =>
      refine ⟨rep.default, generated_members fun position decl found => ?_⟩
      rw [BitVec.getLsbD_or, rep.word_bit covers found, rep2.word_bit covers2 found]
      simp [SetMask.withMembers, Combination.sets]
  | minus =>
      refine ⟨rep.default, generated_members fun position decl found => ?_⟩
      rw [BitVec.getLsbD_and, BitVec.getLsbD_not, rep.word_bit covers found,
        rep2.word_bit covers2 found]
      simp [SetMask.withMembers, Combination.sets, bit_lt]
  | xor => exact absurd rfl reads

theorem set_mask_represents (op : Combination)
    (rep : MaskRepresents base mask set) (rep2 : MaskRepresents base mask2 set2)
    (covers : numBitfields base ≤ mask.bitfield.length)
    (covers2 : numBitfields base ≤ mask2.bitfield.length) :
    MaskRepresents base (op.setMask mask mask2)
      (set.withMembers (op.sets set.members set2.members)) := by
  cases op with
  | and =>
      refine ⟨rep.default, assigned_members covers fun position decl found => ?_⟩
      rw [BitVec.getLsbD_and, rep.word_bit covers found, rep2.word_bit covers2 found]
      simp [SetMask.withMembers, Combination.sets]
  | or =>
      refine ⟨rep.default, assigned_members covers fun position decl found => ?_⟩
      rw [BitVec.getLsbD_or, rep.word_bit covers found, rep2.word_bit covers2 found]
      simp [SetMask.withMembers, Combination.sets]
  | minus =>
      refine ⟨rep.default, assigned_members covers fun position decl found => ?_⟩
      rw [BitVec.getLsbD_and, BitVec.getLsbD_not, rep.word_bit covers found,
        rep2.word_bit covers2 found]
      simp [SetMask.withMembers, Combination.sets, bit_lt]
  | xor =>
      refine ⟨rep.default, assigned_members covers fun position decl found => ?_⟩
      rw [BitVec.getLsbD_xor, rep.word_bit covers found, rep2.word_bit covers2 found]
      simp only [SetMask.withMembers, Combination.sets, Finset.mem_union, Finset.mem_sdiff]
      by_cases first : decl ∈ set.members <;> by_cases second : decl ∈ set2.members <;>
        simp [first, second]

theorem set_clear_represents (rep : MaskRepresents base mask set)
    (covers : numBitfields base ≤ mask.bitfield.length) :
    MaskRepresents base (setMaskClear mask) (set.withMembers ∅) :=
  ⟨rep.default, assigned_members covers fun _ _ _ => by simp [SetMask.withMembers]⟩

theorem set_set_represents (rep : MaskRepresents base mask set)
    (covers : numBitfields base ≤ mask.bitfield.length)
    (known : ∀ decl, decl ∈ declared ↔ some decl ∈ base) :
    MaskRepresents base (setMaskSet mask) (set.withMembers declared) := by
  refine ⟨rep.default, assigned_members covers fun position decl found => ?_⟩
  rw [BitVec.getLsbD_not]
  simp [SetMask.withMembers, known, List.mem_of_getElem? found, bit_lt]

theorem set_copy_represents (rep : MaskRepresents base mask set)
    (rep2 : MaskRepresents base mask2 set2)
    (covers : numBitfields base ≤ mask.bitfield.length)
    (covers2 : numBitfields base ≤ mask2.bitfield.length) :
    MaskRepresents base (setMaskCopy mask mask2) (set.withMembers set2.members) :=
  ⟨rep.default, assigned_members covers fun _ _ found => rep2.word_bit covers2 found⟩

theorem set_inv_represents (rep : MaskRepresents base mask set)
    (covers : numBitfields base ≤ mask.bitfield.length)
    (known : ∀ decl, decl ∈ declared ↔ some decl ∈ base) :
    MaskRepresents base (setMaskInv mask) (set.inv declared) := by
  let flipped : Mask := { mask with isSetByDefault := !mask.isSetByDefault }
  have covers : numBitfields base ≤ flipped.bitfield.length := covers
  refine ⟨congrArg (!·) rep.default, assigned_members covers fun position decl found => ?_⟩
  rw [BitVec.getLsbD_not]
  have bits : (word flipped (position / 64)).getLsbD (position % 64) =
      decide (decl ∈ set.members) := rep.word_bit covers found
  rw [bits]
  simp [SetMask.inv, known, List.mem_of_getElem? found, bit_lt]

/-- Entries are written at the position of their declaration, which no other declaration has. -/
theorem entry_represents {backref : Decl → Nat} (rep : MaskRepresents base mask set)
    (covers : numBitfields base ≤ mask.bitfield.length)
    (backrefs : ∀ position decl, base[position]? = some (some decl) → backref decl = position)
    {decl : Decl} (part : base[backref decl]? = some (some decl)) :
    MaskRepresents base (setMaskEntrySet mask (backref decl))
        (set.withMembers (insert decl set.members)) ∧
      MaskRepresents base (setMaskEntryClear mask (backref decl))
        (set.withMembers (set.members.erase decl)) := by
  have inside := covered covers (declared_lt part)
  have same : ∀ position other, base[position]? = some (some other) →
      (position = backref decl ↔ other = decl) := by
    intro position other found
    constructor
    · rintro rfl
      simpa using found.symm.trans part
    · rintro rfl
      exact (backrefs position other found).symm
  refine ⟨⟨rep.default, fun position other found => ?_⟩,
    ⟨rep.default, fun position other found => ?_⟩⟩
  · rw [entry_set_bit _ inside, rep.members position other found]
    simp only [same position other found, SetMask.withMembers, Finset.mem_insert]
    by_cases equal : other = decl <;> simp [equal]
  · rw [entry_clear_bit _ inside, rep.members position other found]
    simp only [same position other found, SetMask.withMembers, Finset.mem_erase]
    by_cases equal : other = decl <;> simp [equal]

end MaskOperations

section BaseUpdates

variable {Decl : Type} [DecidableEq Decl] {base : MaskBase Decl} {backref : Decl → Nat}

/-- The declarations of a base refer back to their positions. -/
def Consistent (base : MaskBase Decl) (backref : Decl → Nat) : Prop :=
  ∀ (position : Nat) decl, base[position]? = some (some decl) → backref decl = position

theorem is_part_iff (consistent : Consistent base backref) (decl : Decl) :
    isPartOfMaskBase base backref decl = true ↔ some decl ∈ base := by
  rw [isPartOfMaskBase, decide_eq_true_eq]
  constructor
  · exact List.mem_of_getElem?
  · intro mem
    obtain ⟨position, found⟩ := List.mem_iff_getElem?.mp mem
    rwa [consistent position decl found]

theorem usage_fold (consistent : Consistent base backref) (chain : List Decl) :
    ∀ usage : Mask, numBitfields base ≤ usage.bitfield.length →
      let used := chain.foldl
        (fun usage decl =>
          if isPartOfMaskBase base backref decl then setMaskEntrySet usage (backref decl)
          else usage) usage
      numBitfields base ≤ used.bitfield.length ∧ ∀ position, position < base.length →
        (maskBit used position = true ↔
          maskBit usage position = true ∨ ∃ decl ∈ chain, base[position]? = some (some decl)) := by
  induction chain with
  | nil =>
      intro usage covers
      simpa using covers
  | cons decl chain ih =>
      intro usage covers
      simp only [List.foldl_cons]
      by_cases part : isPartOfMaskBase base backref decl = true
      · simp only [part, ↓reduceIte]
        have here : base[backref decl]? = some (some decl) := by
          simpa [isPartOfMaskBase] using part
        obtain ⟨covers', bits⟩ := ih (setMaskEntrySet usage (backref decl))
          (by simpa [setMaskEntrySet] using covers)
        refine ⟨covers', fun position declared => ?_⟩
        rw [bits position declared, entry_set_bit _ (covered covers (declared_lt here))]
        by_cases same : position = backref decl
        · subst same
          simp [here]
        · have other : base[position]? ≠ some (some decl) := by
            intro found
            exact same (consistent position decl found).symm
          simp [same, other]
      · simp only [part, Bool.false_eq_true, ↓reduceIte]
        obtain ⟨covers', bits⟩ := ih usage covers
        refine ⟨covers', fun position declared => ?_⟩
        have other : base[position]? ≠ some (some decl) := by
          intro found
          exact part ((is_part_iff consistent decl).mpr (List.mem_of_getElem? found))
        rw [bits position declared]
        simp [other]

/-- What is left of the base are the declarations that the chain still holds. -/
theorem clear_unused_get (consistent : Consistent base backref) (memory : Memory)
    (chain : List Decl) (position : Nat) (decl : Decl) :
    (clearUnused base (usageMask base backref memory chain))[position]? = some (some decl) ↔
      base[position]? = some (some decl) ∧ decl ∈ chain := by
  have fresh : numBitfields base ≤ (genMaskClear base memory).bitfield.length := by
    simp [genMaskClear, genInitializedMask, forEachBitfield, genUninitializedMask]
  obtain ⟨covers, bits⟩ := usage_fold consistent chain _ fresh
  rw [← usageMask] at covers bits
  by_cases declared : position < base.length
  · have clear : maskBit (genMaskClear base memory) position = false := by
      rw [genMaskClear, genInitializedMask, generated_bit memory false _ declared,
        getLsbD_fill (bit_lt position)]
    have used : isNthBitSet (usageMask base backref memory chain) position = true ↔
        ∃ decl ∈ chain, base[position]? = some (some decl) := by
      rw [is_nth_bit_set_eq (covered covers declared), bits position declared, clear]
      simp
    rw [clearUnused, List.getElem?_mapIdx, List.getElem?_eq_getElem declared, Option.map_some]
    by_cases bit : isNthBitSet (usageMask base backref memory chain) position = true
    · obtain ⟨decl', mem, found⟩ := used.mp bit
      rw [List.getElem?_eq_getElem declared] at found
      simp only [bit, ↓reduceIte, iff_self_and]
      intro here
      cases found.symm.trans here
      exact mem
    · simp only [bit, Bool.false_eq_true, ↓reduceIte, Option.some.injEq, reduceCtorEq, false_iff,
        not_and]
      intro here mem
      exact bit (used.mpr ⟨decl, mem, by rw [List.getElem?_eq_getElem declared, here]⟩)
  · have outside : base.length ≤ position := by omega
    simp [clearUnused, List.getElem?_eq_none outside]

/-- A new declaration refers back to the position behind the others. -/
theorem Consistent.append (consistent : Consistent base backref) {decl : Decl}
    (absent : some decl ∉ base) :
    Consistent (base ++ [some decl]) (Function.update backref decl base.length) := by
  intro position other found
  by_cases inside : position < base.length
  · rw [List.getElem?_append_left inside] at found
    have different : other ≠ decl := by
      rintro rfl
      exact absent (List.mem_of_getElem? found)
    rw [Function.update_of_ne different]
    exact consistent position other found
  · rw [List.getElem?_append_right (by omega)] at found
    have last := declared_lt found
    simp only [List.length_singleton] at last
    have zero : position - base.length = 0 := by omega
    rw [zero] at found
    cases found
    rw [Function.update_self]
    omega

/-- The second traversal appends the declarations that are not in the base, in their order. -/
theorem append_fold (kept : MaskBase Decl) (chain : List Decl) :
    ∀ next : MaskBase Decl × (Decl → Nat), Consistent next.1 next.2 →
      (∀ (position : Nat) decl, kept[position]? = some (some decl) →
        next.1[position]? = some (some decl)) →
      chain.Nodup → (∀ decl ∈ chain, some decl ∈ next.1 → some decl ∈ kept) →
      Consistent (chain.foldl (appendDecl kept) next).1 (chain.foldl (appendDecl kept) next).2 ∧
        (chain.foldl (appendDecl kept) next).1 = next.1 ++ (addedDecls kept chain).map some := by
  induction chain with
  | nil =>
      intro next consistent _ _ _
      exact ⟨consistent, by simp [addedDecls]⟩
  | cons decl chain ih =>
      intro next consistent keeps nodup old
      obtain ⟨fresh, nodup⟩ := List.nodup_cons.mp nodup
      have part : isPartOfMaskBase kept next.2 decl = true ↔ some decl ∈ kept := by
        rw [isPartOfMaskBase, decide_eq_true_eq]
        constructor
        · exact List.mem_of_getElem?
        · intro mem
          obtain ⟨position, found⟩ := List.mem_iff_getElem?.mp mem
          rwa [consistent position decl (keeps position decl found)]
      by_cases known : some decl ∈ kept
      · have same : appendDecl kept next decl = next := by simp [appendDecl, part.mpr known]
        have filtered : addedDecls kept (decl :: chain) = addedDecls kept chain := by
          simp [addedDecls, known]
        rw [List.foldl_cons, same, filtered]
        exact ih next consistent keeps nodup fun other mem =>
          old other (List.mem_cons_of_mem decl mem)
      · have absent : some decl ∉ next.1 := fun mem => known (old decl List.mem_cons_self mem)
        have appended : appendDecl kept next decl =
            (next.1 ++ [some decl], Function.update next.2 decl next.1.length) := by
          simp [appendDecl, mt part.mp known]
        have filtered : addedDecls kept (decl :: chain) = decl :: addedDecls kept chain := by
          simp [addedDecls, known]
        rw [List.foldl_cons, appended, filtered]
        have extends' : ∀ (position : Nat) other, kept[position]? = some (some other) →
            (next.1 ++ [some decl])[position]? = some (some other) := by
          intro position other found
          have here := keeps position other found
          rw [List.getElem?_append_left (declared_lt here), here]
        have old' : ∀ other ∈ chain, some other ∈ next.1 ++ [some decl] → some other ∈ kept := by
          intro other mem appended
          rcases List.mem_append.mp appended with before | last
          · exact old other (List.mem_cons_of_mem decl mem) before
          · cases List.mem_singleton.mp last
            exact absurd mem fresh
        obtain ⟨consistent'', appends⟩ :=
          ih (next.1 ++ [some decl], Function.update next.2 decl next.1.length)
            (consistent.append absent) extends' nodup old'
        refine ⟨consistent'', ?_⟩
        rw [appends, List.map_cons, List.append_assoc, List.singleton_append]

theorem kept_mem_iff (consistent : Consistent base backref) (memory : Memory) (chain : List Decl)
    (decl : Decl) :
    some decl ∈ clearUnused base (usageMask base backref memory chain) ↔
      some decl ∈ base ∧ decl ∈ chain := by
  simp only [List.mem_iff_getElem?, clear_unused_get consistent memory chain, exists_and_right]

/-- An update keeps the positions of the declarations that stay and appends the added ones. -/
theorem update_mask_base_spec (consistent : Consistent base backref) (memory : Memory)
    (chain : DeclChain Decl) :
    let updated := updateMaskBase base backref memory chain.nodes
    Consistent updated.1 updated.2 ∧
      updated.1 = clearUnused base (usageMask base backref memory chain.nodes) ++
        (addedDecls base chain.nodes).map some := by
  have keeps : Consistent (clearUnused base (usageMask base backref memory chain.nodes))
      backref := by
    intro position decl found
    exact consistent position decl ((clear_unused_get consistent memory _ _ _).mp found).1
  have added : addedDecls (clearUnused base (usageMask base backref memory chain.nodes))
      chain.nodes = addedDecls base chain.nodes := by
    refine List.filter_congr fun decl mem => ?_
    simp [kept_mem_iff consistent memory chain.nodes decl, mem]
  have folded := append_fold (clearUnused base (usageMask base backref memory chain.nodes))
    chain.nodes (_, backref) keeps (fun _ _ found => found) chain.nodup fun _ _ mem => mem
  rw [added] at folded
  exact folded

theorem gen_mask_base_spec (backref : Decl → Nat) (chain : DeclChain Decl) :
    Consistent (genMaskBase backref chain.nodes).1 (genMaskBase backref chain.nodes).2 ∧
      (genMaskBase backref chain.nodes).1 = chain.nodes.map some := by
  have loop : genMaskBase backref chain.nodes =
      chain.nodes.foldl (appendDecl []) ([], backref) := by
    refine congrArg (fun body => chain.nodes.foldl body ([], backref)) ?_
    funext next decl
    simp [appendDecl, isPartOfMaskBase]
  have folded := append_fold [] chain.nodes ([], backref)
    (by intro position decl found; simp at found) (by simp) chain.nodup (by simp)
  rw [loop]
  refine ⟨folded.1, folded.2.trans ?_⟩
  simp [addedDecls]

end BaseUpdates

section Queries

variable {Decl : Type} [DecidableEq Decl] {base : MaskBase Decl} {backref : Decl → Nat}
variable {mask : Mask} {set : SetMask Decl} {declared : Finset Decl}

/-- The declarations at the set positions of a mask are its members, once each. -/
theorem members_card (consistent : Consistent base backref)
    (rep : MaskRepresents base mask set)
    (within : ∀ decl ∈ set.members, some decl ∈ base) :
    set.members.card = (List.range base.length).countP fun position =>
      maskBit mask position && base[position]?.join.isSome := by
  let entry (position : Nat) : Option Decl :=
    if maskBit mask position then base[position]?.join else none
  have entry_some : ∀ position decl, entry position = some decl ↔
      base[position]? = some (some decl) ∧ decl ∈ set.members := by
    intro position decl
    simp only [entry]
    by_cases bit : maskBit mask position = true
    · simp only [bit, ↓reduceIte, Option.join_eq_some_iff]
      constructor
      · intro found
        have member := rep.members position decl found
        rw [bit] at member
        exact ⟨found, by simpa using member.symm⟩
      · exact And.left
    · simp only [bit, Bool.false_eq_true, ↓reduceIte, reduceCtorEq, false_iff, not_and]
      intro found member
      have value := rep.members position decl found
      simp [member] at value
      exact bit value
  have nodup : ((List.range base.length).filterMap entry).Nodup := by
    refine List.Nodup.filterMap ?_ List.nodup_range
    intro p q decl first second
    have first := (entry_some p decl).mp first
    have second := (entry_some q decl).mp second
    exact (consistent p decl first.1).symm.trans (consistent q decl second.1)
  have members : ((List.range base.length).filterMap entry).toFinset = set.members := by
    ext decl
    simp only [List.mem_toFinset, List.mem_filterMap, List.mem_range, entry_some]
    constructor
    · rintro ⟨_, _, _, member⟩
      exact member
    · intro member
      obtain ⟨position, found⟩ := List.mem_iff_getElem?.mp (within decl member)
      exact ⟨position, declared_lt found, found, member⟩
  rw [← members, List.toFinset_card_of_nodup nodup, List.length_filterMap_eq_countP]
  refine congrFun (congrArg List.countP (funext fun position => ?_)) _
  simp only [entry]
  by_cases bit : maskBit mask position = true <;> simp [bit]

/-- The count is right when no set bit was left behind by a dropped declaration. -/
theorem test_mask_iff (consistent : Consistent base backref)
    (rep : MaskRepresents base mask set) (covers : numBitfields base ≤ mask.bitfield.length)
    (within : ∀ decl ∈ set.members, some decl ∈ base) :
    testMask base mask = set.members.card ↔
      ∀ position, base[position]? = some none → maskBit mask position = false := by
  have bits : testMask base mask = (List.range base.length).countP (maskBit mask) := by
    refine List.countP_congr fun position mem => ?_
    rw [is_nth_bit_set_eq (covered covers (List.mem_range.mp mem))]
  have split := List.countP_eq_countP_filter_add (List.range base.length) (maskBit mask)
    fun position => base[position]?.join.isSome
  rw [List.countP_filter, List.countP_filter, ← members_card consistent rep within, ← bits] at split
  have stale : testMask base mask = set.members.card ↔
      (List.range base.length).countP
        (fun position => maskBit mask position && !base[position]?.join.isSome) = 0 := by
    omega
  rw [stale, List.countP_eq_zero]
  constructor
  · intro clear position dropped
    have inside := (List.getElem?_eq_some_iff.mp dropped).1
    have here := clear position (List.mem_range.mpr inside)
    simpa [dropped] using here
  · intro clear position mem
    have inside := List.mem_range.mp mem
    cases entry : base[position] with
    | none =>
        have dropped : base[position]? = some none := by
          rw [List.getElem?_eq_getElem inside, entry]
        simp [clear position dropped]
    | some decl => simp [List.getElem?_eq_getElem inside, entry]

theorem get_mask_entry_pos_spec (isSet : Bool) (mask : Mask) (numDecls : Nat) :
    ∀ fuel i, i ≤ numDecls → numDecls - i ≤ fuel →
      i ≤ getMaskEntryPos isSet mask numDecls fuel i ∧
        getMaskEntryPos isSet mask numDecls fuel i ≤ numDecls ∧
        (∀ j, i ≤ j → j < getMaskEntryPos isSet mask numDecls fuel i →
          isNthBitSet mask j ≠ isSet) ∧
        (getMaskEntryPos isSet mask numDecls fuel i < numDecls →
          isNthBitSet mask (getMaskEntryPos isSet mask numDecls fuel i) = isSet) := by
  intro fuel
  induction fuel with
  | zero =>
      intro i below enough
      refine ⟨le_rfl, below, fun j first last => ?_, fun inside => ?_⟩
      · simp only [getMaskEntryPos] at last
        omega
      · simp only [getMaskEntryPos] at inside
        omega
  | succ fuel ih =>
      intro i below enough
      rw [getMaskEntryPos]
      by_cases skip : i < numDecls ∧ isNthBitSet mask i ≠ isSet
      · rw [if_pos skip]
        obtain ⟨first, last, skipped, found⟩ := ih (i + 1) (by omega) (by omega)
        refine ⟨by omega, last, fun j start stop => ?_, found⟩
        by_cases here : j = i
        · exact here ▸ skip.2
        · exact skipped j (by omega) stop
      · rw [if_neg skip]
        refine ⟨le_rfl, below, fun j first last => by omega, fun inside => ?_⟩
        by_contra other
        exact skip ⟨inside, other⟩

omit [DecidableEq Decl] in
/-- An iteration reports the declarations up to the first stale position, once each. -/
theorem mask_entry_decls_spec (consistent : Consistent base backref) (isSet : Bool) (mask : Mask) :
    ∀ fuel i, i ≤ base.length → base.length - i < fuel →
      (maskEntryDecls isSet base mask fuel i).Nodup ∧
        ∀ decl, decl ∈ maskEntryDecls isSet base mask fuel i ↔
          ∃ position, i ≤ position ∧ base[position]? = some (some decl) ∧
            isNthBitSet mask position = isSet ∧
            ∀ j, i ≤ j → j < position → isNthBitSet mask j = isSet → base[j]? ≠ some none := by
  intro fuel
  induction fuel with
  | zero =>
      intro i _ enough
      omega
  | succ fuel ih =>
      intro i below enough
      obtain ⟨first, last, skipped, found⟩ :=
        get_mask_entry_pos_spec isSet mask base.length (base.length - i) i below le_rfl
      generalize position : getMaskEntryPos isSet mask base.length (base.length - i) i = pos at *
      rw [maskEntryDecls, getMaskEntryDecl, position]
      by_cases atEnd : pos = base.length
      · simp only [atEnd, ↓reduceIte, List.nodup_nil, List.not_mem_nil, false_iff, true_and]
        rintro decl ⟨q, start, here, bit, _⟩
        exact skipped q start (by have := declared_lt here; omega) bit
      · have inside : pos < base.length := by omega
        simp only [atEnd, ↓reduceIte, List.getElem?_eq_getElem inside, Option.join_some]
        cases entry : base[pos] with
        | none =>
            simp only [List.nodup_nil, List.not_mem_nil, false_iff, true_and]
            rintro decl ⟨q, start, here, bit, clean⟩
            -- a stale position ends the iteration, and whatever stands behind it is not reported
            have dropped : base[pos]? = some none := by
              rw [List.getElem?_eq_getElem inside, entry]
            have after : pos ≤ q := by
              by_contra before
              exact skipped q start (by omega) bit
            rcases Nat.lt_or_eq_of_le after with strict | rfl
            · exact clean pos first strict (found inside) dropped
            · rw [here] at dropped
              cases dropped
        | some decl =>
            have here : base[pos]? = some (some decl) := by
              rw [List.getElem?_eq_getElem inside, entry]
            obtain ⟨nodup, members⟩ := ih (pos + 1) (by omega) (by omega)
            have once : decl ∉ maskEntryDecls isSet base mask fuel (pos + 1) := by
              intro again
              obtain ⟨q, start, there, _⟩ := (members decl).mp again
              have := (consistent pos decl here).symm.trans (consistent q decl there)
              omega
            refine ⟨List.nodup_cons.mpr ⟨once, nodup⟩, fun other => ?_⟩
            rw [List.mem_cons, members]
            constructor
            · -- a position that is skipped has the other bit, and a stale one there does no harm
              rintro (rfl | ⟨q, start, there, bit, clean⟩)
              · exact ⟨pos, first, here, found inside, fun j start stop bit =>
                  absurd bit (skipped j start stop)⟩
              · refine ⟨q, by omega, there, bit, fun j start stop set => ?_⟩
                rcases Nat.lt_trichotomy j pos with before | rfl | after
                · exact absurd set (skipped j start before)
                · rw [here]
                  simp
                · exact clean j after stop set
            · rintro ⟨q, start, there, bit, clean⟩
              rcases Nat.lt_trichotomy q pos with before | rfl | after
              · exact absurd bit (skipped q start before)
              · rw [here] at there
                cases there
                exact Or.inl rfl
              · exact Or.inr ⟨q, after, there, bit, fun j start stop => clean j (by omega) stop⟩

/-- An iteration is right when no stale position stands before a declaration it should report. -/
theorem mask_entry_decls_iff (consistent : Consistent base backref)
    (rep : MaskRepresents base mask set) (covers : numBitfields base ≤ mask.bitfield.length)
    (known : ∀ decl, decl ∈ declared ↔ some decl ∈ base) (isSet : Bool) :
    (∀ decl, decl ∈ maskEntryDecls isSet base mask (base.length + 1) 0 ↔
        decl ∈ declared ∧ decide (decl ∈ set.members) = isSet) ↔
      ∀ dropped position decl, dropped < position → base[dropped]? = some none →
        maskBit mask dropped = isSet → base[position]? = some (some decl) →
        maskBit mask position ≠ isSet := by
  have bits : ∀ {position}, position < base.length →
      isNthBitSet mask position = maskBit mask position := fun inside =>
    is_nth_bit_set_eq (covered covers inside)
  obtain ⟨_, members⟩ := mask_entry_decls_spec consistent isSet mask (base.length + 1) 0
    (by omega) (by omega)
  simp only [members, Nat.zero_le, true_and, forall_const]
  constructor
  · intro exact dropped position decl before stale staleBit found bit
    have member : decide (decl ∈ set.members) = isSet := by
      rw [← rep.members position decl found, bit]
    obtain ⟨q, here, _, clean⟩ := (exact decl).mpr
      ⟨(known decl).mpr (List.mem_of_getElem? found), member⟩
    have same := (consistent q decl here).symm.trans (consistent position decl found)
    subst same
    exact clean dropped before
      (by rw [bits (List.getElem?_eq_some_iff.mp stale).1, staleBit]) stale
  · intro clean decl
    constructor
    · rintro ⟨position, found, bit, _⟩
      refine ⟨(known decl).mpr (List.mem_of_getElem? found), ?_⟩
      rw [← rep.members position decl found, ← bits (declared_lt found), bit]
    · rintro ⟨mem, member⟩
      obtain ⟨position, found⟩ := List.mem_iff_getElem?.mp ((known decl).mp mem)
      have bit : maskBit mask position = isSet := by rw [rep.members position decl found, member]
      refine ⟨position, found, (bits (declared_lt found)).trans bit, ?_⟩
      intro dropped before staleBit stale
      rw [bits (List.getElem?_eq_some_iff.mp stale).1] at staleBit
      exact clean dropped position decl before stale staleBit found bit

end Queries

section Steps

variable {Decl : Type} [DecidableEq Decl] {s s' : State Decl} {r : SetState Decl}

theorem Represents.consistent (rep : Represents s r) : Consistent s.base s.backref :=
  rep.backrefs

theorem Represents.check (rep : Represents s r) (k : Nat) : Represents (s.checkMask k) r where
  backrefs := rep.backrefs
  declared := rep.declared
  within := rep.within
  count := by simpa [State.checkMask] using rep.count
  masks := by
    intro j mask set found known
    simp only [State.checkMask, List.getElem?_modify, Option.map_eq_map,
      Option.map_eq_some_iff] at found
    obtain ⟨before, here, rfl⟩ := found
    split
    · exact (rep.masks j before set here known).check
    · exact rep.masks j before set here known

theorem Represents.set_of_mask (rep : Represents s r) {k : Nat} {mask : Mask}
    (found : s.masks[k]? = some mask) : ∃ set, r.masks[k]? = some set := by
  have inside := (List.getElem?_eq_some_iff.mp found).1
  rw [rep.count] at inside
  exact ⟨_, List.getElem?_eq_getElem inside⟩

omit [DecidableEq Decl] in
theorem check_mask_get (s : State Decl) (k j : Nat) :
    (s.checkMask k).masks[j]? =
      s.masks[j]?.map fun mask => if k = j then checkMask s.base mask else mask := by
  simp only [State.checkMask, List.getElem?_modify, Option.map_eq_map]

/-- What an operation on one mask works on: a mask that covers the base, with its set. -/
theorem on_mask_some {α : Type} {body : State Decl → Mask → α} {result : α} {k : Nat}
    (rep : Represents s r) (called : s.onMask k body = some result) :
    ∃ old mask set, s.masks[k]? = some old ∧ r.masks[k]? = some set ∧
      maskBit mask = maskBit old ∧ MaskRepresents s.base mask set ∧
      numBitfields s.base ≤ mask.bitfield.length ∧ body (s.checkMask k) mask = result := by
  obtain ⟨mask, found, rfl⟩ := Option.map_eq_some_iff.mp called
  obtain ⟨set, known⟩ := (rep.check k).set_of_mask found
  have represents := (rep.check k).masks k mask set found known
  rw [check_mask_get] at found
  obtain ⟨old, here, rfl⟩ := Option.map_eq_some_iff.mp found
  rw [if_pos rfl] at represents ⊢
  exact ⟨old, _, set, here, known, funext (check_mask_bit s.base old), represents,
    check_mask_covers s.base old, rfl⟩

theorem on_masks_some {α : Type} {body : State Decl → Mask → Mask → α} {result : α} {k j : Nat}
    (rep : Represents s r) (called : s.onMasks k j body = some result) :
    ∃ old mask mask2 set set2, s.masks[k]? = some old ∧ r.masks[k]? = some set ∧
      r.masks[j]? = some set2 ∧ maskBit mask = maskBit old ∧
      MaskRepresents s.base mask set ∧ MaskRepresents s.base mask2 set2 ∧
      numBitfields s.base ≤ mask.bitfield.length ∧ numBitfields s.base ≤ mask2.bitfield.length ∧
      body ((s.checkMask k).checkMask j) mask mask2 = result := by
  have both := (rep.check k).check j
  simp only [State.onMasks] at called
  split at called
  · rename_i mask mask2 found found2
    obtain ⟨set, known⟩ := both.set_of_mask found
    obtain ⟨set2, known2⟩ := both.set_of_mask found2
    have represents := both.masks k mask set found known
    have represents2 := both.masks j mask2 set2 found2 known2
    have covers2 : numBitfields s.base ≤ mask2.bitfield.length := by
      rw [check_mask_get] at found2
      obtain ⟨_, _, rfl⟩ := Option.map_eq_some_iff.mp found2
      rw [if_pos rfl]
      exact check_mask_covers s.base _
    rw [check_mask_get, check_mask_get, Option.map_map] at found
    obtain ⟨old, here, rfl⟩ := Option.map_eq_some_iff.mp found
    refine ⟨old, _, mask2, set, set2, here, known, known2, ?_, represents, represents2, ?_, covers2,
      Option.some.inj called⟩
    · funext position
      simp only [Function.comp_apply, ↓reduceIte]
      split
      · exact (check_mask_bit s.base _ position).trans (check_mask_bit s.base old position)
      · exact check_mask_bit s.base old position
    · simp only [Function.comp_apply, ↓reduceIte]
      split
      · exact check_mask_covers s.base _
      · exact check_mask_covers s.base old
  · cases called

theorem generate_iff (rep : Represents s r) {new : Mask} {set : SetMask Decl}
    (within : set.members ⊆ r.declared) :
    Represents (s.generate new).1 (r.generate set) ↔ MaskRepresents s.base new set := by
  constructor
  · intro after
    exact after.masks s.masks.length new set (by simp [State.generate])
      (by simp [SetState.generate, rep.count])
  · intro represents
    refine ⟨rep.backrefs, rep.declared, ?_, by simp [State.generate, SetState.generate, rep.count],
      ?_⟩
    · intro other mem
      rcases List.mem_append.mp mem with before | last
      · exact rep.within other before
      · cases List.mem_singleton.mp last
        exact within
    · intro k mask other found known
      simp only [State.generate, SetState.generate] at found known
      by_cases inside : k < s.masks.length
      · rw [List.getElem?_append_left inside] at found
        rw [List.getElem?_append_left (rep.count ▸ inside)] at known
        exact rep.masks k mask other found known
      · rw [List.getElem?_append_right (by omega)] at found
        rw [List.getElem?_append_right (by have := rep.count; omega), ← rep.count] at known
        have last := (List.getElem?_eq_some_iff.mp found).1
        simp only [List.length_singleton] at last
        have zero : k - s.masks.length = 0 := by omega
        rw [zero] at found known
        cases found
        cases known
        exact represents

theorem assign_represents (rep : Represents s r) {k : Nat} {new : Mask} {set : SetMask Decl}
    (within : set.members ⊆ r.declared) (represents : MaskRepresents s.base new set) :
    Represents (s.assign k new).1 { r with masks := r.masks.set k set } := by
  refine ⟨rep.backrefs, rep.declared, ?_, by simp [State.assign, rep.count], ?_⟩
  · intro other mem
    rcases List.mem_or_eq_of_mem_set mem with before | rfl
    · exact rep.within other before
    · exact within
  · intro j mask other found known
    simp only [State.assign, List.getElem?_set] at found known
    by_cases here : k = j
    · subst here
      have inside : k < s.masks.length := by
        by_contra outside
        simp [outside] at found
      simp only [↓reduceIte, inside, rep.count ▸ inside, Option.some.injEq] at found known
      subst found known
      exact represents
    · simp only [here, ↓reduceIte] at found known
      exact rep.masks j mask other found known

theorem inv_within (set : SetMask Decl) (declared : Finset Decl) :
    (set.inv declared).members ⊆ declared :=
  Finset.sdiff_subset

theorem sets_within (op : Combination) {s t declared : Finset Decl} (first : s ⊆ declared)
    (second : t ⊆ declared) : op.sets s t ⊆ declared := by
  cases op with
  | and => exact fun decl mem => first (Finset.mem_inter.mp mem).1
  | or => exact Finset.union_subset first second
  | minus => exact fun decl mem => first (Finset.mem_sdiff.mp mem).1
  | xor =>
      refine Finset.union_subset ?_ ?_
      · exact fun decl mem => first (Finset.mem_sdiff.mp mem).1
      · exact fun decl mem => second (Finset.mem_sdiff.mp mem).1

theorem Represents.within_of_get (rep : Represents s r) {k : Nat} {set : SetMask Decl}
    (known : r.masks[k]? = some set) : set.members ⊆ r.declared :=
  rep.within set (List.mem_of_getElem? known)

/-- An added declaration is a member of exactly the masks that are set by default if the bits that
the masks have beyond the old declarations are the default. -/
theorem update_iff (rep : Represents s r) (chain : DeclChain Decl) (memory : Memory) :
    let updated := updateMaskBase s.base s.backref memory chain.nodes
    Represents { s with base := updated.1, backref := updated.2 }
        ⟨chain.nodes.toFinset,
          r.masks.map fun mask => mask.update r.declared chain.nodes.toFinset⟩ ↔
      Harmless s (.updateMaskBase chain memory) := by
  intro updated
  obtain ⟨consistent, appends⟩ := update_mask_base_spec rep.consistent memory chain
  have length : (clearUnused s.base (usageMask s.base s.backref memory chain.nodes)).length =
      s.base.length := by simp [clearUnused]
  have old : ∀ position, position < s.base.length → ∀ decl,
      (updated.1[position]? = some (some decl) ↔
        s.base[position]? = some (some decl) ∧ decl ∈ chain.nodes) := by
    intro position inside decl
    rw [← clear_unused_get rep.consistent memory chain.nodes position decl]
    change (updateMaskBase s.base s.backref memory chain.nodes).1[position]? = _ ↔ _
    rw [appends, List.getElem?_append_left (length.symm ▸ inside)]
  have new : ∀ position, s.base.length ≤ position → ∀ decl,
      (updated.1[position]? = some (some decl) ↔
        (addedDecls s.base chain.nodes)[position - s.base.length]? = some decl) := by
    intro position outside decl
    change (updateMaskBase s.base s.backref memory chain.nodes).1[position]? = _ ↔ _
    rw [appends, List.getElem?_append_right (length.symm ▸ outside), length, List.getElem?_map]
    simp
  have added : ∀ {decl}, decl ∈ addedDecls s.base chain.nodes ↔
      decl ∈ chain.nodes ∧ decl ∉ r.declared := by
    intro decl
    simp [addedDecls, rep.declared]
  have bit : ∀ (k : Nat) mask set, s.masks[k]? = some mask → r.masks[k]? = some set →
      ∀ position, s.base.length ≤ position → ∀ decl, updated.1[position]? = some (some decl) →
        (maskBit mask position = decide
            (decl ∈ (set.update r.declared chain.nodes.toFinset).members) ↔
          maskBit mask position = mask.isSetByDefault) := by
    intro k mask set found known position outside decl here
    obtain ⟨mem, fresh⟩ := added.mp (List.mem_of_getElem? ((new position outside decl).mp here))
    have absent : decl ∉ set.members := fun member => fresh (rep.within_of_get known member)
    rw [(rep.masks k mask set found known).default]
    cases flag : set.isSetByDefault <;> simp [SetMask.update, flag, absent, mem, fresh]
  constructor
  · intro after mask mem position outside inside
    obtain ⟨k, found⟩ := List.mem_iff_getElem?.mp mem
    obtain ⟨set, known⟩ := rep.set_of_mask found
    have here := (new position outside _).mpr (List.getElem?_eq_getElem (by omega))
    refine (bit k mask set found known position outside _ here).mp ?_
    exact (after.masks k mask _ found (by simp [known])).members position _ here
  · intro harmless
    refine ⟨consistent, ?_, ?_, by simpa using rep.count, ?_⟩
    · intro decl
      change decl ∈ chain.nodes.toFinset ↔
        some decl ∈ (updateMaskBase s.base s.backref memory chain.nodes).1
      rw [appends, List.mem_append, kept_mem_iff rep.consistent memory, List.mem_toFinset]
      simp only [List.mem_map, Option.some.injEq, exists_eq_right, added, rep.declared]
      by_cases known : some decl ∈ s.base <;> simp [known]
    · intro set mem
      obtain ⟨before, _, rfl⟩ := List.mem_map.mp mem
      refine Finset.union_subset Finset.inter_subset_right ?_
      split
      · exact Finset.sdiff_subset
      · exact Finset.empty_subset _
    · intro k mask set found known
      rw [List.getElem?_map] at known
      obtain ⟨before, listed, rfl⟩ := Option.map_eq_some_iff.mp known
      refine ⟨(rep.masks k mask before found listed).default, fun position decl here => ?_⟩
      by_cases inside : position < s.base.length
      · obtain ⟨kept, mem⟩ := (old position inside decl).mp here
        rw [(rep.masks k mask before found listed).members position decl kept]
        have declared := (rep.declared decl).mpr (List.mem_of_getElem? kept)
        cases flag : before.isSetByDefault <;> simp [SetMask.update, flag, mem, declared]
      · have outside : s.base.length ≤ position := by omega
        refine (bit k mask before found listed position outside decl here).mpr ?_
        have filled := declared_lt here
        refine harmless mask (List.mem_of_getElem? found) position outside ?_
        change position < (updateMaskBase s.base s.backref memory chain.nodes).1.length at filled
        rw [appends, List.length_append, List.length_map, length] at filled
        exact filled

/-- An operation that assigns one mask. -/
theorem assigned_step (rep : Represents s r) {k : Nat} {report : Report Decl} {f : Mask → Mask}
    (called : (s.onMask k fun s bits => s.assign k (f bits)) = some (s', report))
    (g : SetMask Decl → SetMask Decl)
    (follows : ∀ mask set, r.masks[k]? = some set → MaskRepresents s.base mask set →
      numBitfields s.base ≤ mask.bitfield.length →
      (g set).members ⊆ r.declared ∧ MaskRepresents s.base (f mask) (g set)) :
    ∃ r', r.onMask k g = some r' ∧ Represents s' r' ∧ report = .nothing := by
  obtain ⟨_, mask, set, _, known, _, represents, covers, result⟩ := on_mask_some rep called
  cases result
  obtain ⟨within, after⟩ := follows mask set known represents covers
  refine ⟨{ r with masks := r.masks.set k (g set) }, by simp [SetState.onMask, known], ?_, rfl⟩
  exact assign_represents (rep.check k) within after

/-- An operation that assigns one mask from two. -/
theorem assigned_step2 (rep : Represents s r) {k j : Nat} {report : Report Decl}
    {f : Mask → Mask → Mask}
    (called : (s.onMasks k j fun s bits bits2 => s.assign k (f bits bits2)) = some (s', report))
    (g : SetMask Decl → SetMask Decl → SetMask Decl)
    (follows : ∀ mask mask2 set set2, r.masks[k]? = some set → r.masks[j]? = some set2 →
      MaskRepresents s.base mask set → MaskRepresents s.base mask2 set2 →
      numBitfields s.base ≤ mask.bitfield.length → numBitfields s.base ≤ mask2.bitfield.length →
      (g set set2).members ⊆ r.declared ∧ MaskRepresents s.base (f mask mask2) (g set set2)) :
    ∃ r', (r.onMasks k j fun set set2 => { r with masks := r.masks.set k (g set set2) }) =
        some r' ∧ Represents s' r' ∧ report = .nothing := by
  obtain ⟨_, mask, mask2, set, set2, _, known, known2, _, represents, represents2, covers, covers2,
    result⟩ := on_masks_some rep called
  cases result
  obtain ⟨within, after⟩ :=
    follows mask mask2 set set2 known known2 represents represents2 covers covers2
  refine ⟨{ r with masks := r.masks.set k (g set set2) }, ?_, ?_, rfl⟩
  · simp only [SetState.onMasks, known, known2]
  · exact assign_represents ((rep.check k).check j) within after

/-- An operation that makes a mask from one. -/
theorem generated_step (rep : Represents s r) {k : Nat} {report : Report Decl}
    (f : MaskBase Decl → Mask → Mask)
    (called : (s.onMask k fun s bits => s.generate (f s.base bits)) = some (s', report))
    (g : SetMask Decl → SetMask Decl)
    (follows : ∀ mask set, r.masks[k]? = some set → MaskRepresents s.base mask set →
      numBitfields s.base ≤ mask.bitfield.length →
      (g set).members ⊆ r.declared ∧ MaskRepresents s.base (f s.base mask) (g set)) :
    ∃ r', (r.masks[k]?.map fun set => r.generate (g set)) = some r' ∧ Represents s' r' ∧
      report = .nothing := by
  obtain ⟨_, mask, set, _, known, _, represents, covers, result⟩ := on_mask_some rep called
  cases result
  obtain ⟨within, after⟩ := follows mask set known represents covers
  refine ⟨r.generate (g set), by simp [known], ?_, rfl⟩
  exact (generate_iff (rep.check k) within).mpr after

/-- An operation on an entry finds its declaration at the position it refers back to. -/
theorem on_entry_some {α : Type} {k : Nat} {decl : Decl} {result : α}
    {body : State Decl → Mask → Nat → α} (called : s.onEntry k decl body = some result) :
    s.base[s.backref decl]? = some (some decl) ∧
      (s.onMask k fun after bits => body after bits (s.backref decl)) = some result := by
  rw [State.onEntry] at called
  split at called
  · rename_i part
    exact ⟨of_decide_eq_true part, called⟩
  · cases called

theorem gen_mask_step_iff (rep : Represents s r) {op : Combination} {memory : Memory} {k j : Nat}
    {report : Report Decl} (called : s.step (.genMask op memory k j) = some (s', report)) :
    ∃ r', r.step (.genMask op memory k j) = some r' ∧
      (Represents s' r' ∧ report = .nothing ↔ Harmless s (.genMask op memory k j)) := by
  rw [State.step] at called
  obtain ⟨old, mask, mask2, set, set2, found, known, known2, bits, represents, represents2,
    covers, covers2, result⟩ := on_masks_some rep called
  cases result
  refine ⟨r.generate (set.withMembers (op.sets set.members set2.members)), ?_, ?_⟩
  · simp only [SetState.step, SetState.onMasks, known, known2]
  · have within : (set.withMembers (op.sets set.members set2.members)).members ⊆ r.declared :=
      sets_within op (rep.within_of_get known) (rep.within_of_get known2)
    refine ((and_iff_left rfl).trans (generate_iff ((rep.check k).check j) within)).trans ?_
    cases op with
    | xor =>
        refine (gen_xor_represents_iff memory represents represents2 covers2).trans ?_
        rw [bits]
        constructor
        · intro memoryBits mask' found'
          cases found.symm.trans found'
          exact memoryBits
        · intro memoryBits
          exact memoryBits old found
    | and | or | minus =>
        refine iff_of_true ?_ trivial
        exact gen_mask_represents memory (by decide) represents represents2 covers covers2

/-- A query changes no set. -/
theorem query_step (rep : Represents s r) {k : Nat} {report : Report Decl}
    {f : State Decl → Mask → Report Decl}
    (called : (s.onMask k fun s bits => (s, f s bits)) = some (s', report)) :
    ∃ old mask set, s.masks[k]? = some old ∧ r.masks[k]? = some set ∧
      maskBit mask = maskBit old ∧ MaskRepresents s.base mask set ∧
      numBitfields s.base ≤ mask.bitfield.length ∧ r.onMask k id = some r ∧ Represents s' r ∧
      report = f (s.checkMask k) mask := by
  obtain ⟨old, mask, set, found, known, bits, represents, covers, result⟩ :=
    on_mask_some rep called
  cases result
  refine ⟨old, mask, set, found, known, bits, represents, covers, ?_, rep.check k, rfl⟩
  obtain ⟨inside, rfl⟩ := List.getElem?_eq_some_iff.mp known
  simp [SetState.onMask, known]

/-- One call: the reference makes it too, and the two agree afterwards exactly if it is
harmless. -/
theorem step_iff (rep : Represents s r) {op : Op Decl} {report : Report Decl}
    (called : s.step op = some (s', report)) :
    ∃ r', r.step op = some r' ∧
      (Represents s' r' ∧ r.Reports op report ↔ Harmless s op) := by
  have agrees : (∃ r', r.step op = some r' ∧ Represents s' r' ∧ r.Reports op report) →
      Harmless s op → ∃ r', r.step op = some r' ∧
        (Represents s' r' ∧ r.Reports op report ↔ Harmless s op) := by
    rintro ⟨r', stepped, rest⟩ harmless
    exact ⟨r', stepped, iff_of_true rest harmless⟩
  have known := rep.declared
  cases op with
  | updateMaskBase chain memory =>
      cases called
      exact ⟨_, rfl, (and_iff_left rfl).trans (update_iff rep chain memory)⟩
  | genMaskClear memory =>
      cases called
      refine agrees ⟨_, rfl, ?_, rfl⟩ trivial
      exact (generate_iff rep (Finset.empty_subset _)).mpr (gen_clear_represents memory)
  | genMaskSet memory =>
      cases called
      refine agrees ⟨_, rfl, ?_, rfl⟩ trivial
      exact (generate_iff rep subset_rfl).mpr (gen_set_represents memory known)
  | genMaskCopy memory k =>
      rw [State.step] at called
      exact agrees (generated_step rep (genMaskCopy · memory) called id
        fun _ set found represents covers =>
          ⟨rep.within_of_get found, gen_copy_represents memory represents covers⟩) trivial
  | genMaskInv memory k =>
      rw [State.step] at called
      exact agrees (generated_step rep (genMaskInv · memory) called
        (fun set => set.inv r.declared) fun _ set _ represents covers =>
          ⟨inv_within set _, gen_inv_represents memory represents covers known⟩) trivial
  | genMask op memory k j => exact gen_mask_step_iff rep called
  | setMaskClear k =>
      rw [State.step] at called
      exact agrees (assigned_step rep called (fun set => set.withMembers ∅)
        fun _ _ _ represents covers =>
          ⟨Finset.empty_subset _, set_clear_represents represents covers⟩) trivial
  | setMaskSet k =>
      rw [State.step] at called
      exact agrees (assigned_step rep called (fun set => set.withMembers r.declared)
        fun _ _ _ represents covers =>
          ⟨subset_rfl, set_set_represents represents covers known⟩) trivial
  | setMaskCopy k j =>
      rw [State.step] at called
      exact agrees (assigned_step2 rep called (fun set set2 => set.withMembers set2.members)
        fun _ _ _ set2 _ found2 represents represents2 covers covers2 =>
          ⟨(rep.within_of_get found2 : set2.members ⊆ r.declared),
            set_copy_represents represents represents2 covers covers2⟩) trivial
  | setMaskInv k =>
      rw [State.step] at called
      exact agrees (assigned_step rep called (fun set => set.inv r.declared)
        fun _ set _ represents covers =>
          ⟨inv_within set _, set_inv_represents represents covers known⟩) trivial
  | setMask op k j =>
      rw [State.step] at called
      exact agrees (assigned_step2 rep called
        (fun set set2 => set.withMembers (op.sets set.members set2.members))
        fun _ _ _ _ found found2 represents represents2 covers covers2 =>
          ⟨sets_within op (rep.within_of_get found) (rep.within_of_get found2),
            set_mask_represents op represents represents2 covers covers2⟩) trivial
  | setMaskEntryClear k decl =>
      rw [State.step] at called
      obtain ⟨part, called⟩ := on_entry_some called
      exact agrees (assigned_step rep called (fun set => set.withMembers (set.members.erase decl))
        fun _ set found represents covers =>
          ⟨(Finset.erase_subset _ _).trans (rep.within_of_get found),
            (entry_represents represents covers rep.backrefs part).2⟩) trivial
  | setMaskEntrySet k decl =>
      rw [State.step] at called
      obtain ⟨part, called⟩ := on_entry_some called
      exact agrees (assigned_step rep called (fun set => set.withMembers (insert decl set.members))
        fun _ set found represents covers =>
          ⟨Finset.insert_subset ((known decl).mpr (List.mem_of_getElem? part))
              (rep.within_of_get found),
            (entry_represents represents covers rep.backrefs part).1⟩) trivial
  | testMask k =>
      rw [State.step] at called
      obtain ⟨old, mask, set, found, here, bits, represents, covers, stepped, after, rfl⟩ :=
        query_step rep called
      refine ⟨r, stepped, (and_iff_right after).trans ?_⟩
      have within : ∀ decl ∈ set.members, some decl ∈ s.base := fun decl mem =>
        (known decl).mp (rep.within_of_get here mem)
      have counted := test_mask_iff rep.consistent represents covers within
      rw [bits] at counted
      simp only [SetState.Reports, Harmless, here, found, Option.some.injEq, forall_eq',
        Report.count.injEq]
      exact counted
  | testMaskEntry k decl =>
      rw [State.step] at called
      obtain ⟨part, called⟩ := on_entry_some called
      obtain ⟨old, mask, set, found, here, bits, represents, covers, stepped, after, rfl⟩ :=
        query_step rep called
      refine ⟨r, stepped, iff_of_true ⟨after, ?_⟩ trivial⟩
      intro set' here'
      cases here.symm.trans here'
      rw [is_nth_bit_set_eq (covered covers (declared_lt part)), represents.members _ _ part]
  | getMaskEntryDecls isSet k =>
      rw [State.step] at called
      obtain ⟨old, mask, set, found, here, bits, represents, covers, stepped, after, rfl⟩ :=
        query_step rep called
      refine ⟨r, stepped, (and_iff_right after).trans ?_⟩
      have reported := mask_entry_decls_iff rep.consistent represents covers known isSet
      have once := (mask_entry_decls_spec rep.consistent isSet mask (s.base.length + 1) 0
        (by omega) (by omega)).1
      rw [bits] at reported
      simp only [SetState.Reports, Harmless, here, found, Option.some.injEq, forall_eq',
        Report.decls.injEq, exists_eq_left']
      exact (and_iff_right once).trans reported

end Steps

section Runs

variable {Decl : Type} [DecidableEq Decl]

theorem follows_iff (ops : List (Op Decl)) : ∀ {s : State Decl} {r : SetState Decl},
    Represents s r → (Follows s r ops ↔ HarmlessRun s ops) := by
  induction ops with
  | nil =>
      intro s r rep
      exact iff_of_true rep trivial
  | cons op ops ih =>
      intro s r rep
      rw [Follows, HarmlessRun, and_iff_right rep]
      refine forall_congr' fun s' => forall_congr' fun report => forall_congr' fun called => ?_
      obtain ⟨r', stepped, agree⟩ := step_iff rep called
      constructor
      · rintro ⟨r'', stepped', reports, rest⟩
        cases stepped.symm.trans stepped'
        -- The first state of the rest of the run is the one after the call.
        have after : Represents s' r' := by
          cases ops with
          | nil => exact rest
          | cons _ _ => exact rest.1
        exact ⟨agree.mp ⟨after, reports⟩, (ih after).mp rest⟩
      · rintro ⟨harmless, rest⟩
        obtain ⟨after, reports⟩ := agree.mpr harmless
        exact ⟨r', stepped, reports, (ih after).mpr rest⟩

theorem init_represents (backref : Decl → Nat) (chain : DeclChain Decl) :
    Represents (State.init backref chain) (SetState.init chain) := by
  obtain ⟨consistent, decls⟩ := gen_mask_base_spec backref chain
  refine ⟨consistent, fun decl => ?_, by simp [SetState.init], rfl, by simp [State.init]⟩
  change decl ∈ chain.nodes.toFinset ↔ some decl ∈ (genMaskBase backref chain.nodes).1
  rw [decls]
  simp

/-- A run over the word arrays follows the sets, with every report right, exactly if all its calls
are harmless. -/
theorem masks_are_sets_iff (backref : Decl → Nat) (chain : DeclChain Decl)
    (ops : List (Op Decl)) :
    Follows (State.init backref chain) (SetState.init chain) ops ↔
      HarmlessRun (State.init backref chain) ops :=
  follows_iff ops (init_represents backref chain)

/-- The exclusive or of a full mask with itself, over zeroed memory, holds everything. -/
theorem xor_of_equal_masks :
    ¬ Follows (State.init (fun _ => 0) ⟨[0], List.nodup_singleton 0⟩)
      (SetState.init ⟨[0], List.nodup_singleton 0⟩)
      [.genMaskSet fun _ => 0, .genMask .xor (fun _ => 0) 0 0] := by
  intro follows
  obtain ⟨_, follows⟩ := follows
  obtain ⟨_, stepped, _, _, follows⟩ := follows _ _ rfl
  cases stepped
  obtain ⟨_, stepped, _, follows⟩ := follows _ _ rfl
  cases stepped
  have member := (follows.masks 1 _ _ rfl rfl).members 0 0 rfl
  revert member
  decide

end Runs

end Sac2c.DataFlowMask
