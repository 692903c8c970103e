import Sac2c.BitWords

/-!
Data flow masks and their base (`tree/DataFlowMask.c`). A mask holds one bit per declaration of its
base, in words of 64 bits. The base may grow: a mask that is too short for it is extended with its
default the next time an operation touches it. Memory from `MEMmalloc` has arbitrary contents,
which are an argument of the operations that allocate. Declarations are the identities of
argument and variable nodes; a base entry is `none` once its declaration is no longer used.
-/

namespace Sac2c.DataFlowMask

open BitWords

/-- `size_t`. -/
abbrev Word := BitVec 64

abbrev Memory := Nat → Word

/-- `dfmask_t`, with `num_bitfields` the length of `bitfield`. -/
structure Mask where
  isSetByDefault : Bool
  bitfield : List Word
  deriving DecidableEq

/-- The arguments followed by the variable declarations: nodes linked by their successors. -/
structure DeclChain (Decl : Type) where
  nodes : List Decl
  nodup : nodes.Nodup

section MaskBase

variable {Decl : Type}

/-- The `decls` of a mask base; `num_decls` is their number. -/
abbrev MaskBase (Decl : Type) := List (Option Decl)

/-- Both functions that write `num_bitfields` compute it so. -/
def numBitfields (base : MaskBase Decl) : Nat :=
  base.length / 64 + 1

end MaskBase

/-- `access_mask_table`. -/
def accessMaskTable (bit : Nat) : Word :=
  oneAt 64 bit

/-- `IS_NTH_BIT_SET`. -/
def isNthBitSet (mask : Mask) (position : Nat) : Bool :=
  decide (0#64 < mask.bitfield.getD (position / 64) 0#64 &&& accessMaskTable (position % 64))

section Masks

variable {Decl : Type}

def extendMask (base : MaskBase Decl) (mask : Mask) : Mask :=
  { mask with
    bitfield := mask.bitfield ++
      List.replicate (numBitfields base - mask.bitfield.length) (fill 64 mask.isSetByDefault) }

/-- `CHECK_MASK`. -/
def checkMask (base : MaskBase Decl) (mask : Mask) : Mask :=
  if mask.bitfield.length < numBitfields base then extendMask base mask else mask

/-- The bit field is whatever the allocated memory holds. -/
def genUninitializedMask (base : MaskBase Decl) (memory : Memory) (isSetByDefault : Bool) : Mask :=
  ⟨isSetByDefault, (List.range (numBitfields base)).map memory⟩

/-- The loop over the bit fields of a mask that all operations on whole masks share. -/
def forEachBitfield (mask : Mask) (body : Nat → Word → Word) : Mask :=
  { mask with bitfield := mask.bitfield.mapIdx body }

/-- `mask->bitfield[i]`. -/
def word (mask : Mask) (i : Nat) : Word :=
  mask.bitfield.getD i 0#64

def genInitializedMask (base : MaskBase Decl) (memory : Memory) (isSetByDefault : Bool) : Mask :=
  forEachBitfield (genUninitializedMask base memory isSetByDefault) fun _ _ =>
    fill 64 isSetByDefault

def genMaskClear (base : MaskBase Decl) (memory : Memory) : Mask :=
  genInitializedMask base memory false

def genMaskSet (base : MaskBase Decl) (memory : Memory) : Mask :=
  genInitializedMask base memory true

def genMaskCopy (base : MaskBase Decl) (memory : Memory) (mask : Mask) : Mask :=
  forEachBitfield (genUninitializedMask base memory mask.isSetByDefault) fun i _ => word mask i

def genMaskInv (base : MaskBase Decl) (memory : Memory) (mask : Mask) : Mask :=
  forEachBitfield (genUninitializedMask base memory (!mask.isSetByDefault)) fun i _ =>
    ~~~word mask i

/-- The generators of two masks: the new mask takes the default of the first. -/
def genMaskCombined (body : Word → Word → Word → Word) (base : MaskBase Decl) (memory : Memory)
    (mask1 mask2 : Mask) : Mask :=
  forEachBitfield (genUninitializedMask base memory mask1.isSetByDefault) fun i new =>
    body new (word mask1 i) (word mask2 i)

def genMaskAnd (base : MaskBase Decl) : Memory → Mask → Mask → Mask :=
  genMaskCombined (fun _ bits1 bits2 => bits1 &&& bits2) base

def genMaskOr (base : MaskBase Decl) : Memory → Mask → Mask → Mask :=
  genMaskCombined (fun _ bits1 bits2 => bits1 ||| bits2) base

def genMaskMinus (base : MaskBase Decl) : Memory → Mask → Mask → Mask :=
  genMaskCombined (fun _ bits1 bits2 => bits1 &&& ~~~bits2) base

/-- `new_mask->bitfield[i] ^= mask2->bitfield[i]`: the words of the first mask are not read. -/
def genMaskXor (base : MaskBase Decl) : Memory → Mask → Mask → Mask :=
  genMaskCombined (fun new _ bits2 => new ^^^ bits2) base

def setMaskClear (mask : Mask) : Mask :=
  forEachBitfield mask fun _ _ => 0#64

def setMaskSet (mask : Mask) : Mask :=
  forEachBitfield mask fun _ _ => ~~~0#64

def setMaskCopy (mask mask2 : Mask) : Mask :=
  forEachBitfield mask fun i _ => word mask2 i

def setMaskInv (mask : Mask) : Mask :=
  forEachBitfield { mask with isSetByDefault := !mask.isSetByDefault } fun _ bits => ~~~bits

def setMaskAnd (mask mask2 : Mask) : Mask :=
  forEachBitfield mask fun i bits => bits &&& word mask2 i

def setMaskOr (mask mask2 : Mask) : Mask :=
  forEachBitfield mask fun i bits => bits ||| word mask2 i

def setMaskMinus (mask mask2 : Mask) : Mask :=
  forEachBitfield mask fun i bits => bits &&& ~~~word mask2 i

def setMaskXor (mask mask2 : Mask) : Mask :=
  forEachBitfield mask fun i bits => bits ^^^ word mask2 i

/-- `DFMsetMaskEntryClear` at the position of the declaration. -/
def setMaskEntryClear (mask : Mask) (position : Nat) : Mask :=
  { mask with
    bitfield := mask.bitfield.modify (position / 64) fun bits =>
      bits &&& ~~~accessMaskTable (position % 64) }

/-- `DFMsetMaskEntrySet` at the position of the declaration. -/
def setMaskEntrySet (mask : Mask) (position : Nat) : Mask :=
  { mask with
    bitfield := mask.bitfield.modify (position / 64) fun bits =>
      bits ||| accessMaskTable (position % 64) }

/-- The count of `DFMtestMask`. -/
def testMask (base : MaskBase Decl) (mask : Mask) : Nat :=
  (List.range base.length).countP (isNthBitSet mask)

/-- The search of `GetMaskEntryPosSet` and, for `isSet = false`, of `GetMaskEntryPosClear` from the
stored position on. -/
def getMaskEntryPos (isSet : Bool) (mask : Mask) (numDecls : Nat) : Nat → Nat → Nat
  | 0, i => i
  | fuel + 1, i =>
      if i < numDecls ∧ isNthBitSet mask i ≠ isSet then
        getMaskEntryPos isSet mask numDecls fuel (i + 1)
      else i

/-- `DFMgetMaskEntryDeclSet` and `DFMgetMaskEntryDeclClear`: the declaration and the position that
is stored for the next call. -/
def getMaskEntryDecl (isSet : Bool) (base : MaskBase Decl) (mask : Mask) (i : Nat) :
    Option Decl × Nat :=
  let pos := getMaskEntryPos isSet mask base.length (base.length - i) i
  (if pos = base.length then none else base[pos]?.join, pos + 1)

/-- `for (decl = DFMgetMaskEntryDecl* (mask); decl != NULL; decl = DFMgetMaskEntryDecl* (NULL))`. -/
def maskEntryDecls (isSet : Bool) (base : MaskBase Decl) (mask : Mask) : Nat → Nat → List Decl
  | 0, _ => []
  | fuel + 1, i =>
      match getMaskEntryDecl isSet base mask i with
      | (none, _) => []
      | (some decl, next) => decl :: maskEntryDecls isSet base mask fuel next

end Masks

section Updates

variable {Decl : Type} [DecidableEq Decl]

def isPartOfMaskBase (base : MaskBase Decl) (backref : Decl → Nat) (decl : Decl) : Bool :=
  decide (base[backref decl]? = some (some decl))

/-- The bits of the declarations of the base that the chain still holds. -/
def usageMask (base : MaskBase Decl) (backref : Decl → Nat) (memory : Memory)
    (chain : List Decl) : Mask :=
  chain.foldl
    (fun usage decl =>
      if isPartOfMaskBase base backref decl then setMaskEntrySet usage (backref decl) else usage)
    (genMaskClear base memory)

/-- Stale declarations are overwritten with `NULL`. -/
def clearUnused (base : MaskBase Decl) (usage : Mask) : MaskBase Decl :=
  base.mapIdx fun i decl => if isNthBitSet usage i then decl else none

/-- One declaration of the second traversal, over the new `decls` and the back references. -/
def appendDecl (base : MaskBase Decl) (next : MaskBase Decl × (Decl → Nat)) (decl : Decl) :
    MaskBase Decl × (Decl → Nat) :=
  if isPartOfMaskBase base next.2 decl then next
  else (next.1 ++ [some decl], Function.update next.2 decl next.1.length)

def updateMaskBase (base : MaskBase Decl) (backref : Decl → Nat) (memory : Memory)
    (chain : List Decl) : MaskBase Decl × (Decl → Nat) :=
  let kept := clearUnused base (usageMask base backref memory chain)
  chain.foldl (appendDecl kept) (kept, backref)

/-- `DFMgenMaskBase`. -/
def genMaskBase (backref : Decl → Nat) (chain : List Decl) : MaskBase Decl × (Decl → Nat) :=
  chain.foldl
    (fun next decl => (next.1 ++ [some decl], Function.update next.2 decl next.1.length))
    ([], backref)

end Updates

section Runs

variable {Decl : Type}

/-- A mask base, the back references of all declarations and the masks of the base. -/
structure State (Decl : Type) where
  base : MaskBase Decl
  backref : Decl → Nat
  masks : List Mask

/-- The four ways two masks are combined. -/
inductive Combination where
  | and
  | or
  | minus
  | xor
  deriving DecidableEq

def Combination.genMask (op : Combination) (base : MaskBase Decl) (memory : Memory)
    (mask1 mask2 : Mask) : Mask :=
  match op with
  | .and => genMaskAnd base memory mask1 mask2
  | .or => genMaskOr base memory mask1 mask2
  | .minus => genMaskMinus base memory mask1 mask2
  | .xor => genMaskXor base memory mask1 mask2

def Combination.setMask (op : Combination) (mask mask2 : Mask) : Mask :=
  match op with
  | .and => setMaskAnd mask mask2
  | .or => setMaskOr mask mask2
  | .minus => setMaskMinus mask mask2
  | .xor => setMaskXor mask mask2

/-- The calls of the interface; masks are named by the order of their creation. -/
inductive Op (Decl : Type) where
  | updateMaskBase (chain : DeclChain Decl) (memory : Memory)
  | genMaskClear (memory : Memory)
  | genMaskSet (memory : Memory)
  | genMaskCopy (memory : Memory) (mask : Nat)
  | genMaskInv (memory : Memory) (mask : Nat)
  | genMask (op : Combination) (memory : Memory) (mask1 mask2 : Nat)
  | setMaskClear (mask : Nat)
  | setMaskSet (mask : Nat)
  | setMaskCopy (mask mask2 : Nat)
  | setMaskInv (mask : Nat)
  | setMask (op : Combination) (mask mask2 : Nat)
  | setMaskEntryClear (mask : Nat) (decl : Decl)
  | setMaskEntrySet (mask : Nat) (decl : Decl)
  | testMask (mask : Nat)
  | testMaskEntry (mask : Nat) (decl : Decl)
  | getMaskEntryDecls (isSet : Bool) (mask : Nat)

inductive Report (Decl : Type) where
  | nothing
  | count (entries : Nat)
  | entry (isSet : Bool)
  | decls (decls : List Decl)

namespace State

/-- `CHECK_MASK` of one mask of the base. -/
def checkMask (s : State Decl) (mask : Nat) : State Decl :=
  { s with masks := s.masks.modify mask (DataFlowMask.checkMask s.base) }

def generate (s : State Decl) (new : Mask) : State Decl × Report Decl :=
  ({ s with masks := s.masks ++ [new] }, .nothing)

def assign (s : State Decl) (mask : Nat) (new : Mask) : State Decl × Report Decl :=
  ({ s with masks := s.masks.set mask new }, .nothing)

/-- An operation on one mask, which is checked first. -/
def onMask {α : Type} (s : State Decl) (mask : Nat) (body : State Decl → Mask → α) : Option α :=
  let s := s.checkMask mask
  s.masks[mask]?.map (body s)

/-- An operation on two masks, which are checked first. -/
def onMasks {α : Type} (s : State Decl) (mask mask2 : Nat)
    (body : State Decl → Mask → Mask → α) : Option α :=
  let s := (s.checkMask mask).checkMask mask2
  match s.masks[mask]?, s.masks[mask2]? with
  | some bits, some bits2 => some (body s bits bits2)
  | _, _ => none

variable [DecidableEq Decl]

/-- An operation on one entry; `SafeGetBackref` insists that the declaration is in the base. -/
def onEntry {α : Type} (s : State Decl) (mask : Nat) (decl : Decl)
    (body : State Decl → Mask → Nat → α) : Option α :=
  if isPartOfMaskBase s.base s.backref decl then
    s.onMask mask fun s bits => body s bits (s.backref decl)
  else none

/-- One call: the state after it and what it reports. -/
def step (s : State Decl) : Op Decl → Option (State Decl × Report Decl)
  | .updateMaskBase chain memory =>
      let updated := DataFlowMask.updateMaskBase s.base s.backref memory chain.nodes
      some ({ s with base := updated.1, backref := updated.2 }, .nothing)
  | .genMaskClear memory => some (s.generate (genMaskClear s.base memory))
  | .genMaskSet memory => some (s.generate (genMaskSet s.base memory))
  | .genMaskCopy memory mask =>
      s.onMask mask fun s bits => s.generate (genMaskCopy s.base memory bits)
  | .genMaskInv memory mask =>
      s.onMask mask fun s bits => s.generate (genMaskInv s.base memory bits)
  | .genMask op memory mask1 mask2 =>
      s.onMasks mask1 mask2 fun s bits1 bits2 => s.generate (op.genMask s.base memory bits1 bits2)
  | .setMaskClear mask => s.onMask mask fun s bits => s.assign mask (setMaskClear bits)
  | .setMaskSet mask => s.onMask mask fun s bits => s.assign mask (setMaskSet bits)
  | .setMaskCopy mask mask2 =>
      s.onMasks mask mask2 fun s bits bits2 => s.assign mask (setMaskCopy bits bits2)
  | .setMaskInv mask => s.onMask mask fun s bits => s.assign mask (setMaskInv bits)
  | .setMask op mask mask2 =>
      s.onMasks mask mask2 fun s bits bits2 => s.assign mask (op.setMask bits bits2)
  | .setMaskEntryClear mask decl =>
      s.onEntry mask decl fun s bits position => s.assign mask (setMaskEntryClear bits position)
  | .setMaskEntrySet mask decl =>
      s.onEntry mask decl fun s bits position => s.assign mask (setMaskEntrySet bits position)
  | .testMask mask => s.onMask mask fun s bits => (s, .count (testMask s.base bits))
  | .testMaskEntry mask decl =>
      s.onEntry mask decl fun s bits position => (s, .entry (isNthBitSet bits position))
  | .getMaskEntryDecls isSet mask =>
      s.onMask mask fun s bits =>
        (s, .decls (maskEntryDecls isSet s.base bits (s.base.length + 1) 0))

/-- The base over the given declarations, without masks. -/
def init (backref : Decl → Nat) (chain : DeclChain Decl) : State Decl :=
  let generated := genMaskBase backref chain.nodes
  ⟨generated.1, generated.2, []⟩

end State

end Runs

end Sac2c.DataFlowMask
