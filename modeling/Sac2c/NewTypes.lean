import Mathlib.Algebra.BigOperators.Group.List.Basic
import Mathlib.Order.Basic

/-!
The array types of typecheck/new_types.c and their comparison TYcmpTypes. A type
is an element type ("scalar type") with a restriction of the shape: a known
value (AKV), shape (AKS) or dimensionality (AKD), a dimensionality greater than
zero (AUDGZ), or none (AUD).
-/

namespace Sac2c.NewTypes

/-- The built-in types of global/type_info.mac. -/
inductive SimpleType where
  | unknown | byte | short | int | long | longlong | ubyte | ushort | uint | ulong | ulonglong
  | float | floatvec | double | longdbl | bool | str | char | hidden | classtype | void | dots
  | user | boolDev | intDev | longDev | longlongDev | floatDev | doubleDev | boolShmem | intShmem
  | longShmem | longlongShmem | floatShmem | doubleShmem | boolDist | intDist | longDist
  | longlongDist | floatDist | doubleDist | sync | rc | nothing
deriving DecidableEq, Repr

inductive ScalarType where
  | simple (type : SimpleType)
  | symbol (ns name : String)
  | user (udt : Nat)
deriving DecidableEq, Repr

/-- The part of the repository of user-defined types that says which of them are
aliases. An alias can only be added for a type that is there already. -/
structure UserTypes where
  aliasOf : Nat → Option Nat
  earlier : ∀ udt next, aliasOf udt = some next → next < udt

def unAliasedFuel (users : UserTypes) : Nat → Nat → Nat
  | 0, udt => udt
  | fuel + 1, udt =>
      match users.aliasOf udt with
      | some next => unAliasedFuel users fuel next
      | none => udt

/-- UTgetUnAliasedType: a chain of aliases from `udt` has at most `udt` links. -/
def getUnAliasedType (users : UserTypes) (udt : Nat) : Nat :=
  unAliasedFuel users udt udt

/-- No aliases among the user-defined types. -/
def noAliases : UserTypes := { aliasOf := fun _ => none, earlier := by simp }

/-- UTeq. -/
def utEq (users : UserTypes) (udt1 udt2 : Nat) : Bool :=
  getUnAliasedType users udt1 == getUnAliasedType users udt2

/-- TYcmpTypes( s1, s2) == TY_eq for two scalar types; they are disjoint otherwise. -/
def eqScalar (users : UserTypes) : ScalarType → ScalarType → Bool
  | .simple type1, .simple type2 => type1 == type2
  | .symbol ns1 name1, .symbol ns2 name2 => ns1 == ns2 && name1 == name2
  | .user udt1, .user udt2 => utEq users udt1 udt2
  | _, _ => false

/-- The scalar type int. -/
def intScalar : ScalarType := .simple .int

/-- A constant of the compiler: its shape and its elements in row-major order. -/
structure Constant (Val : Type) where
  shape : List Nat
  elems : List Val
  filled : elems.length = shape.prod

/-- COcompareConstants: the types of the elements are not compared, for the first
of its tests compares the type of the first constant with itself. -/
def compareConstants {Val : Type} [BEq Val] (const1 const2 : Constant Val) : Bool :=
  const1.shape == const2.shape && (List.zipWith (· == ·) const1.elems const2.elems).all id

/-- The array types. TYmakeAKD refuses to make an AKD type without dots. -/
inductive ArrayType (Val : Type) where
  | akv (base : ScalarType) (const : Constant Val)
  | aks (base : ScalarType) (shape : List Nat)
  | akd (base : ScalarType) (dots : Nat) (shape : List Nat) (some : dots ≠ 0)
  | audgz (base : ScalarType)
  | aud (base : ScalarType)

/-- TYgetScalar. -/
def ArrayType.getScalar {Val : Type} : ArrayType Val → ScalarType
  | .akv base _ | .aks base _ | .akd base _ _ _ | .audgz base | .aud base => base

/-- TYgetDim, for the types it applies to. -/
def ArrayType.getDim {Val : Type} : ArrayType Val → Option Nat
  | .akv _ const => some const.shape.length
  | .aks _ shape => some shape.length
  | .akd _ dots shape _ => some (shape.length + dots)
  | .audgz _ => none
  | .aud _ => none

/-- TYgetShape, for the types it applies to. -/
def ArrayType.getShape {Val : Type} : ArrayType Val → Option (List Nat)
  | .akv _ const => some const.shape
  | .aks _ shape => some shape
  | .akd _ _ _ _ => none
  | .audgz _ => none
  | .aud _ => none

/-- The results of a comparison, `ct_res`. -/
inductive CtRes where
  | eq
  | lt
  | gt
  | hcs
  | dis
deriving DecidableEq, Repr

/-- The cases of TYcmpTypes for two array types, once their scalar types have
been found to be equal. -/
def cmpSameBase {Val : Type} [BEq Val] : ArrayType Val → ArrayType Val → CtRes
  | .akv _ const1, .akv _ const2 => if compareConstants const1 const2 then .eq else .hcs
  | .akv _ const1, .aks _ shape2 => if const1.shape = shape2 then .lt else .hcs
  | .akv _ const1, .akd _ dots2 shape2 _ =>
      if const1.shape.length = shape2.length + dots2 then .lt else .hcs
  | .akv _ const1, .audgz _ => if 0 < const1.shape.length then .lt else .hcs
  | .akv _ _, .aud _ => .lt
  | .aks _ shape1, .akv _ const2 => if shape1 = const2.shape then .gt else .hcs
  | .aks _ shape1, .aks _ shape2 => if shape1 = shape2 then .eq else .hcs
  | .aks _ shape1, .akd _ dots2 shape2 _ =>
      if shape1.length = shape2.length + dots2 then .lt else .hcs
  | .aks _ shape1, .audgz _ => if 0 < shape1.length then .lt else .hcs
  | .aks _ _, .aud _ => .lt
  | .akd _ dots1 shape1 _, .akv _ const2 =>
      if shape1.length + dots1 = const2.shape.length then .gt else .hcs
  | .akd _ dots1 shape1 _, .aks _ shape2 =>
      if shape1.length + dots1 = shape2.length then .gt else .hcs
  | .akd _ dots1 shape1 _, .akd _ dots2 shape2 _ =>
      if shape1.length + dots1 = shape2.length + dots2 then .eq else .hcs
  | .akd _ dots1 shape1 _, .audgz _ => if 0 < shape1.length + dots1 then .lt else .hcs
  | .akd _ _ _ _, .aud _ => .lt
  | .audgz _, .akv _ const2 => if 0 < const2.shape.length then .gt else .hcs
  | .audgz _, .aks _ shape2 => if 0 < shape2.length then .gt else .hcs
  | .audgz _, .akd _ dots2 shape2 _ => if 0 < shape2.length + dots2 then .gt else .hcs
  | .audgz _, .audgz _ => .eq
  | .audgz _, .aud _ => .lt
  | .aud _, .akv _ _ => .gt
  | .aud _, .aks _ _ => .gt
  | .aud _, .akd _ _ _ _ => .gt
  | .aud _, .audgz _ => .gt
  | .aud _, .aud _ => .eq

/-- TYcmpTypes on array types. Each of its cases first compares the scalar types
and leaves the result TY_dis if they differ. -/
def cmpTypes {Val : Type} [BEq Val] (users : UserTypes) (t1 t2 : ArrayType Val) : CtRes :=
  if eqScalar users t1.getScalar t2.getScalar then cmpSameBase t1 t2 else .dis

/-- TYeqTypes. -/
def eqTypes {Val : Type} [BEq Val] (users : UserTypes) (t1 t2 : ArrayType Val) : Bool :=
  cmpTypes users t1 t2 == .eq

/-- TYleTypes. -/
def leTypes {Val : Type} [BEq Val] (users : UserTypes) (t1 t2 : ArrayType Val) : Bool :=
  cmpTypes users t1 t2 == .eq || cmpTypes users t1 t2 == .lt

/-- TYeliminateAKV. -/
def eliminateAkv {Val : Type} : ArrayType Val → ArrayType Val
  | .akv base const => .aks base const.shape
  | other => other

theorem eq_scalar_symm (users : UserTypes) (s1 s2 : ScalarType) :
    eqScalar users s1 s2 = eqScalar users s2 s1 := by
  cases s1 <;> cases s2 <;> simp only [eqScalar, utEq, BEq.comm]

theorem eq_scalar_trans (users : UserTypes) {s1 s2 s3 : ScalarType}
    (first : eqScalar users s1 s2 = true) (second : eqScalar users s2 s3 = true) :
    eqScalar users s1 s3 = true := by
  cases s1 <;> cases s2 <;> cases s3 <;> simp_all [eqScalar, utEq]

section Comparison
variable {Val : Type} [BEq Val]

/-- Element-wise comparison of two lists of the same length. -/
theorem all_equal_iff (left right : List Val) (same : left.length = right.length) :
    (List.zipWith (· == ·) left right).all id = true ↔
      List.Forall₂ (fun a b => (a == b) = true) left right := by
  induction left generalizing right with
  | nil =>
      cases right with
      | nil => simp
      | cons _ _ => simp at same
  | cons head tail ih =>
      cases right with
      | nil => simp at same
      | cons other rest =>
          simp only [List.length_cons, Nat.add_right_cancel_iff] at same
          simp [← ih rest same]

theorem compare_constants_iff (const1 const2 : Constant Val) :
    compareConstants const1 const2 = true ↔ const1.shape = const2.shape ∧
      List.Forall₂ (fun a b => (a == b) = true) const1.elems const2.elems := by
  simp only [compareConstants, Bool.and_eq_true, beq_iff_eq]
  refine and_congr_right fun same => all_equal_iff _ _ ?_
  rw [const1.filled, const2.filled, same]

theorem compare_constants_symm [PartialEquivBEq Val] {const1 const2 : Constant Val}
    (same : compareConstants const1 const2 = true) : compareConstants const2 const1 = true := by
  rw [compare_constants_iff] at same ⊢
  exact ⟨same.1.symm, same.2.flip.imp fun _ _ equal => BEq.symm equal⟩

theorem compare_constants_trans [PartialEquivBEq Val] {const1 const2 const3 : Constant Val}
    (first : compareConstants const1 const2 = true)
    (second : compareConstants const2 const3 = true) :
    compareConstants const1 const3 = true := by
  rw [compare_constants_iff] at first second ⊢
  refine ⟨first.1.trans second.1, ?_⟩
  have trans : ∀ {left middle right : List Val},
      List.Forall₂ (fun a b => (a == b) = true) left middle →
      List.Forall₂ (fun a b => (a == b) = true) middle right →
      List.Forall₂ (fun a b => (a == b) = true) left right := by
    intro left middle right head tail
    induction head generalizing right with
    | nil => exact tail
    | cons equal _ ih =>
        cases tail with
        | cons next rest => exact List.Forall₂.cons (BEq.trans equal next) (ih rest)
  exact trans first.2 second.2

/-- A comparison the other way round. -/
def CtRes.flip : CtRes → CtRes
  | .eq => .eq
  | .lt => .gt
  | .gt => .lt
  | .hcs => .hcs
  | .dis => .dis

theorem cmp_same_base_flip [PartialEquivBEq Val] (t1 t2 : ArrayType Val) :
    cmpSameBase t2 t1 = (cmpSameBase t1 t2).flip := by
  have constants : ∀ const1 const2 : Constant Val,
      compareConstants const2 const1 = compareConstants const1 const2 := by
    intro const1 const2
    rw [Bool.eq_iff_iff]
    exact ⟨compare_constants_symm, compare_constants_symm⟩
  cases t1 <;> cases t2 <;> simp only [cmpSameBase, CtRes.flip, eq_comm, constants] <;>
    split_ifs <;> rfl

theorem cmp_types_flip [PartialEquivBEq Val] (users : UserTypes) (t1 t2 : ArrayType Val) :
    cmpTypes users t2 t1 = (cmpTypes users t1 t2).flip := by
  unfold cmpTypes
  rw [eq_scalar_symm users t2.getScalar t1.getScalar, cmp_same_base_flip t1 t2]
  split_ifs <;> rfl

/-- What a type asks of its subtypes, apart from the scalar type. -/
def Admits (super : ArrayType Val) (sub : ArrayType Val) : Prop :=
  match super with
  | .akv _ const2 => ∃ base const1, sub = .akv base const1 ∧ compareConstants const1 const2 = true
  | .aks _ shape2 => sub.getShape = some shape2
  | .akd _ dots2 shape2 _ => sub.getDim = some (shape2.length + dots2)
  | .audgz _ => (∃ dim, sub.getDim = some dim ∧ 0 < dim) ∨ ∃ base, sub = .audgz base
  | .aud _ => True

theorem admits_iff (t1 t2 : ArrayType Val) :
    Admits t2 t1 ↔ cmpSameBase t1 t2 = .eq ∨ cmpSameBase t1 t2 = .lt := by
  cases t2 <;> cases t1 <;>
    simp [Admits, cmpSameBase, ArrayType.getShape, ArrayType.getDim] <;> split_ifs <;>
    simp_all [List.length_pos_iff]

theorem le_types_iff (users : UserTypes) (t1 t2 : ArrayType Val) :
    leTypes users t1 t2 = true ↔
      eqScalar users t1.getScalar t2.getScalar = true ∧ Admits t2 t1 := by
  rw [admits_iff]
  unfold leTypes cmpTypes
  split_ifs with same <;> simp [same]

theorem admits_dim {t1 t2 : ArrayType Val} (below : Admits t2 t1) {dim : Nat}
    (known : t2.getDim = some dim) : t1.getDim = some dim := by
  cases t2 with
  | akv base const2 =>
      obtain ⟨_, const1, same, equal⟩ := below
      subst same
      rw [compare_constants_iff] at equal
      simpa [ArrayType.getDim, equal.1] using known
  | aks base shape2 =>
      cases t1 <;> simp_all [Admits, ArrayType.getDim, ArrayType.getShape]
  | akd base dots2 shape2 some => simpa [Admits, ArrayType.getDim, ← known] using below
  | audgz base => simp [ArrayType.getDim] at known
  | aud base => simp [ArrayType.getDim] at known

theorem admits_shape {t1 t2 : ArrayType Val} (below : Admits t2 t1) {shape : List Nat}
    (known : t2.getShape = some shape) : t1.getShape = some shape := by
  cases t2 with
  | akv base const2 =>
      obtain ⟨_, const1, same, equal⟩ := below
      subst same
      rw [compare_constants_iff] at equal
      simpa [ArrayType.getShape, equal.1] using known
  | aks base shape2 => simpa [Admits, ArrayType.getShape, ← known] using below
  | akd base dots2 shape2 some => simp [ArrayType.getShape] at known
  | audgz base => simp [ArrayType.getShape] at known
  | aud base => simp [ArrayType.getShape] at known

theorem admits_trans [PartialEquivBEq Val] {t1 t2 t3 : ArrayType Val} (first : Admits t2 t1)
    (second : Admits t3 t2) : Admits t3 t1 := by
  cases t3 with
  | akv base const3 =>
      obtain ⟨_, const2, same, equal⟩ := second
      subst same
      obtain ⟨base1, const1, same, equal1⟩ := first
      exact ⟨base1, const1, same, compare_constants_trans equal1 equal⟩
  | aks base shape3 => exact admits_shape first second
  | akd base dots3 shape3 some => exact admits_dim first second
  | audgz base =>
      rcases second with ⟨dim, known, positive⟩ | ⟨_, same⟩
      · exact Or.inl ⟨dim, admits_dim first known, positive⟩
      · subst same
        exact first
  | aud base => trivial

theorem le_types_trans [PartialEquivBEq Val] (users : UserTypes) {t1 t2 t3 : ArrayType Val}
    (first : leTypes users t1 t2 = true) (second : leTypes users t2 t3 = true) :
    leTypes users t1 t3 = true := by
  rw [le_types_iff] at first second ⊢
  exact ⟨eq_scalar_trans users first.1 second.1, admits_trans first.2 second.2⟩

end Comparison

end Sac2c.NewTypes
