import Mathlib.Algebra.Group.Nat.Defs
import Mathlib.Data.Int.Basic
import Mathlib.Data.Bool.Basic
import Mathlib.Tactic.Common

/-!
Integer and boolean values, scalars and arrays of one shape, under the
associative and commutative primitive functions. A scalar next to an array is
combined with each of its elements.
-/

namespace Sac2c.ArrayValues

/-- The integer types: byte to longlong, with and without a sign. -/
structure IntKind where
  signed : Bool
  bits : Nat
  deriving DecidableEq

namespace IntKind

variable (kind : IntKind)

def wrap (v : Int) : Int :=
  if kind.signed then v.bmod (2 ^ kind.bits) else v % (2 ^ kind.bits : Nat)

theorem wrap_add_wrap (v w : Int) : kind.wrap (kind.wrap v + w) = kind.wrap (v + w) := by
  unfold wrap
  split
  · exact Int.bmod_add_bmod
  · exact Int.emod_add_emod ..

theorem wrap_mul_wrap (v w : Int) : kind.wrap (kind.wrap v * w) = kind.wrap (v * w) := by
  unfold wrap
  split
  · exact Int.bmod_mul_bmod
  · rw [Int.mul_emod, Int.emod_emod, ← Int.mul_emod]

end IntKind

/-- `err` is the value of a primitive function at types it is not defined for. -/
inductive Elem where
  | num (kind : IntKind) (v : Int)
  | bool (b : Bool)
  | err

inductive Op where
  | add | mul | max | min | and | or
  deriving DecidableEq

namespace Op

def nums (kind : IntKind) (v w : Int) : Op → Elem
  | add => .num kind (kind.wrap (v + w))
  | mul => .num kind (kind.wrap (v * w))
  | max => .num kind (Max.max v w)
  | min => .num kind (Min.min v w)
  | and | or => .err

def bools (b c : Bool) : Op → Elem
  | and => .bool (b && c)
  | or => .bool (b || c)
  | add | mul | max | min => .err

def elems (op : Op) : Elem → Elem → Elem
  | .num kind v, .num kind' w => if kind = kind' then op.nums kind v w else .err
  | .bool b, .bool c => op.bools b c
  | _, _ => .err

variable (op : Op)

@[simp]
theorem elems_err_left (e : Elem) : op.elems .err e = .err := rfl

@[simp]
theorem elems_err_right (e : Elem) : op.elems e .err = .err := by
  cases e <;> rfl

theorem nums_comm (kind : IntKind) (v w : Int) : op.nums kind v w = op.nums kind w v := by
  cases op with
  | add => rw [nums, nums, Int.add_comm]
  | mul => rw [nums, nums, Int.mul_comm]
  | max => rw [nums, nums, Int.max_comm]
  | min => rw [nums, nums, Int.min_comm]
  | and | or => rfl

theorem nums_assoc (kind : IntKind) (u v w : Int) :
    op.elems (op.nums kind u v) (.num kind w) = op.elems (.num kind u) (op.nums kind v w) := by
  cases op with
  | add =>
      simp only [nums, elems, ↓reduceIte, kind.wrap_add_wrap, Int.add_comm u, Int.add_assoc]
  | mul =>
      simp only [nums, elems, ↓reduceIte, kind.wrap_mul_wrap, Int.mul_comm u, Int.mul_assoc]
  | max => simp only [nums, elems, ↓reduceIte, Int.max_assoc]
  | min => simp only [nums, elems, ↓reduceIte, Int.min_assoc]
  | and | or => rfl

theorem elems_comm (e f : Elem) : op.elems e f = op.elems f e := by
  cases e with
  | num kind v =>
      cases f with
      | num kind' w =>
          by_cases same : kind = kind'
          · subst same
            simp only [elems, ↓reduceIte, op.nums_comm kind v w]
          · rw [elems, elems, if_neg same, if_neg (Ne.symm same)]
      | bool _ | err => rfl
  | bool b =>
      cases f with
      | bool c => cases op <;> simp only [elems, bools, Bool.and_comm b, Bool.or_comm b]
      | num _ _ | err => rfl
  | err => rw [elems_err_left, elems_err_right]

theorem elems_same (kind : IntKind) (v w : Int) :
    op.elems (.num kind v) (.num kind w) = op.nums kind v w := if_pos rfl

section Apart

variable {kind kind' : IntKind} (apart : kind ≠ kind') (u v w : Int)
include apart

theorem elems_apart : op.elems (.num kind v) (.num kind' w) = .err := if_neg apart

theorem elems_nums_apart : op.elems (op.nums kind u v) (.num kind' w) = .err := by
  cases op <;> first | exact if_neg apart | rfl

theorem elems_apart_nums : op.elems (.num kind u) (op.nums kind' v w) = .err := by
  cases op <;> first | exact if_neg apart | rfl

end Apart

theorem elems_nums_bool (kind : IntKind) (v w : Int) (b : Bool) :
    op.elems (op.nums kind v w) (.bool b) = .err := by
  cases op <;> rfl

theorem elems_num_bools (kind : IntKind) (v : Int) (b c : Bool) :
    op.elems (.num kind v) (op.bools b c) = .err := by
  cases op <;> rfl

theorem bools_assoc (b c d : Bool) :
    op.elems (op.bools b c) (.bool d) = op.elems (.bool b) (op.bools c d) := by
  cases op with
  | and => simp only [bools, elems, Bool.and_assoc]
  | or => simp only [bools, elems, Bool.or_assoc]
  | add | mul | max | min => rfl

theorem elems_assoc (e f g : Elem) : op.elems (op.elems e f) g = op.elems e (op.elems f g) := by
  cases e with
  | err => rw [elems_err_left, elems_err_left, elems_err_left]
  | num kind u =>
      cases f with
      | err => rw [elems_err_right, elems_err_left, elems_err_right]
      | bool c => cases g with
          | bool d => exact (op.elems_num_bools kind u c d).symm
          | num _ _ | err => rfl
      | num kind' v =>
          cases g with
          | err => rw [elems_err_right, elems_err_right, elems_err_right]
          | bool d =>
              by_cases same : kind = kind'
              · subst same
                rw [elems_same, elems_nums_bool]
                rfl
              · rw [op.elems_apart same]
                rfl
          | num kind'' w =>
              by_cases first : kind = kind' <;> by_cases second : kind' = kind''
              · subst first second
                rw [elems_same, elems_same, nums_assoc]
              · subst first
                rw [elems_same, op.elems_apart second, op.elems_nums_apart second, elems_err_right]
              · subst second
                rw [elems_same, op.elems_apart first, op.elems_apart_nums first, elems_err_left]
              · rw [op.elems_apart first, op.elems_apart second, elems_err_left, elems_err_right]
  | bool b =>
      cases f with
      | err => rw [elems_err_right, elems_err_left, elems_err_right]
      | num kind v =>
          cases g with
          | num kind' w =>
              rw [op.elems_comm (.bool b)]
              by_cases same : kind = kind'
              · subst same
                rw [elems_same, op.elems_comm, op.elems_comm (.bool b), elems_nums_bool]
                rfl
              · rw [op.elems_apart same]
                rfl
          | bool _ | err => rfl
      | bool c =>
          cases g with
          | err => rw [elems_err_right, elems_err_right, elems_err_right]
          | num kind w => exact (op.elems_comm ..).trans (op.elems_num_bools kind w b c)
          | bool d => exact op.bools_assoc b c d

end Op

/-- A scalar, or an array over the index vectors `Index`. -/
inductive Value (Index : Type) where
  | scl (e : Elem)
  | arr (es : Index → Elem)

variable {Index : Type}

def Value.isScl : Value Index → Bool
  | scl _ => true
  | arr _ => false

def Value.map (f : Elem → Elem) : Value Index → Value Index
  | scl e => scl (f e)
  | arr es => arr fun i => f (es i)

def Op.values (op : Op) : Value Index → Value Index → Value Index
  | .scl e, .scl f => .scl (op.elems e f)
  | .scl e, .arr fs => .arr fun i => op.elems e (fs i)
  | .arr es, .scl f => .arr fun i => op.elems (es i) f
  | .arr es, .arr fs => .arr fun i => op.elems (es i) (fs i)

@[simp]
theorem Op.values_isScl (op : Op) (v w : Value Index) :
    (op.values v w).isScl = (v.isScl && w.isScl) := by
  cases v <;> cases w <;> rfl

section Laws

variable (op : Op) (u v w : Value Index)

theorem Op.values_comm : op.values v w = op.values w v := by
  cases v <;> cases w <;> simp only [Op.values, op.elems_comm]

theorem Op.values_assoc : op.values (op.values u v) w = op.values u (op.values v w) := by
  cases u <;> cases v <;> cases w <;> simp only [Op.values, op.elems_assoc]

instance : Std.Commutative (@Op.values Index op) := ⟨op.values_comm⟩

instance : Std.Associative (@Op.values Index op) := ⟨op.values_assoc⟩

end Laws

end Sac2c.ArrayValues
