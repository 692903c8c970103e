import Mathlib.Data.List.Perm.Basic
import Mathlib.Tactic.Common

/-!
The total of a list under an associative and commutative operation that need
not have a neutral element: it does not depend on the order of the list, nor on
how the list is put together from parts.
-/

namespace Sac2c.Totals

variable {α : Type} (op : α → α → α)

/-- The empty list has none. -/
def total : List α → Option α
  | [] => none
  | v :: vs => some (vs.foldl op v)

/-- The total in place of the elements. -/
def merged (vs : List α) : List α := (total op vs).toList

@[simp]
theorem total_nil : total op [] = none := rfl

@[simp]
theorem total_singleton (v : α) : total op [v] = some v := rfl

@[simp]
theorem total_merged (vs : List α) : total op (merged op vs) = total op vs := by
  cases vs <;> rfl

theorem merged_cons (v : α) (vs : List α) : merged op (v :: vs) = [vs.foldl op v] := rfl

theorem merged_nonempty {vs : List α} (nonempty : vs ≠ []) : ∃ v, merged op vs = [v] := by
  cases vs with
  | nil => exact absurd rfl nonempty
  | cons v vs => exact ⟨_, merged_cons op v vs⟩

variable [Std.Associative op]

theorem foldl_op (v w : α) (vs : List α) : vs.foldl op (op v w) = op v (vs.foldl op w) := by
  induction vs generalizing w with
  | nil => rfl
  | cons u vs ih =>
      have regroup : op (op v w) u = op v (op w u) := Std.Associative.assoc v w u
      rw [List.foldl_cons, List.foldl_cons, regroup, ih]

theorem total_cons (v : α) (vs : List α) :
    total op (v :: vs) = Option.merge op (some v) (total op vs) := by
  cases vs with
  | nil => rfl
  | cons w vs => exact congrArg some (foldl_op op v w vs)

theorem total_append (vs ws : List α) :
    total op (vs ++ ws) = Option.merge op (total op vs) (total op ws) := by
  induction vs with
  | nil => cases h : total op ws <;> simp [h, Option.merge]
  | cons v vs ih =>
      rw [List.cons_append, total_cons, ih, total_cons]
      exact (Std.Associative.assoc ..).symm

/-- Parts of a list may be replaced by lists of the same totals. -/
theorem total_append_congr {vs vs' ws ws' : List α} (first : total op vs = total op vs')
    (second : total op ws = total op ws') : total op (vs ++ ws) = total op (vs' ++ ws') := by
  rw [total_append, total_append, first, second]

theorem total_flatten (parts : List (List α)) :
    total op (parts.flatMap (merged op)) = total op parts.flatten := by
  induction parts with
  | nil => rfl
  | cons part parts ih =>
      rw [List.flatMap_cons, List.flatten_cons]
      exact total_append_congr op (total_merged op part) ih

variable [Std.Commutative op]

theorem total_perm {vs ws : List α} (perm : vs.Perm ws) : total op vs = total op ws := by
  induction perm with
  | nil => rfl
  | cons v _ ih => rw [total_cons, total_cons, ih]
  | swap v w vs =>
      rw [total_cons, total_cons, total_cons, total_cons]
      have swapped : Option.merge op (some w) (some v) = Option.merge op (some v) (some w) :=
        Std.Commutative.comm ..
      have regroup (u t : α) : Option.merge op (some u) (Option.merge op (some t) (total op vs)) =
          Option.merge op (Option.merge op (some u) (some t)) (total op vs) :=
        (Std.Associative.assoc ..).symm
      rw [regroup, regroup, swapped]
  | trans _ _ first second => exact first.trans second

end Sac2c.Totals
