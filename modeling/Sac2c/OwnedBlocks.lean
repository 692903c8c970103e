import Mathlib.Data.List.Basic

/-!
Memory that has one owner. A pointer is null, or it points to a block that it owns, or
the block has been released. An access that is not defined gives none. A reallocation
releases the old block whether or not the new one is at the same place, so that the
pointer to the old block can be used no more.
-/

namespace Sac2c.OwnedBlocks

variable {α : Type}

inductive Pointer (α : Type) where
  | null
  | live (cells : List α)
  | dead
  deriving DecidableEq, Repr

namespace Pointer

/-- A block of a size, with the contents that it happens to have. -/
def malloc (garbage : Nat → α) (size : Nat) : Pointer α := live ((List.range size).map garbage)

/-- The new pointer, and what becomes of the old one. -/
def realloc (garbage : Nat → α) (size : Nat) : Pointer α → Option (Pointer α × Pointer α)
  | null => some (malloc garbage size, null)
  | live cells =>
      some (live (cells.take size ++ ((List.range size).drop cells.length).map garbage), dead)
  | dead => none

/-- What becomes of a pointer that is released. -/
def free : Pointer α → Option (Pointer α)
  | null => some null
  | live _ => some dead
  | dead => none

def load (pointer : Pointer α) (i : Nat) : Option α :=
  match pointer with
  | live cells => cells[i]?
  | _ => none

def store (pointer : Pointer α) (i : Nat) (x : α) : Option (Pointer α) :=
  match pointer with
  | live cells => if i < cells.length then some (live (cells.set i x)) else none
  | _ => none

/-- A pointer to a block cannot be released after it has been reallocated. -/
theorem freed_after_realloc (garbage : Nat → α) (size : Nat) {pointer : Pointer α}
    (owned : pointer ≠ null) :
    ((pointer.realloc garbage size).bind fun moved => moved.2.free.map fun _ => moved.1) = none := by
  cases pointer with
  | null => exact absurd rfl owned
  | live cells => rfl
  | dead => rfl

theorem load_stored {pointer after : Pointer α} {i : Nat} {x : α}
    (stored : pointer.store i x = some after) : after.load i = some x := by
  cases pointer with
  | null => cases stored
  | live cells =>
      rw [store] at stored
      split at stored
      next inside =>
          cases stored
          rw [load, List.getElem?_set_self inside]
      next => cases stored
  | dead => cases stored

theorem stored_owned {pointer after : Pointer α} {i : Nat} {x : α}
    (stored : pointer.store i x = some after) : after ≠ null := by
  rintro rfl
  cases load_stored stored

theorem load_stored_other {pointer after : Pointer α} {i j : Nat} {x : α} (other : i ≠ j)
    (stored : pointer.store j x = some after) : after.load i = pointer.load i := by
  cases pointer with
  | null => cases stored
  | live cells =>
      rw [store] at stored
      split at stored
      next =>
          cases stored
          exact List.getElem?_set_ne other.symm
      next => cases stored
  | dead => cases stored

end Pointer

/-- What a pointer holds that nothing has been assigned to. It owns no block. -/
structure Unassigned (α : Type) where
  pointer : Pointer α
  owns_nothing : ∀ cells, pointer ≠ .live cells

theorem unassigned_load (p : Unassigned α) (i : Nat) : p.pointer.load i = none := by
  cases held : p.pointer with
  | null => rfl
  | live cells => exact absurd held (p.owns_nothing cells)
  | dead => rfl

section Loops

variable {σ β : Type} {body : σ → β → Option σ}

/-- A loop that is undefined in one of its rounds is undefined, if the rounds before keep
what that needs. -/
theorem loop_stuck {P : σ → Prop} {l : List β} {s : σ} (holds : P s)
    (kept : ∀ x ∈ l, ∀ s s', P s → body s x = some s' → P s') {x : β} (member : x ∈ l)
    (stuck : ∀ s, P s → body s x = none) : l.foldlM body s = none := by
  induction l generalizing s with
  | nil => cases member
  | cons y rest ih =>
      rw [List.foldlM_cons]
      cases first : body s y with
      | none => rfl
      | some s' =>
          rcases List.mem_cons.mp member with rfl | member
          · rw [stuck s holds] at first
            cases first
          · exact ih (kept y List.mem_cons_self s s' holds first)
              (fun x later => kept x (List.mem_cons_of_mem y later)) member

theorem loop_keeps {P : σ → Prop} {l : List β} {s s' : σ} (holds : P s)
    (kept : ∀ x ∈ l, ∀ s s', P s → body s x = some s' → P s')
    (ran : l.foldlM body s = some s') : P s' := by
  induction l generalizing s with
  | nil =>
      cases ran
      exact holds
  | cons y rest ih =>
      rw [List.foldlM_cons] at ran
      cases first : body s y with
      | none => simp [first] at ran
      | some middle =>
          rw [first] at ran
          exact ih (kept y List.mem_cons_self s middle holds first)
            (fun x later => kept x (List.mem_cons_of_mem y later)) ran

end Loops

end Sac2c.OwnedBlocks
