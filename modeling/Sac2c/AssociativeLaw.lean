import Sac2c.ArrayValues

/-!
Straight-line blocks are rewritten by the laws of associativity and
commutativity: the operands of nested applications of one primitive function
are collected, and constants, inverses and invariants come together
(stdopt/associative_law.c).
-/

namespace Sac2c.AssociativeLaw

open ArrayValues

variable {Index : Type}

abbrev Avis := Nat

/-- Which arguments are scalars. -/
inductive Variant where
  | SxS | SxV | VxS | VxV
  deriving DecidableEq

namespace Variant

def scl1 : Variant → Bool
  | SxS | SxV => true
  | VxS | VxV => false

def scl2 : Variant → Bool
  | SxS | VxS => true
  | SxV | VxV => false

/-- The variant for arguments that are scalars or not. -/
def ofScl : Bool → Bool → Variant
  | true, true => SxS
  | true, false => SxV
  | false, true => VxS
  | false, false => VxV

theorem ofScl_iff {variant : Variant} {s1 s2 : Bool} :
    variant = ofScl s1 s2 ↔ variant.scl1 = s1 ∧ variant.scl2 = s2 := by
  cases variant <;> cases s1 <;> cases s2 <;> decide

theorem ofScl_inj {s1 s2 t1 t2 : Bool} : ofScl s1 s2 = ofScl t1 t2 ↔ s1 = t1 ∧ s2 = t2 := by
  cases s1 <;> cases s2 <;> cases t1 <;> cases t2 <;> decide

end Variant

/-- `F_add_SxS` to `F_or_VxV`. -/
structure Prf where
  op : Op
  variant : Variant
  deriving DecidableEq

/-- The inverses. -/
inductive InvPrf where
  | neg_S | neg_V | reciproc_S | reciproc_V
  deriving DecidableEq

inductive Rhs (Index : Type) where
  | const (v : Value Index)
  | id (avis : Avis)
  | prf (prf : Prf) (arg1 arg2 : Avis)
  | inv (prf : InvPrf) (arg : Avis)

/-- `lhs = rhs`. -/
structure Assign (Index : Type) where
  lhs : Avis
  rhs : Rhs Index

section Meaning

abbrev Env (Index : Type) := Avis → Value Index

/-- A reciprocal is no integer. -/
def InvPrf.elem : InvPrf → Elem → Elem
  | neg_S, .num kind v | neg_V, .num kind v => .num kind (kind.wrap (-v))
  | _, _ => .err

def Rhs.eval (env : Env Index) : Rhs Index → Value Index
  | const v => v
  | id avis => env avis
  | prf fn arg1 arg2 => fn.op.values (env arg1) (env arg2)
  | inv fn arg => (env arg).map fn.elem

def Assign.exec (assign : Assign Index) (env : Env Index) : Env Index :=
  Function.update env assign.lhs (assign.rhs.eval env)

def exec (assigns : List (Assign Index)) (env : Env Index) : Env Index :=
  assigns.foldl (fun env assign => assign.exec env) env

def InvPrf.scl : InvPrf → Bool
  | neg_S | reciproc_S => true
  | neg_V | reciproc_V => false

/-- The variant is the one for the ranks of the arguments. -/
def Rhs.Fits (env : Env Index) : Rhs Index → Prop
  | prf fn arg1 arg2 => fn.variant = .ofScl (env arg1).isScl (env arg2).isScl
  | inv fn arg => fn.scl = (env arg).isScl
  | const _ | id _ => True

/-- Each primitive function fits when it is applied. -/
def Fits : List (Assign Index) → Env Index → Prop
  | [], _ => True
  | assign :: assigns, env => assign.rhs.Fits env ∧ Fits assigns (assign.exec env)

def Rhs.args : Rhs Index → List Avis
  | const _ => []
  | id avis | inv _ avis => [avis]
  | prf _ arg1 arg2 => [arg1, arg2]

/-- Identifiers are assigned once, and before they are used. -/
def SSA : List (Assign Index) → Prop
  | [] => True
  | assign :: assigns => assign.lhs ∉ assign.rhs.args ∧
      (∀ later ∈ assigns, later.lhs ≠ assign.lhs ∧ later.lhs ∉ assign.rhs.args) ∧ SSA assigns

/-- Only identifiers up to `tmpVar` occur. -/
def Below (tmpVar : Avis) (assigns : List (Assign Index)) : Prop :=
  ∀ assign ∈ assigns, assign.lhs < tmpVar ∧ ∀ arg ∈ assign.rhs.args, arg < tmpVar

end Meaning

/-- `TYisAKV`, `TYisAKS` with its dimension, and less. -/
inductive NType where
  | AKV
  | AKS (dim : Nat)
  | AKD
  | AUD
  deriving DecidableEq

/-- What the traversal knows of the block it is in. -/
structure Info where
  type : Avis → NType
  isLoopInvariant : Avis → Bool
  isWithLoopBody : Bool
  isLoopBody : Bool

/-- An N_id in an operand list. -/
structure Operand where
  avis : Avis
  isSclPrf : Bool

namespace Prf

def isPrfAdd (prf : Prf) : Bool := prf.op = .add

def isPrfMul (prf : Prf) : Bool := prf.op = .mul

def normalizePrf (prf : Prf) : Prf :=
  match prf.op with
  | .add => ⟨.add, .SxS⟩
  | .mul => ⟨.mul, .SxS⟩
  | _ => prf

def compatiblePrf (p1 p2 : Prf) : Bool := p1.normalizePrf = p2.normalizePrf

def getPrf (prf : Prf) (e1 e2 : Operand) : Prf :=
  match prf.op with
  | .add => ⟨.add, .ofScl e1.isSclPrf e2.isSclPrf⟩
  | .mul => ⟨.mul, .ofScl e1.isSclPrf e2.isSclPrf⟩
  | _ => prf

def isArg1Scl (prf : Prf) : Bool :=
  match prf.op with
  | .add | .mul => prf.variant.scl1
  | _ => false

def isArg2Scl (prf : Prf) : Bool :=
  match prf.op with
  | .add | .mul => prf.variant.scl2
  | _ => false

end Prf

section Operands

variable (info : Info)

def isConst (e : Operand) : Bool := info.type e.avis = .AKV

def isNonConstScalar (e : Operand) : Bool := info.type e.avis = .AKS 0

def isLoopInvariant (e : Operand) : Bool := info.isLoopInvariant e.avis

/-- `AVIS_ISDEFINEDINCURRENTBLOCK`. -/
abbrev Defined := Avis → Bool

def isNonLocal (defined : Defined) (e : Operand) : Bool := !defined e.avis

/-- The expressions `pred` holds of, and the others. -/
def TCfilterExprs (pred : Operand → Bool) (exprs : List Operand) : List Operand × List Operand :=
  (exprs.filter pred, exprs.filter (!pred ·))

/-- `scope` is what is assigned before, the latest first. -/
def collectExprs (prf : Prf) (defined : Defined) :
    List (Assign Index) → Avis → Bool → List Operand
  | [], a, sclprf => [⟨a, sclprf⟩]
  | assign :: scope, a, sclprf =>
      if assign.lhs = a then
        if defined a then
          match assign.rhs with
          | .id avis => collectExprs prf defined scope avis sclprf
          | .prf rhs arg1 arg2 =>
              if prf.compatiblePrf rhs then
                collectExprs prf defined scope arg1 rhs.isArg1Scl ++
                  collectExprs prf defined scope arg2 rhs.isArg2Scl
              else [⟨a, sclprf⟩]
          | _ => [⟨a, sclprf⟩]
        else [⟨a, sclprf⟩]
      else collectExprs prf defined scope a sclprf

end Operands

section Inverses

def AltPrf : InvPrf → InvPrf
  | .neg_S => .neg_V
  | .reciproc_S => .reciproc_V
  | prf => prf

/-- What the pattern matcher finds in flat mode: no definition is an identifier. -/
def skipVarDefs : List (Assign Index) → Avis → Option (Rhs Index)
  | [], _ => none
  | assign :: scope, a =>
      if assign.lhs = a then
        match assign.rhs with
        | .id avis => skipVarDefs scope avis
        | rhs => some rhs
      else skipVarDefs scope a

def getInverse (scope : List (Assign Index)) (prf : InvPrf) (e : Operand) : Option Avis :=
  match skipVarDefs scope e.avis with
  | some (.inv rhs arg) => if rhs = prf ∨ rhs = AltPrf prf then some arg else none
  | _ => none

def areInverses (scope : List (Assign Index)) (prf : InvPrf) (left right : Operand) : Bool :=
  some left.avis = getInverse scope prf right ∨ getInverse scope prf left = some right.avis

/-- The first inverse of `left`, and the list without it. -/
def extractInverse (scope : List (Assign Index)) (prf : InvPrf) (left : Operand) :
    List Operand → Option (Operand × List Operand)
  | [] => none
  | right :: exprs =>
      if areInverses scope prf left right then some (right, exprs)
      else (extractInverse scope prf left exprs).map fun found => (found.1, right :: found.2)

theorem extractInverse_perm {scope : List (Assign Index)} {prf : InvPrf} {left right : Operand}
    {exprs rest : List Operand}
    (found : extractInverse scope prf left exprs = some (right, rest)) :
    exprs.Perm (right :: rest) := by
  induction exprs generalizing rest with
  | nil => cases found
  | cons e exprs ih =>
      rw [extractInverse] at found
      split at found
      · cases found
        rfl
      · obtain ⟨⟨right', rest'⟩, inner, same⟩ := Option.map_eq_some_iff.mp found
        cases same
        exact ((ih inner).cons e).trans (.swap right' e rest')

/-- The pairs of inverses, the last pair found first, and the other operands. -/
def identifyInverses (scope : List (Assign Index)) (prf : InvPrf) (exprs : List Operand)
    (res : List (Operand × Operand)) : List (Operand × Operand) × List Operand :=
  match exprs with
  | [] => (res, [])
  | left :: exprs =>
      match _found : extractInverse scope prf left exprs with
      | some (right, rest) => identifyInverses scope prf rest ((left, right) :: res)
      | none =>
          let (res, head) := identifyInverses scope prf exprs res
          (res, left :: head)
termination_by exprs.length
decreasing_by
  · have shorter := (extractInverse_perm _found).length_eq
    simp only [List.length_cons] at shorter ⊢
    omega
  · simp

end Inverses

section Trees

/-- The next identifier, and the assignments made so far, the latest first. -/
structure Pre (Index : Type) where
  tmpVar : Avis
  preassign : List (Assign Index)

/-- Nothing is assigned before the statement yet. -/
def Pre.new (tmpVar : Avis) : Pre Index := ⟨tmpVar, []⟩

def combineExprs2Prf (prf : Prf) (expr1 expr2 : Operand) (pre : Pre Index) :
    Operand × Pre Index :=
  let avis := pre.tmpVar
  (⟨avis, expr1.isSclPrf && expr2.isSclPrf⟩,
    ⟨avis + 1, ⟨avis, .prf (prf.getPrf expr1 expr2) expr1.avis expr2.avis⟩ :: pre.preassign⟩)

/-- The first two expressions are combined as long as there are two. -/
def combineHead (prf : Prf) (e1 : Operand) : List Operand → Pre Index → Operand × Pre Index
  | [], pre => (e1, pre)
  | e2 :: exprs, pre =>
      let (e, pre) := combineExprs2Prf prf e1 e2 pre
      combineHead prf e exprs pre

def exprs2PrfTree (prf : Prf) (exprs : List Operand) (pre : Pre Index) :
    Option Operand × Pre Index :=
  match exprs with
  | [] => (none, pre)
  | e :: exprs =>
      let (e, pre) := combineHead prf e exprs pre
      (some e, pre)

def TCcombineExprs : Option Operand → List Operand → List Operand
  | some e, exprs => e :: exprs
  | none, exprs => exprs

/-- Each pair becomes an operand. -/
def combineInverses (prf : Prf) : List (Operand × Operand) → List Operand → Pre Index →
    List Operand × Pre Index
  | [], exprs, pre => (exprs, pre)
  | (left, right) :: inverses, exprs, pre =>
      let (inv_id, pre) := exprs2PrfTree prf [left, right] pre
      combineInverses prf inverses (TCcombineExprs inv_id exprs) pre

end Trees

def isSingletonOrEmpty (exprs : List Operand) : Bool := exprs.length ≤ 1

/-- The operand set, in the parts it is combined in. -/
structure Parts where
  scalars_inv : List (Operand × Operand)
  vectors_inv : List (Operand × Operand)
  externals : List Operand
  consts : List Operand
  scalars : List Operand
  vectors : List Operand

section Statements

variable (info : Info) (defined : Defined) (scope : List (Assign Index))

def inversesOf (prf : Prf) (exprs : List Operand) : List (Operand × Operand) × List Operand :=
  if isSingletonOrEmpty exprs then ([], exprs)
  else if prf.isPrfAdd then identifyInverses scope .neg_S exprs []
  else if prf.isPrfMul then identifyInverses scope .reciproc_S exprs []
  else ([], exprs)

/-- What is invariant in a with-loop or a loop goes together. -/
def filterExternals (exprs : List Operand) : List Operand × List Operand :=
  if info.isWithLoopBody then TCfilterExprs (isNonLocal defined) exprs
  else if info.isLoopBody then TCfilterExprs (isLoopInvariant info) exprs
  else ([], exprs)

def splitExprs (prf : Prf) (exprs : List Operand) : Parts :=
  let (consts, exprs) := TCfilterExprs (isConst info) exprs
  let (scalars, vectors) := TCfilterExprs (isNonConstScalar info) exprs
  let (scalars_inv, scalars) := inversesOf scope prf scalars
  let (vectors_inv, vectors) := inversesOf scope prf vectors
  let (scalars_ext, scalars) := filterExternals info defined scalars
  let (vectors_ext, vectors) := filterExternals info defined vectors
  ⟨scalars_inv, vectors_inv, scalars_ext ++ vectors_ext, consts, scalars, vectors⟩

/-- There is something to be gained. -/
def Parts.worthwhile (parts : Parts) : Bool :=
  !isSingletonOrEmpty parts.consts || !parts.scalars_inv.isEmpty ||
    !parts.vectors_inv.isEmpty || !isSingletonOrEmpty parts.externals

/-- Each list becomes an operand. -/
def combineLists (prf : Prf) (parts : Parts) (pre : Pre Index) : List Operand × Pre Index :=
  let (consts_id, pre) := exprs2PrfTree prf parts.consts pre
  let (scalars_id, pre) := exprs2PrfTree prf parts.scalars pre
  let (vectors_id, pre) := exprs2PrfTree prf parts.vectors pre
  let (externals_id, pre) := exprs2PrfTree prf parts.externals pre
  let exprs := TCcombineExprs vectors_id []
  let exprs := TCcombineExprs scalars_id exprs
  let exprs := TCcombineExprs consts_id exprs
  (TCcombineExprs externals_id exprs, pre)

def rebuild (prf : Prf) (parts : Parts) (pre : Pre Index) : Option Operand × Pre Index :=
  let (exprs, pre) := combineLists prf parts pre
  let (exprs, pre) := combineInverses prf parts.scalars_inv exprs pre
  let (exprs, pre) := combineInverses prf parts.vectors_inv exprs pre
  exprs2PrfTree prf exprs pre

def operands (prf : Prf) (arg1 arg2 : Avis) : List Operand :=
  collectExprs prf defined scope arg1 prf.isArg1Scl ++
    collectExprs prf defined scope arg2 prf.isArg2Scl

/-- Two operands stay as they are. -/
def rewrites (prf : Prf) (arg1 arg2 : Avis) : Bool :=
  let exprs := operands defined scope prf arg1 arg2
  3 ≤ exprs.length && (splitExprs info defined scope prf exprs).worthwhile

def ALprf (prf : Prf) (arg1 arg2 : Avis) (pre : Pre Index) : Rhs Index × Pre Index :=
  if rewrites info defined scope prf arg1 arg2 then
    let exprs := operands defined scope prf arg1 arg2
    match rebuild prf (splitExprs info defined scope prf exprs) pre with
    | (some e, pre) => (.id e.avis, pre)
    | (none, pre) => (.prf prf arg1 arg2, pre)
  else (.prf prf arg1 arg2, pre)

/-- The statement in transform mode, after what it needs. -/
def ALlet (assign : Assign Index) (tmpVar : Avis) : List (Assign Index) × Avis :=
  match assign.rhs with
  | .prf prf arg1 arg2 =>
      let (rhs, pre) := ALprf info defined scope prf arg1 arg2 (Pre.new tmpVar)
      (pre.preassign.reverse ++ [⟨assign.lhs, rhs⟩], pre.tmpVar)
  | _ => ([assign], tmpVar)

end Statements

section Blocks

variable (info : Info)

/-- `AVIS_ISDEFINEDINCURRENTBLOCK` and `AVIS_ISALACTIVE`. -/
structure Marks where
  defined : Defined
  active : Avis → Bool

def Marks.set (marks : Marks) (b : Bool) (avis : Avis) : Marks :=
  ⟨Function.update marks.defined avis b, Function.update marks.active avis b⟩

/-- Left-hand sides in mark mode. -/
def markIds (marks : Marks) (ids : List Avis) : Marks := ids.foldl (Marks.set · true) marks

/-- A left-hand side in transform mode. -/
def ALids (marks : Marks) (avis : Avis) : Marks :=
  if marks.active avis then marks.set false avis else marks

/-- What `collectExprs` passes is no longer active. -/
def passed (prf : Prf) (defined : Defined) : List (Assign Index) → Avis → List Avis
  | [], _ => []
  | assign :: scope, a =>
      if assign.lhs = a then
        if defined a then
          match assign.rhs with
          | .id avis => a :: passed prf defined scope avis
          | .prf rhs arg1 arg2 =>
              if prf.compatiblePrf rhs then
                a :: passed prf defined scope arg1 ++ passed prf defined scope arg2
              else [a]
          | _ => [a]
        else []
      else passed prf defined scope a

def deactivate (marks : Marks) (scope : List (Assign Index)) : Rhs Index → Marks
  | .prf prf arg1 arg2 =>
      let ids := passed prf marks.defined scope arg1 ++ passed prf marks.defined scope arg2
      { marks with active := fun a => marks.active a && a ∉ ids }
  | _ => marks

/-- Statements are transformed from the last to the first. -/
def ALassign (scope : List (Assign Index)) : List (Assign Index) → Marks → Avis →
    List (Assign Index) × Marks × Avis
  | [], marks, tmpVar => ([], marks, tmpVar)
  | assign :: assigns, marks, tmpVar =>
      let (next, marks, tmpVar) := ALassign (assign :: scope) assigns marks tmpVar
      if marks.active assign.lhs then
        let marks := ALids marks assign.lhs
        let (stmt, tmpVar) := ALlet info marks.defined scope assign tmpVar
        (stmt ++ next, deactivate marks scope assign.rhs, tmpVar)
      else (assign :: next, marks, tmpVar)

/-- The index variables of a with-loop body are marked as well. -/
def ALblock (scope : List (Assign Index)) (withids : List Avis) (assigns : List (Assign Index))
    (marks : Marks) (tmpVar : Avis) : List (Assign Index) × Marks × Avis :=
  let marks := markIds (markIds marks withids) (assigns.map Assign.lhs)
  let (assigns, marks, tmpVar) := ALassign info scope assigns marks tmpVar
  (assigns, withids.foldl ALids marks, tmpVar)

/-- Which statements are rewritten, each with the marks it is rewritten under. -/
abbrev Schedule := List (Option Defined)

/-- The statements of a schedule, from the last to the first. -/
def rewriteStmts (scope : List (Assign Index)) : Schedule → List (Assign Index) → Avis →
    List (Assign Index) × Avis
  | some defined :: schedule, assign :: assigns, tmpVar =>
      let (next, tmpVar) := rewriteStmts (assign :: scope) schedule assigns tmpVar
      let (stmt, tmpVar) := ALlet info defined scope assign tmpVar
      (stmt ++ next, tmpVar)
  | none :: schedule, assign :: assigns, tmpVar =>
      let (next, tmpVar) := rewriteStmts (assign :: scope) schedule assigns tmpVar
      (assign :: next, tmpVar)
  | _, assigns, tmpVar => (assigns, tmpVar)

/-- The traversal follows a schedule. -/
theorem ALassign_scheduled (scope assigns : List (Assign Index)) (marks : Marks) (tmpVar : Avis) :
    ∃ schedule : Schedule, rewriteStmts info scope schedule assigns tmpVar =
      ((ALassign info scope assigns marks tmpVar).1,
        (ALassign info scope assigns marks tmpVar).2.2) := by
  induction assigns generalizing scope with
  | nil => exact ⟨[], rfl⟩
  | cons assign assigns ih =>
      obtain ⟨schedule, same⟩ := ih (assign :: scope)
      -- the marks once everything behind this statement is done
      let later := (ALassign info (assign :: scope) assigns marks tmpVar).2.1
      by_cases active : later.active assign.lhs
      · refine ⟨some (ALids later assign.lhs).defined :: schedule, ?_⟩
        simp only [rewriteStmts, same, ALassign, later, active, ↓reduceIte]
      · refine ⟨none :: schedule, ?_⟩
        simp only [rewriteStmts, same, ALassign, later, active, ↓reduceIte, Bool.false_eq_true]

theorem ALblock_scheduled (scope : List (Assign Index)) (withids : List Avis)
    (assigns : List (Assign Index)) (marks : Marks) (tmpVar : Avis) :
    ∃ schedule : Schedule, (rewriteStmts info scope schedule assigns tmpVar).1 =
      (ALblock info scope withids assigns marks tmpVar).1 := by
  obtain ⟨schedule, same⟩ := ALassign_scheduled info scope assigns
    (markIds (markIds marks withids) (assigns.map Assign.lhs)) tmpVar
  exact ⟨schedule, congrArg Prod.fst same⟩

end Blocks

end Sac2c.AssociativeLaw
