import Sac2c.LubOfTypes
import Sac2c.Closures

/-!
The constraint store of typecheck/ssi.c. Each type variable has an upper and a
lower bound and the lists of the variables above and below it; a call of
SSInewTypeRel adds one constraint. Assumptions are not registered.
-/

namespace Sac2c.SsiStore

open NewTypes TypeOrder LubOfTypes Closures

@[ext]
structure Tvar (Val : Type) where
  max : Option (NType Val)
  min : Option (NType Val)
  big : List Nat
  small : List Nat

/-- The type variables by their numbers. -/
abbrev Store (Val : Type) := Nat → Tvar Val

section Model
variable {Val : Type}

/-- SSImakeVariable. -/
def makeVariable : Tvar Val := { max := none, min := none, big := [], small := [] }

/-- Freshly made variables. -/
def freshStore : Store Val := fun _ => makeVariable

/-- IsIn: a loop over the list that ends when the variable has been found. -/
def isIn (var : Nat) : List Nat → Bool
  | [] => false
  | entry :: rest => if entry = var then true else isIn var rest

/-- AddBigger. -/
def addBigger (small big : Nat) (s : Store Val) : Store Val :=
  Function.update s small { s small with big := (s small).big ++ [big] }

/-- AddSmaller. -/
def addSmaller (big small : Nat) (s : Store Val) : Store Val :=
  Function.update s big { s big with small := (s big).small ++ [small] }

/-- TVAR_BIG. -/
def tvarBig (s : Store Val) (var i : Nat) : Nat := (s var).big.getD i 0

/-- TVAR_SMALL. -/
def tvarSmall (s : Store Val) (var i : Nat) : Nat := (s var).small.getD i 0

def setMax (var : Nat) (type : NType Val) (s : Store Val) : Store Val :=
  Function.update s var { s var with max := some type }

/-- InsertMinAndCheckAssumption. -/
def setMin (var : Nat) (type : NType Val) (s : Store Val) : Store Val :=
  Function.update s var { s var with min := some type }

/-- A round of the first loop of SSInewRel: small against a variable above big. -/
def bigsRound (small big i : Nat) (s : Store Val) : Option (Store Val) :=
  some (if isIn (tvarBig s big i) (s small).big then s
    else addSmaller (tvarBig s big i) small (addBigger small (tvarBig s big i) s))

/-- A round of the second loop: a variable below small against big. -/
def smallsRound (small big i : Nat) (s : Store Val) : Option (Store Val) :=
  some (if isIn (tvarSmall s small i) (s big).small then s
    else addBigger (tvarSmall s small i) big (addSmaller big (tvarSmall s small i) s))

/-- A round of the inner loop of the third one: a variable below small against one
above big. -/
def rowRound (big lower j : Nat) (s : Store Val) : Option (Store Val) :=
  some (if isIn lower (s (tvarBig s big j)).small then s
    else addBigger lower (tvarBig s big j) (addSmaller (tvarBig s big j) lower s))

/-- A loop for i from 0 to TVAR_NBIG. -/
def forBigs (big : Nat) (body : Nat → Store Val → Option (Store Val)) (s : Store Val) :
    Option (Store Val) :=
  forLoop (fun s => (s big).big.length) body (s big).big.length 0 s

/-- A loop for i from 0 to TVAR_NSMALL. -/
def forSmalls (small : Nat) (body : Nat → Store Val → Option (Store Val)) (s : Store Val) :
    Option (Store Val) :=
  forLoop (fun s => (s small).small.length) body (s small).small.length 0 s

/-- The third loop: the variables below small against those above big. -/
def closeRest (small big : Nat) (s : Store Val) : Option (Store Val) :=
  forSmalls small (fun i s => forBigs big (rowRound big (tvarSmall s small i)) s) s

/-- The part of SSInewRel that adds a relation and builds the transitive closure. -/
def addRelation (small big : Nat) (s : Store Val) : Option (Store Val) :=
  (forBigs big (bigsRound small big) (addSmaller big small (addBigger small big s))).bind fun s =>
    (forSmalls small (smallsRound small big) s).bind (closeRest small big)

variable [BEq Val]

/-- NewMax at one variable: `onSmalls` is what follows if the maximum has become
smaller. -/
def newMaxAt (users : UserTypes) (onSmalls : Store Val → Bool × Store Val) (var : Nat)
    (cmax : NType Val) (s : Store Val) : Bool × Store Val :=
  match (s var).max with
  | none =>
      match (s var).min with
      | some min => (leNtypes users min cmax, setMax var cmax s)
      | none => (true, setMax var cmax s)
  | some max =>
      match cmpNtypes users cmax max with
      | .dis => (false, s)
      | .lt =>
          match (s var).min with
          | none => onSmalls (setMax var cmax s)
          | some min =>
              if leNtypes users min cmax then onSmalls (setMax var cmax s) else (false, s)
      | _ => (true, s)

/-- The loop of NewMax over the variables below: each call has `outer` FALSE. -/
def newMaxSmalls (users : UserTypes) (cmax : NType Val) : List Nat → Store Val → Bool × Store Val
  | [], s => (true, s)
  | small :: rest, s =>
      match newMaxAt users (fun s => (true, s)) small cmax s with
      | (true, s) => newMaxSmalls users cmax rest s
      | (false, s) => (false, s)

/-- SSInewMax. -/
def newMax (users : UserTypes) (var : Nat) (cmax : Option (NType Val)) (s : Store Val) :
    Bool × Store Val :=
  match cmax with
  | none => (true, s)
  | some cmax =>
      newMaxAt users (fun s => newMaxSmalls users cmax (s var).small s) var cmax s

/-- The new minimum `tmp` of NewMin. -/
def newMinimum (users : UserTypes) (cmin : NType Val) : Option (NType Val) → Option (NType Val)
  | none => some cmin
  | some min => lubOfTypes users cmin min

/-- Whether a minimum is legal below a stored maximum. -/
def legalMin (users : UserTypes) (tmp : NType Val) : Option (NType Val) → Bool
  | none => true
  | some max => leNtypes users tmp max

/-- NewMin at one variable: `onBigs` is what follows if there is a new minimum. -/
def newMinAt (users : UserTypes) (onBigs : NType Val → Store Val → Bool × Store Val) (var : Nat)
    (cmin : NType Val) (s : Store Val) : Bool × Store Val :=
  match newMinimum users cmin (s var).min with
  | none => (false, s)
  | some tmp =>
      if legalMin users tmp (s var).max then onBigs tmp (setMin var tmp s) else (false, s)

/-- The loop of NewMin over the variables above: each call has `outer` FALSE. -/
def newMinBigs (users : UserTypes) (tmp : NType Val) : List Nat → Store Val → Bool × Store Val
  | [], s => (true, s)
  | big :: rest, s =>
      match newMinAt users (fun _ s => (true, s)) big tmp s with
      | (true, s) => newMinBigs users tmp rest s
      | (false, s) => (false, s)

/-- SSInewMin. -/
def newMin (users : UserTypes) (var : Nat) (cmin : Option (NType Val)) (s : Store Val) :
    Bool × Store Val :=
  match cmin with
  | none => (true, s)
  | some cmin =>
      newMinAt users (fun tmp s => newMinBigs users tmp (s var).big s) var cmin s

/-- The bounds that SSInewRel passes on when the relation has been added. -/
def passBounds (users : UserTypes) (small big : Nat) (s : Store Val) : Bool × Store Val :=
  match newMax users small (s big).max s with
  | (true, s) => newMin users big (s small).min s
  | (false, s) => (false, s)

/-- SSInewRel. It is none if one of its loops does not end after as many rounds as
its list was long in the beginning. -/
def newRel (users : UserTypes) (small big : Nat) (s : Store Val) : Option (Bool × Store Val) :=
  if isIn small (s big).small then some (true, s)
  else (addRelation small big s).map (passBounds users small big)

/-- An argument of SSInewTypeRel: a type variable or a type without variables. -/
inductive Side (Val : Type) where
  | alpha (var : Nat)
  | type (type : NType Val)

/-- A constraint: SSInewTypeRel is called with its two sides. -/
structure Constraint (Val : Type) where
  small : Side Val
  big : Side Val

/-- SSInewTypeRel. -/
def newTypeRel (users : UserTypes) (c : Constraint Val) (s : Store Val) :
    Option (Bool × Store Val) :=
  match c.small, c.big with
  | .alpha small, .alpha big => newRel users small big s
  | .alpha small, .type big => some (newMax users small (some big) s)
  | .type small, .alpha big => some (newMin users big (some small) s)
  | .type small, .type big => some (leNtypes users small big, s)

/-- SSIisLe. -/
def isLeVar (s : Store Val) (var1 var2 : Nat) : Bool := isIn var2 (s var1).big

/-- The stores that calls lead to from freshly made variables, if each call meets
`Allowed` with the store before it and with its result. -/
inductive Run (users : UserTypes) (Allowed : Store Val → Constraint Val → Bool → Prop) :
    List (Constraint Val) → Store Val → Prop where
  | start : Run users Allowed [] freshStore
  | step {calls : List (Constraint Val)} {s next : Store Val} {c : Constraint Val} {res : Bool} :
      Run users Allowed calls s → newTypeRel users c s = some (res, next) → Allowed s c res →
      Run users Allowed (calls ++ [c]) next

end Model

section Fields
variable {Val : Type} (s : Store Val) (v : Nat)

theorem is_in_iff (var : Nat) (list : List Nat) : isIn var list = true ↔ var ∈ list := by
  induction list with
  | nil => simp [isIn]
  | cons entry rest ih =>
      unfold isIn
      split
      · next same => simp [same]
      · next differs => simp [ih, Ne.symm differs]

@[simp] theorem add_bigger_big (small big : Nat) : (addBigger small big s v).big =
    if v = small then (s v).big ++ [big] else (s v).big := by
  by_cases here : v = small
  · subst here
    simp [addBigger]
  · simp [addBigger, here]

@[simp] theorem add_bigger_other (small big : Nat) :
    (addBigger small big s v).small = (s v).small ∧
      (addBigger small big s v).max = (s v).max ∧ (addBigger small big s v).min = (s v).min := by
  by_cases here : v = small
  · subst here
    simp [addBigger]
  · simp [addBigger, here]

@[simp] theorem add_smaller_small (big small : Nat) : (addSmaller big small s v).small =
    if v = big then (s v).small ++ [small] else (s v).small := by
  by_cases here : v = big
  · subst here
    simp [addSmaller]
  · simp [addSmaller, here]

@[simp] theorem add_smaller_other (big small : Nat) :
    (addSmaller big small s v).big = (s v).big ∧
      (addSmaller big small s v).max = (s v).max ∧ (addSmaller big small s v).min = (s v).min := by
  by_cases here : v = big
  · subst here
    simp [addSmaller]
  · simp [addSmaller, here]

@[simp] theorem set_max_max (var : Nat) (type : NType Val) : (setMax var type s v).max =
    if v = var then some type else (s v).max := by
  by_cases here : v = var
  · subst here
    simp [setMax]
  · simp [setMax, here]

@[simp] theorem set_max_other (var : Nat) (type : NType Val) :
    (setMax var type s v).min = (s v).min ∧
      (setMax var type s v).big = (s v).big ∧ (setMax var type s v).small = (s v).small := by
  by_cases here : v = var
  · subst here
    simp [setMax]
  · simp [setMax, here]

@[simp] theorem set_min_min (var : Nat) (type : NType Val) : (setMin var type s v).min =
    if v = var then some type else (s v).min := by
  by_cases here : v = var
  · subst here
    simp [setMin]
  · simp [setMin, here]

@[simp] theorem set_min_other (var : Nat) (type : NType Val) :
    (setMin var type s v).max = (s v).max ∧
      (setMin var type s v).big = (s v).big ∧ (setMin var type s v).small = (s v).small := by
  by_cases here : v = var
  · subst here
    simp [setMin]
  · simp [setMin, here]

end Fields

end Sac2c.SsiStore
