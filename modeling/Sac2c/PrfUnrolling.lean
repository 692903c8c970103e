import Sac2c.NewTypes
import Sac2c.AssignmentChains

/-!
Unrolling of vector primitives of stdopt/prfunroll.c: a primitive function on vectors becomes a
chain of selections, scalar primitives and, for the guards, conjunctions of their predicates. Which
argument is selected from, which scalar primitive is meant and whether there is a predicate is
decided by one table each.
-/

namespace Sac2c.PrfUnrolling

open NewTypes (SimpleType)
open AssignmentChains

/-- The primitive functions that are unrolled and those that the chains consist of. -/
inductive Prf where
  | addSxS | addSxV | addVxS | addVxV | subSxS | subSxV | subVxS | subVxV | mulSxS | mulSxV
  | mulVxS | mulVxV | divSxS | divSxV | divVxS | divVxV | modSxS | modSxV | modVxS | modVxV
  | minSxS | minSxV | minVxS | minVxV | maxSxS | maxSxV | maxVxS | maxVxV | andSxS | andSxV
  | andVxS | andVxV | orSxS | orSxV | orVxS | orVxV | ltSxS | ltSxV | ltVxS | ltVxV | leSxS
  | leSxV | leVxS | leVxV | eqSxS | eqSxV | eqVxS | eqVxV | geSxS | geSxV | geVxS | geVxV
  | gtSxS | gtSxV | gtVxS | gtVxV | neqSxS | neqSxV | neqVxS | neqVxV | negS | negV | absS
  | absV | notS | notV | nonNegValS | nonNegValV | valLtValSxS | valLtShapeVxA | valLeValSxS
  | valLeValVxV | selVxA | shapeA
  deriving DecidableEq, Repr

section Values

/-- The simple types of values other than int and bool. -/
abbrev OtherType := {type : SimpleType // type ≠ .int ∧ type ≠ .bool}

/-- A scalar; what stands for the values of the other types is a parameter. -/
inductive Scalar (Rep : Type) where
  | int (n : Int)
  | bool (b : Bool)
  | other (type : OtherType) (rep : Rep)

variable {Rep : Type}

def Scalar.base : Scalar Rep → SimpleType
  | .int _ => .int
  | .bool _ => .bool
  | .other type _ => type.val

/-- An array with its elements in row-major order. -/
structure Value (Rep : Type) where
  base : SimpleType
  shape : List Nat
  elems : List (Scalar Rep)

def scalarValue (x : Scalar Rep) : Value Rep :=
  ⟨x.base, [], [x]⟩

def vectorValue (base : SimpleType) (xs : List (Scalar Rep)) : Value Rep :=
  ⟨base, [xs.length], xs⟩

def boolValue (b : Bool) : Value Rep :=
  scalarValue (.bool b)

def Value.asScalar (v : Value Rep) : Option (Scalar Rep) :=
  match v.shape, v.elems with
  | [], [x] => some x
  | _, _ => none

def Value.asVector (v : Value Rep) : Option (List (Scalar Rep)) :=
  match v.shape with
  | [n] => if v.elems.length = n then some v.elems else none
  | _ => none

/-- The position of an index vector in row-major order. -/
def offset : List Nat → List (Scalar Rep) → Option Nat
  | [], [] => some 0
  | n :: shape, .int i :: iv =>
      if 0 ≤ i ∧ i < n then (offset shape iv).map (i.toNat * shape.prod + ·) else none
  | _, _ => none

end Values

section Meaning

/-- What a primitive function computes for each element. -/
inductive Op where
  | add | sub | mul | div | mod | min | max | and | or | lt | le | eq | ge | gt | neq
  | neg | abs | not | nonNegVal | valLtVal | valLeVal
  deriving DecidableEq, Repr

/-- The guards yield their first argument and a predicate. -/
def Op.isGuard : Op → Bool
  | .nonNegVal | .valLtVal | .valLeVal => true
  | _ => false

def Op.isRelational : Op → Bool
  | .lt | .le | .eq | .ge | .gt | .neq => true
  | _ => false

def Op.isLogical : Op → Bool
  | .and | .or | .not => true
  | _ => false

/-- The simple type of the result for arguments of the given one. -/
def Op.resultBase (op : Op) (base : SimpleType) : SimpleType :=
  if op.isRelational || op.isLogical then .bool else base

/-- The scalar primitives: their values and the predicates of the guards. They yield values of the
type of the result, a conjunction is one, and integers can be compared. -/
structure Prims (Rep : Type) where
  apply : Op → List (Scalar Rep) → Option (Scalar Rep)
  holds : Op → List (Scalar Rep) → Option Bool
  apply_base : ∀ op x xs y, apply op (x :: xs) = some y → y.base = op.resultBase x.base
  apply_and : ∀ a b, apply .and [.bool a, .bool b] = some (.bool (a && b))
  apply_relational : ∀ op m n, op.isRelational = true → (apply op [.int m, .int n]).isSome

/-- The shapes of the arguments, as in the name of the primitive function. -/
inductive Form where
  | S | V | SxS | SxV | VxS | VxV | VxA
  deriving DecidableEq, Repr

/-- What the name of a primitive function says. -/
def reading : Prf → Option (Op × Form)
  | .addSxS => some (.add, .SxS) | .addSxV => some (.add, .SxV)
  | .addVxS => some (.add, .VxS) | .addVxV => some (.add, .VxV)
  | .subSxS => some (.sub, .SxS) | .subSxV => some (.sub, .SxV)
  | .subVxS => some (.sub, .VxS) | .subVxV => some (.sub, .VxV)
  | .mulSxS => some (.mul, .SxS) | .mulSxV => some (.mul, .SxV)
  | .mulVxS => some (.mul, .VxS) | .mulVxV => some (.mul, .VxV)
  | .divSxS => some (.div, .SxS) | .divSxV => some (.div, .SxV)
  | .divVxS => some (.div, .VxS) | .divVxV => some (.div, .VxV)
  | .modSxS => some (.mod, .SxS) | .modSxV => some (.mod, .SxV)
  | .modVxS => some (.mod, .VxS) | .modVxV => some (.mod, .VxV)
  | .minSxS => some (.min, .SxS) | .minSxV => some (.min, .SxV)
  | .minVxS => some (.min, .VxS) | .minVxV => some (.min, .VxV)
  | .maxSxS => some (.max, .SxS) | .maxSxV => some (.max, .SxV)
  | .maxVxS => some (.max, .VxS) | .maxVxV => some (.max, .VxV)
  | .andSxS => some (.and, .SxS) | .andSxV => some (.and, .SxV)
  | .andVxS => some (.and, .VxS) | .andVxV => some (.and, .VxV)
  | .orSxS => some (.or, .SxS) | .orSxV => some (.or, .SxV)
  | .orVxS => some (.or, .VxS) | .orVxV => some (.or, .VxV)
  | .ltSxS => some (.lt, .SxS) | .ltSxV => some (.lt, .SxV)
  | .ltVxS => some (.lt, .VxS) | .ltVxV => some (.lt, .VxV)
  | .leSxS => some (.le, .SxS) | .leSxV => some (.le, .SxV)
  | .leVxS => some (.le, .VxS) | .leVxV => some (.le, .VxV)
  | .eqSxS => some (.eq, .SxS) | .eqSxV => some (.eq, .SxV)
  | .eqVxS => some (.eq, .VxS) | .eqVxV => some (.eq, .VxV)
  | .geSxS => some (.ge, .SxS) | .geSxV => some (.ge, .SxV)
  | .geVxS => some (.ge, .VxS) | .geVxV => some (.ge, .VxV)
  | .gtSxS => some (.gt, .SxS) | .gtSxV => some (.gt, .SxV)
  | .gtVxS => some (.gt, .VxS) | .gtVxV => some (.gt, .VxV)
  | .neqSxS => some (.neq, .SxS) | .neqSxV => some (.neq, .SxV)
  | .neqVxS => some (.neq, .VxS) | .neqVxV => some (.neq, .VxV)
  | .negS => some (.neg, .S) | .negV => some (.neg, .V)
  | .absS => some (.abs, .S) | .absV => some (.abs, .V)
  | .notS => some (.not, .S) | .notV => some (.not, .V)
  | .nonNegValS => some (.nonNegVal, .S) | .nonNegValV => some (.nonNegVal, .V)
  | .valLtValSxS => some (.valLtVal, .SxS) | .valLtShapeVxA => some (.valLtVal, .VxA)
  | .valLeValSxS => some (.valLeVal, .SxS) | .valLeValVxV => some (.valLeVal, .VxV)
  | .selVxA | .shapeA => none

variable {Rep : Type} (prims : Prims Rep)

/-- A scalar primitive with its predicate, which is true unless it is a guard. -/
def Prims.result (op : Op) (row : List (Scalar Rep)) : Option (Scalar Rep × Bool) :=
  if op.isGuard then do
    let x ← row.head?
    let q ← prims.holds op row
    some (x, q)
  else (prims.apply op row).map (·, true)

/-- The arguments for each element. -/
def rows : Form → List (Value Rep) → Option (List (List (Scalar Rep)))
  | .S, [v] => v.asScalar.map fun x => [[x]]
  | .V, [v] => v.asVector.map fun xs => xs.map fun x => [x]
  | .SxS, [v, w] => do
      let x ← v.asScalar
      let y ← w.asScalar
      some [[x, y]]
  | .SxV, [v, w] => do
      let x ← v.asScalar
      let ys ← w.asVector
      some (ys.map fun y => [x, y])
  | .VxS, [v, w] => do
      let xs ← v.asVector
      let y ← w.asScalar
      some (xs.map fun x => [x, y])
  | .VxV, [v, w] => do
      let xs ← v.asVector
      let ys ← w.asVector
      if xs.length = ys.length then some (List.zipWith (fun x y => [x, y]) xs ys) else none
  | .VxA, [v, w] => do
      let xs ← v.asVector
      if xs.length = w.shape.length then
        some (List.zipWith (fun x (extent : Nat) => [x, .int extent]) xs w.shape)
      else none
  | _, _ => none

def Form.isScalar : Form → Bool
  | .S | .SxS => true
  | _ => false

/-- The results of a primitive function that works element by element. The predicate of a guard is
the conjunction of the predicates of the elements. -/
def elementwise (op : Op) (form : Form) (base : SimpleType) (args : List (Value Rep)) :
    Option (List (Value Rep)) := do
  let rs ← (← rows form args).mapM (prims.result op)
  let values :=
    if form.isScalar then rs.map fun r => scalarValue r.1
    else [vectorValue (op.resultBase base) (rs.map (·.1))]
  some (values ++ if op.isGuard then [boolValue (rs.all (·.2))] else [])

def evalPrf : Prf → List (Value Rep) → Option (List (Value Rep))
  | .selVxA, [iv, a] => do
      let xs ← iv.asVector
      let position ← offset a.shape xs
      let x ← a.elems[position]?
      some [scalarValue x]
  | .shapeA, [a] => some [vectorValue .int (a.shape.map fun extent : Nat => .int extent)]
  | p, v :: vs => do
      let (op, form) ← reading p
      elementwise prims op form v.base (v :: vs)
  | _, [] => none

abbrev Avis := Nat

/-- The right-hand sides: arrays of numbers, booleans, variables, primitive functions and arrays of
variables with the type of their elements. -/
inductive Expr where
  | intVector (elems : List Int)
  | bool (b : Bool)
  | id (x : Avis)
  | prf1 (p : Prf) (x : Avis)
  | prf2 (p : Prf) (x y : Avis)
  | vector (scalar : SimpleType) (elems : List Avis)

def Expr.uses : Expr → List Avis
  | .intVector _ | .bool _ => []
  | .id x => [x]
  | .prf1 _ x => [x]
  | .prf2 _ x y => [x, y]
  | .vector _ elems => elems

def eval (env : Env Avis (Value Rep)) : Expr → Option (List (Value Rep))
  | .intVector elems => some [vectorValue .int (elems.map .int)]
  | .bool b => some [boolValue b]
  | .id x => (env x).map fun v => [v]
  | .prf1 p x => do
      let v ← env x
      evalPrf prims p [v]
  | .prf2 p x y => do
      let v ← env x
      let w ← env y
      evalPrf prims p [v, w]
  | .vector scalar elems => do
      let xs ← elems.mapM fun x => (env x).bind Value.asScalar
      some [vectorValue scalar xs]

end Meaning

section Unrolling

/-- What the type of a variable says about its shape; the value of an AKV type is not read. -/
inductive Known where
  | akv (shape : List Nat)
  | aks (shape : List Nat)
  | akd (dim : Nat)
  | audgz
  | aud

structure NType where
  scalar : SimpleType
  known : Known

/-- TYgetShape, if the shape is known: TUshapeKnown. -/
def NType.shape (type : NType) : Option (List Nat) :=
  match type.known with
  | .akv shape | .aks shape => some shape
  | _ => none

/-- TYgetDim, if it is known. -/
def NType.dim (type : NType) : Option Nat :=
  match type.known with
  | .akv shape | .aks shape => some shape.length
  | .akd dim => some dim
  | _ => none

/-- A declaration of a new variable. -/
structure Vardec where
  avis : Avis
  scalar : SimpleType
  shape : List Nat

/-- The new variables are numbered from `fresh` on. -/
structure Info where
  vardec : List Vardec
  preassign : List (Assign Avis Expr)
  lastp1pavis : Option Avis
  shpavis : Option Avis
  fresh : Avis

def unrollOracle (p : Prf) (type1 : NType) (type2 : Option NType) : Bool :=
  match p with
  | .addVxS | .addSxV | .addVxV | .subVxS | .subSxV | .subVxV | .mulVxS | .mulSxV | .mulVxV
  | .divVxS | .divSxV | .divVxV | .nonNegValV | .negV | .absV | .notV | .ltVxS | .ltSxV | .ltVxV
  | .leVxS | .leSxV | .leVxV | .eqVxS | .eqSxV | .eqVxV | .geVxS | .geSxV | .geVxV | .gtVxS
  | .gtSxV | .gtVxV | .neqVxS | .neqSxV | .neqVxV | .modVxS | .modSxV | .modVxV | .minVxS
  | .minSxV | .minVxV | .maxVxS | .maxSxV | .maxVxV | .andVxS | .andSxV | .andVxV | .orVxS
  | .orSxV | .orVxV => true
  | .valLtShapeVxA => (type2.bind NType.dim).isSome
  | .valLeValVxV =>
      match type1.shape, type2.bind NType.shape with
      | some shape1, some shape2 => shape1.prod = shape2.prod
      | _, _ => false
  | _ => false

def normalizePrf : Prf → Option Prf
  | .ltSxV | .ltVxS | .ltVxV => some .ltSxS
  | .leSxV | .leVxS | .leVxV => some .leSxS
  | .eqSxV | .eqVxS | .eqVxV => some .eqSxS
  | .geSxV | .geVxS | .geVxV => some .geSxS
  | .gtSxV | .gtVxS | .gtVxV => some .gtSxS
  | .neqSxV | .neqVxS | .neqVxV => some .neqSxS
  | .addVxS | .addSxV | .addVxV => some .addSxS
  | .subVxS | .subSxV | .subVxV => some .subSxS
  | .mulVxS | .mulSxV | .mulVxV => some .mulSxS
  | .divVxS | .divSxV | .divVxV => some .divSxS
  | .nonNegValV => some .nonNegValS
  | .valLtShapeVxA => some .valLtValSxS
  | .negV => some .negS
  | .valLeValVxV => some .valLeValSxS
  | .absV => some .absS
  | .notV => some .notS
  | .modVxS | .modSxV | .modVxV => some .modSxS
  | .minVxS | .minSxV | .minVxV => some .minSxS
  | .maxVxS | .maxSxV | .maxVxV => some .maxSxS
  | .andVxS | .andSxV | .andVxV => some .andSxS
  | .orVxS | .orSxV | .orVxV => some .orSxS
  | _ => none

/-- TBmakeAvis with TRAVtmpVar, and the declaration. -/
def makeAvis (scalar : SimpleType) (shape : List Nat) (info : Info) : Avis × Info :=
  (info.fresh,
    { info with vardec := ⟨info.fresh, scalar, shape⟩ :: info.vardec, fresh := info.fresh + 1 })

def assign (ids : List Avis) (expr : Expr) (info : Info) : Info :=
  { info with preassign := ⟨ids, expr⟩ :: info.preassign }

def makeIntVec (i : Nat) (info : Info) : Avis × Info :=
  let (selarravis, info) := makeAvis .int [1] info
  (selarravis, assign [selarravis] (.intVector [i]) info)

/-- What both functions that select do. -/
def makeSel (i : Nat) (avis : Avis) (info : Info) : Avis × Info :=
  let (selarravis, info) := makeIntVec i info
  let (zavis, info) := makeAvis .int [] info
  (zavis, assign [zavis] (.prf2 .selVxA selarravis avis) info)

def makeSelOpArg1 (p : Prf) (i : Nat) (avis : Avis) (info : Info) : Avis × Info :=
  match p with
  | .addVxS | .addVxV | .subVxS | .subVxV | .mulVxS | .mulVxV | .divVxS | .divVxV | .nonNegValV
  | .negV | .valLtShapeVxA | .valLeValVxV | .absV | .notV | .ltVxS | .leVxS | .eqVxS | .geVxS
  | .gtVxS | .neqVxS | .ltVxV | .leVxV | .eqVxV | .geVxV | .gtVxV | .neqVxV | .modVxS | .modVxV
  | .minVxS | .minVxV | .maxVxS | .maxVxV | .andVxS | .andVxV | .orVxS | .orVxV => makeSel i avis info
  | _ => (avis, info)

/-- None for a selection from NULL; the argument is NULL for the monadic functions. -/
def makeSelOpArg2 (p : Prf) (i : Nat) (avis : Option Avis) (info : Info) :
    Option (Option Avis × Info) :=
  match p with
  | .negV | .absV | .nonNegValV | .notV => some (none, info)
  | .addVxS | .subVxS | .mulVxS | .divVxS | .ltVxS | .leVxS | .eqVxS | .geVxS | .gtVxS | .neqVxS
  | .modVxS | .minVxS | .maxVxS | .andVxS | .orVxS => some (avis, info)
  | .valLtShapeVxA => do
      let avis ← info.shpavis
      let (zavis, info) := makeSel i avis info
      some (some zavis, info)
  | _ => do
      let avis ← avis
      let (zavis, info) := makeSel i avis info
      some (some zavis, info)

def makeIdsAndPredAvis (resavis : Avis) (p : Prf) (info : Info) : List Avis × Info :=
  match p with
  | .nonNegValV | .valLtShapeVxA | .valLeValVxV =>
      let (predavis, info) := makeAvis .bool [] info
      ([resavis, predavis], info)
  | _ => ([resavis], info)

def makeUnrolledOp (p : Prf) (ids : List Avis) (argavis1 : Avis) (argavis2 : Option Avis)
    (info : Info) : Option Info :=
  match p with
  | .addVxS | .addSxV | .addVxV | .subVxS | .subSxV | .subVxV | .mulVxS | .mulSxV | .mulVxV
  | .divVxS | .divSxV | .divVxV | .ltVxS | .ltSxV | .ltVxV | .leVxS | .leSxV | .leVxV | .eqVxS
  | .eqSxV | .eqVxV | .geVxS | .geSxV | .geVxV | .gtVxS | .gtSxV | .gtVxV | .neqVxS | .neqSxV
  | .neqVxV | .modVxS | .modSxV | .modVxV | .minVxS | .minSxV | .minVxV | .maxVxS | .maxSxV
  | .maxVxV | .andVxS | .andSxV | .andVxV | .orVxS | .orSxV | .orVxV | .valLtShapeVxA
  | .valLeValVxV => do
      let q ← normalizePrf p
      let argavis2 ← argavis2
      some (assign ids (.prf2 q argavis1 argavis2) info)
  | .nonNegValV | .negV | .absV | .notV => do
      let q ← normalizePrf p
      some (assign ids (.prf1 q argavis1) info)
  | _ => none

/-- The assignment of true, which is appended at the end of the reversed chain. -/
def makeTrue (info : Info) : Info :=
  let (bavis, info) := makeAvis .bool [] info
  { info with
      preassign := info.preassign ++ [⟨[bavis], .bool true⟩]
      lastp1pavis := some bavis }

def makeTrueScalar (p : Prf) (arg2 : Option Avis) (dim : Option Nat) (info : Info) : Option Info :=
  match p with
  | .valLtShapeVxA => do
      let arg2 ← arg2
      let dim ← dim
      let (shpavis, info) := makeAvis .int [dim] info
      let info := assign [shpavis] (.prf1 .shapeA arg2) info
      some (makeTrue { info with shpavis := some shpavis })
  | .nonNegValV | .valLeValVxV => some (makeTrue info)
  | _ => some info

def makeFoldOp (p : Prf) (ids : List Avis) (info : Info) : Option Info :=
  match p with
  | .nonNegValV | .valLtShapeVxA | .valLeValVxV => do
      let (p1pavis, info) := makeAvis .bool [] info
      let x ← info.lastp1pavis
      let y ← ids[1]?
      some (assign [p1pavis] (.prf2 .andSxS x y) { info with lastp1pavis := some p1pavis })
  | _ => some info

/-- The variables that the let assigns and its right-hand side. -/
def makeResultNode (p : Prf) (lhs : List Avis) (scalar : SimpleType) (elems : List Avis)
    (info : Info) : Option (List Avis × Expr × Info) :=
  let result := Expr.vector scalar elems.reverse
  match p with
  | .nonNegValV | .valLtShapeVxA | .valLeValVxV =>
      match lhs with
      | lhs1 :: guardres => do
          let last ← info.lastp1pavis
          if guardres.isEmpty then none
          else some ([lhs1], result, assign guardres (.id last) info)
      | [] => none
  | _ => some (lhs, result, info)

/-- The body of the loop over the elements. -/
def unrollElem (p : Prf) (avis1 : Avis) (avis2 : Option Avis) (i : Nat) (s : Info × List Avis) :
    Option (Info × List Avis) := do
  let (info, elems) := s
  let (argavis1, info) := makeSelOpArg1 p i avis1 info
  let (argavis2, info) ← makeSelOpArg2 p i avis2 info
  let (resavis, info) := makeAvis .int [] info
  let (ids, info) := makeIdsAndPredAvis resavis p info
  let info ← makeUnrolledOp p ids argavis1 argavis2 info
  let info ← makeFoldOp p ids info
  some (info, resavis :: elems)

def unrollLoop (p : Prf) (avis1 : Avis) (avis2 : Option Avis) :
    Nat → Info × List Avis → Option (Info × List Avis)
  | 0, s => some s
  | len + 1, s => do
      let s ← unrollLoop p avis1 avis2 len s
      unrollElem p avis1 avis2 len s

/-- The chain that replaces the let, and the declarations of its new variables. -/
structure Unrolled where
  chain : List (Assign Avis Expr)
  vardec : List Vardec

/-- UPRFprf and the let around it: none where the compiler stops, `some none` where the let is
left as it is. -/
def uprfPrf (prfunrnum : Int) (types : Avis → NType) (lhs : List Avis) (p : Prf) (arg1 : Avis)
    (arg2 : Option Avis) (fresh : Avis) : Option (Option Unrolled) := do
  let lhs1 ← lhs.head?
  match (types lhs1).known with
  | .aks [len] =>
      if unrollOracle p (types arg1) (arg2.map types) && (types arg1).shape.isSome
          && (arg2.isNone || p = .valLtShapeVxA || (arg2.bind (types · |>.shape)).isSome)
          && (len : Int) < prfunrnum then do
        let info ← makeTrueScalar p arg2 (arg2.bind (types · |>.dim)) ⟨[], [], none, none, fresh⟩
        let (info, elems) ← unrollLoop p arg1 arg2 len (info, [])
        let (ids, result, info) ← makeResultNode p lhs (types lhs1).scalar elems info
        some (some ⟨info.preassign.reverse ++ [⟨ids, result⟩], info.vardec⟩)
      else some none
  | _ => some none

end Unrolling

end Sac2c.PrfUnrolling
