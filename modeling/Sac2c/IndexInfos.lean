import Mathlib.Data.List.Basic
import Sac2c.LinearTransformations

/-!
Index information of with-loop folding (`arrayopt/SSAWLI.c`). In the body of a with-loop every
assignment that transforms the index vector gets an `index_info`: for each component the index it
starts from (`permutation`), the info it continues (`last`) and a primitive function with one
constant. The assignments are in SSA form and named by their position; shapes are known. The four
functions are a parameter, so every arithmetic of ints is covered.
-/

namespace Sac2c.IndexInfos

open LinearTransformations (Prf)

section Syntax

inductive Shape where
  | scalar
  | vector (extent : Nat)
  deriving DecidableEq

def Shape.extent : Shape → Nat
  | .scalar => 1
  | .vector extent => extent

/-- The index vector, an index scalar or the variable of an earlier assignment. -/
inductive Var where
  | vec
  | index (dim : Nat)
  | assigned (assign : Nat)
  deriving DecidableEq

inductive Elem where
  | num (val : Int)
  | id (x : Var)
  deriving DecidableEq

inductive Arg where
  | num (val : Int)
  | id (x : Var)
  | array (elems : List Elem)
  deriving DecidableEq

/-- The variants of a primitive function go with the shapes of its arguments. -/
inductive Expr where
  | arg (a : Arg)
  | prf (op : Prf) (arg1 arg2 : Arg)
  deriving DecidableEq

structure Let where
  shape : Shape
  expr : Expr
  deriving DecidableEq

variable (rank : Nat) (shapes : List Shape)

def varShape : Var → Option Shape
  | .vec => some (.vector rank)
  | .index dim => if dim < rank then some .scalar else none
  | .assigned assign => shapes[assign]?

def elemShape : Elem → Option Shape
  | .num _ => some .scalar
  | .id x => varShape rank shapes x

def argShape : Arg → Option Shape
  | .num _ => some .scalar
  | .id x => varShape rank shapes x
  | .array elems =>
      if elems.all fun elem => elemShape rank shapes elem = some .scalar then
        some (.vector elems.length)
      else none

/-- `SxS`, `SxV`, `VxS` and `VxV` with vectors of one length. -/
def prfShape : Shape → Shape → Option Shape
  | .scalar, shape => some shape
  | .vector n, .scalar => some (.vector n)
  | .vector n, .vector m => if n = m then some (.vector n) else none

def exprShape : Expr → Option Shape
  | .arg a => argShape rank shapes a
  | .prf _ a b =>
      match argShape rank shapes a, argShape rank shapes b with
      | some shape1, some shape2 => prfShape shape1 shape2
      | _, _ => none

/-- Every variable has the shape of its expression. -/
def wellTyped : List Shape → List Let → Bool
  | _, [] => true
  | shapes, l :: body =>
      exprShape rank shapes l.expr = some l.shape && wellTyped (shapes ++ [l.shape]) body

end Syntax

section Semantics

/-- The components of a value; all components of a scalar are its value. -/
abbrev Components := Nat → Int

variable (arith : Prf → Int → Int → Int) (iv : Nat → Int) (vals : List Components)

def evalVar : Var → Components
  | .vec => iv
  | .index dim => fun _ => iv dim
  | .assigned assign => vals.getD assign fun _ => 0

def evalElem : Elem → Int
  | .num val => val
  | .id x => evalVar iv vals x 0

def evalArg : Arg → Components
  | .num val => fun _ => val
  | .id x => evalVar iv vals x
  | .array elems => fun i => (elems[i]?.map (evalElem iv vals)).getD 0

def evalExpr : Expr → Components
  | .arg a => evalArg iv vals a
  | .prf op a b => fun i => arith op (evalArg iv vals a i) (evalArg iv vals b i)

/-- The values of the variables after the assignments of a body. -/
def evalBody (body : List Let) : List Components :=
  body.foldl (fun vals l => vals ++ [evalExpr arith iv vals l.expr]) []

end Semantics

section Model

inductive Const where
  | scalar (val : Int)
  | vector (elems : List Int)
  deriving DecidableEq

def Const.component : Const → Components
  | .scalar val => fun _ => val
  | .vector elems => fun i => elems.getD i 0

/-- One component of an `index_info`; `last` names the assignment whose info is continued, and
`constArg` is `none` where nothing was stored. -/
structure Entry where
  permutation : Nat
  last : Option Nat
  constArg : Option Int
  deriving DecidableEq

/-- `index_info`; `vector` is 0 for a scalar, whose only component is the first. -/
structure IndexInfo where
  vector : Nat
  entries : List Entry
  mprf : Option Prf
  argNo : Nat
  deriving DecidableEq

/-- A variable: the integer that its definition leads to, the constant in its type and the
`ASSIGN_INDEX` of its assignment. -/
structure Assigned where
  shape : Shape
  int : Option Int
  akv : Option Const
  index : Option IndexInfo
  deriving DecidableEq

variable (arith : Prf → Int → Int → Int) (rank : Nat) (locals : List Assigned)

/-- `PMint`, which follows variables to their definitions. -/
def intVar : Var → Option Int
  | .assigned assign => locals[assign]?.bind Assigned.int
  | _ => none

def intElem : Elem → Option Int
  | .num val => some val
  | .id x => intVar locals x

def intArg : Arg → Option Int
  | .num val => some val
  | .id x => intVar locals x
  | .array _ => none

def constElem : Elem → Option Int
  | .num val => some val
  | .id (.assigned assign) =>
      match locals[assign]?.bind Assigned.akv with
      | some (.scalar val) => some val
      | _ => none
  | .id _ => none

/-- `COaST2Constant`. -/
def constArg : Arg → Option Const
  | .num val => some (.scalar val)
  | .id (.assigned assign) => locals[assign]?.bind Assigned.akv
  | .id _ => none
  | .array elems => (elems.mapM (constElem locals)).map .vector

/-- The constant in the type of a primitive function of two constants. -/
def foldConst (op : Prf) : Const → Const → Const
  | .scalar a, .scalar b => .scalar (arith op a b)
  | .scalar a, .vector bs => .vector (bs.map (arith op a))
  | .vector as, .scalar b => .vector (as.map fun a => arith op a b)
  | .vector as, .vector bs => .vector (List.zipWith (arith op) as bs)

def exprInt : Expr → Option Int
  | .arg a => intArg locals a
  | .prf _ _ _ => none

def exprAkv : Expr → Option Const
  | .arg a => constArg locals a
  | .prf op a b =>
      match constArg locals a, constArg locals b with
      | some c, some d => some (foldConst arith op c d)
      | _, _ => none

/-- `WLFvalidLocalId`, with the name of the assignment. -/
def validLocalId : Var → Option (Nat × IndexInfo)
  | .assigned assign => (locals[assign]?.bind Assigned.index).map fun info => (assign, info)
  | _ => none

/-- The element `sel` of an info, which is the first for scalars. -/
def IndexInfo.entry (info : IndexInfo) (i : Nat) : Option Entry :=
  info.entries[if info.vector = 0 then 0 else i]?

/-- `WLFlocateIndexVar`. -/
def locateIndexVar : Var → Int
  | .vec => -1
  | .index dim => dim + 1
  | .assigned _ => 0

/-- One element of `Scalar2ArrayIndex`: a constant, a transformed or a plain index scalar. -/
def scalarEntry (elem : Elem) : Option Entry :=
  let cval := intElem locals elem
  match elem with
  | .num _ => cval.map fun val => ⟨0, none, some val⟩
  | .id x =>
      match validLocalId locals x with
      | some (assign, ⟨0, entry :: _, _, _⟩) => some ⟨entry.permutation, some assign, cval⟩
      | _ =>
          if 0 < locateIndexVar x then some ⟨(locateIndexVar x).toNat, none, cval⟩
          else cval.map fun val => ⟨0, none, some val⟩

def scalar2ArrayIndex (elems : List Elem) : Option IndexInfo :=
  (elems.mapM (scalarEntry locals)).map fun entries => ⟨elems.length, entries, none, 0⟩

def vecInfo : IndexInfo :=
  ⟨rank, (List.range rank).map fun i => ⟨i + 1, none, none⟩, none, 0⟩

def createIndexInfoId : Var → Option IndexInfo
  | .vec => some (vecInfo rank)
  | .index dim => some ⟨0, [⟨dim + 1, none, none⟩], none, 0⟩
  | .assigned assign => (validLocalId locals (.assigned assign)).map Prod.snd

/-- A scalar function of a variable and a constant, which is argument `3 - argNo`. -/
def scalarInfo (op : Prf) (argNo : Nat) (cval : Int) (x : Var) : Option IndexInfo :=
  match validLocalId locals x with
  | some (assign, info) =>
      info.entries.head?.map fun entry =>
        ⟨0, [⟨entry.permutation, some assign, some cval⟩], some op, argNo⟩
  | none =>
      if locateIndexVar x = 0 then none
      else some ⟨0, [⟨(locateIndexVar x).toNat, none, some cval⟩], some op, argNo⟩

def createIndexInfoSxS (op : Prf) (a b : Arg) : Option IndexInfo :=
  match a, intArg locals b with
  | .id x, some cval => scalarInfo locals op 2 cval x
  | _, _ =>
      match b, intArg locals a with
      | .id x, some cval => scalarInfo locals op 1 cval x
      | _, _ => none

/-- The type of a primitive function of two integers. Its variant goes with the shapes of the
original arguments: all but `SxS` insist on a vector, so that there is no value. -/
def newTypeCheckExpr (shape1 shape2 : Option Shape) (op : Prf) (a b : Int) : Option Int :=
  if shape1 = some .scalar ∧ shape2 = some .scalar then some (arith op a b) else none

/-- A constant component is folded with `tmpinfo->const_arg[i]`; `tmpinfo` is `NULL` where the
operand is an array. The compiler stops when there is no value. -/
def foldComponent (shape1 shape2 : Option Shape) (op : Prf) (tmpinfo : Option IndexInfo)
    (i : Nat) (val : Int) : Option Entry := do
  let info ← tmpinfo
  let entry ← info.entries[i]?
  let old ← entry.constArg
  let folded ← newTypeCheckExpr arith shape1 shape2 op val old
  return ⟨0, none, some folded⟩

/-- `CreateIndexInfoA` after the constant argument is found: `none` if the compiler stops, `some
none` if there is no info. -/
def vectorInfo (shape1 shape2 : Option Shape) (op : Prf) (argNo : Nat) (constn : Const) :
    Arg → Option (Option IndexInfo)
  | .num _ => some none
  | .id .vec =>
      some (some ⟨rank, (List.range rank).map fun i => ⟨i + 1, none, some (constn.component i)⟩,
        some op, argNo⟩)
  | .id (.index _) => some none
  | .id (.assigned assign) =>
      match locals[assign]? with
      | some ⟨.vector elts, _, _, some tmpinfo⟩ =>
          ((List.range elts).mapM fun i =>
            tmpinfo.entries[i]?.bind fun entry =>
              if entry.permutation ≠ 0 then
                some ⟨entry.permutation, some assign, some (constn.component i)⟩
              else foldComponent arith shape1 shape2 op (some tmpinfo) i (constn.component i)).map
            fun entries => some ⟨elts, entries, some op, argNo⟩
      | _ => some none
  | .array elems =>
      match scalar2ArrayIndex locals elems with
      | none => some none
      | some iinfo =>
          ((List.range iinfo.vector).mapM fun i =>
            iinfo.entries[i]?.bind fun entry =>
              if entry.permutation ≠ 0 then
                some { entry with constArg := some (constn.component i) }
              else foldComponent arith shape1 shape2 op none i (constn.component i)).map
            fun entries => some { iinfo with entries := entries, mprf := some op, argNo := argNo }

def createIndexInfoA (shape1 shape2 : Option Shape) (op : Prf) (a b : Arg) :
    Option (Option IndexInfo) :=
  match constArg locals a, constArg locals b with
  | some constn, none => vectorInfo arith rank locals shape1 shape2 op 1 constn b
  | none, some constn => vectorInfo arith rank locals shape1 shape2 op 2 constn a
  | _, _ => some none

/-- `WLIlet`: the info of an assignment, `none` if the compiler stops. -/
def wliLet : Expr → Option (Option IndexInfo)
  | .arg (.num _) => some none
  | .arg (.id x) => some (createIndexInfoId rank locals x)
  | .arg (.array elems) => some (scalar2ArrayIndex locals elems)
  | .prf op a b =>
      let shape1 := argShape rank (locals.map Assigned.shape) a
      let shape2 := argShape rank (locals.map Assigned.shape) b
      if shape1 = some .scalar ∧ shape2 = some .scalar then
        some (createIndexInfoSxS locals op a b)
      else createIndexInfoA arith rank locals shape1 shape2 op a b

def wliAssign (l : Let) : Option (List Assigned) :=
  (wliLet arith rank locals l.expr).map fun index =>
    locals ++ [⟨l.shape, exprInt locals l.expr, exprAkv arith locals l.expr, index⟩]

/-- The traversal of a body, `none` if the compiler stops in it. -/
def wli (arith : Prf → Int → Int → Int) (rank : Nat) (body : List Let) : Option (List Assigned) :=
  body.foldlM (wliAssign arith rank) []

end Model

section Meaning

variable (arith : Prf → Int → Int → Int)

/-- The function of an info at a component, applied to what it continues. -/
def IndexInfo.apply (info : IndexInfo) (entry : Entry) (val : Int) : Option Int :=
  if info.argNo = 0 then some val
  else
    match info.mprf, entry.constArg with
    | some op, some const => some (if info.argNo = 1 then arith op const val else arith op val const)
    | _, _ => none

/-- The value of the chain of infos that starts at a component of an info. -/
inductive Evaluates (locals : List Assigned) (iv : Nat → Int) : IndexInfo → Nat → Int → Prop where
  | const {info i entry val} : info.entry i = some entry → entry.permutation = 0 →
      entry.constArg = some val → Evaluates locals iv info i val
  | base {info i entry dim val} : info.entry i = some entry → entry.permutation = dim + 1 →
      entry.last = none → info.apply arith entry (iv dim) = some val → Evaluates locals iv info i val
  | last {info i entry assign defined prev old val} : info.entry i = some entry →
      entry.permutation ≠ 0 → entry.last = some assign → locals[assign]? = some defined →
      defined.index = some prev → Evaluates locals iv prev i old →
      info.apply arith entry old = some val → Evaluates locals iv info i val

/-- Every attached info has the value of its variable in each component, and a component without an
index holds that value. -/
def Denotes (body : List Let) (locals : List Assigned) : Prop :=
  ∀ (n : Nat) assigned info, locals[n]? = some assigned → assigned.index = some info →
    ∀ iv i val, i < assigned.shape.extent → (evalBody arith iv body)[n]? = some val →
      Evaluates arith locals iv info i (val i) ∧
        ∀ entry, info.entry i = some entry → entry.permutation = 0 →
          entry.constArg = some (val i)

variable (rank : Nat)

/-- An operand with an info, one of whose components is a constant. -/
def constantComponent (locals : List Assigned) : Arg → Bool
  | .num _ => false
  | .id x =>
      match validLocalId locals x with
      | some (_, info) => info.entries.any fun entry => entry.permutation = 0
      | none => false
  | .array elems =>
      match scalar2ArrayIndex locals elems with
      | some info => info.entries.any fun entry => entry.permutation = 0
      | none => false

/-- No function of a vector and a constant has a vector with a constant component. -/
def foldFree (locals : List Assigned) : Expr → Bool
  | .arg _ => true
  | .prf _ a b =>
      if argShape rank (locals.map Assigned.shape) a = some .scalar ∧
          argShape rank (locals.map Assigned.shape) b = some .scalar then true
      else
        match constArg locals a, constArg locals b with
        | some _, none => !constantComponent locals b
        | none, some _ => !constantComponent locals a
        | _, _ => true

def foldFreeRun : List Assigned → List Let → Bool
  | _, [] => true
  | locals, l :: body =>
      foldFree rank locals l.expr &&
        match wliAssign arith rank locals l with
        | some locals' => foldFreeRun locals' body
        | none => true

end Meaning

end Sac2c.IndexInfos
