import Sac2c.UnrollingCount
import Mathlib.Data.Fintype.EquivFin
import Mathlib.Data.Set.Finite.Basic
import Mathlib.Logic.Relation
import Mathlib.Order.WellFounded

/-!
GetModifier of stdopt/SSALUR.c builds the expression of a variable from the definitions on the
prf stack, brings constants to the front and folds them. Nodes are made anew by every call; the
entries of the stack are changed in place. Integers do not overflow.
-/

namespace Sac2c.ModifierNormalisation

open UnrollingCount (Prf Expr)

section Model

variable {Var : Type}

/-- `struct int_or_var`. -/
inductive IntOrVar (Var : Type) where
  | int (num : Int)
  | var (var : Var)

/-- `struct prf_expr`; the predicate has no left-hand side. -/
structure PrfExpr (Var : Type) where
  lhs : Option Var
  func : Prf
  arg1 : IntOrVar Var
  arg2 : IntOrVar Var

variable [DecidableEq Var]

def prfExprFind (stack : List (PrfExpr Var)) (var : Var) : Option (PrfExpr Var) :=
  stack.find? fun pe => pe.lhs = some var

/-- The entry that PrfExprFind returns is written. -/
def writeEntry (stack : List (PrfExpr Var)) (var : Var) (entry : PrfExpr Var) :
    List (PrfExpr Var) :=
  match stack with
  | [] => []
  | pe :: rest => if pe.lhs = some var then entry :: rest else pe :: writeEntry rest var entry

/-- evaluate_i_i_prf. -/
def evaluateIIPrf (function : Prf) (arg1 arg2 : Int) : Option (Expr Var) :=
  match function with
  | .add => some (.num (arg1 + arg2))
  | .sub => some (.num (arg1 - arg2))
  | .mul => some (.num (arg1 * arg2))
  | .div => some (.num (arg1.tdiv arg2))
  | _ => none

/-- evaluate_i_p_prf. -/
def evaluateIPPrf (function : Prf) (arg1 : Int) (m : Expr Var) : Expr Var :=
  match m with
  | .prf func (.num v) x =>
      match function, func with
      | .add, .add => .prf .add (.num (v + arg1)) x
      | .add, .sub => .prf .sub (.num (v + arg1)) x
      | .sub, .add => .prf .sub (.num (arg1 - v)) x
      | .sub, .sub => .prf .add (.num (arg1 - v)) x
      | .mul, .add => .prf .add (.num (arg1 * v)) (.prf .mul (.num arg1) x)
      | .mul, .sub => .prf .sub (.num (arg1 * v)) (.prf .mul (.num arg1) x)
      | .mul, .mul => .prf .mul (.num (arg1 * v)) (.prf .mul (.num arg1) x)
      | _, _ => .prf function (.num arg1) m
  | _ => .prf function (.num arg1) m

/-- A constant second argument comes first, `x - c` becomes `-c + x`. -/
def PrfExpr.swapped (pe : PrfExpr Var) : PrfExpr Var :=
  match pe.arg1, pe.arg2 with
  | .var x, .int c =>
      match pe.func with
      | .add => { pe with arg1 := .int c, arg2 := .var x }
      | .mul => { pe with arg1 := .int c, arg2 := .var x }
      | .sub => { pe with func := .add, arg1 := .int (-c), arg2 := .var x }
      | _ => pe
  | _, _ => pe

/-- The constant `c` in front of the expression `m` of the other argument. -/
def foldFirst (func : Prf) (c : Int) (m : Expr Var) : Option (Expr Var) :=
  match m with
  | .num n => evaluateIIPrf func c n
  | .prf _ _ _ => some (evaluateIPPrf func c m)
  | .id _ => some (.prf func (.num c) m)

/-- GetModifier with loopvars FALSE: the expression and the stack afterwards. -/
def getModifier : Nat → List (PrfExpr Var) → Var → Option (Expr Var × List (PrfExpr Var))
  | 0, _, _ => none
  | fuel + 1, stack, var =>
      match prfExprFind stack var with
      -- A variable that is not on the stack is external.
      | none => some (.id var, stack)
      | some pe =>
          match pe.arg1, pe.arg2 with
          | .int a, .int b => (evaluateIIPrf pe.func a b).map fun res => (res, stack)
          | _, _ =>
              let pe := pe.swapped
              let stack := writeEntry stack var pe
              match pe.arg1, pe.arg2 with
              | .int c, .var x => do
                  let (m, stack) ← getModifier fuel stack x
                  let res ← foldFirst pe.func c m
                  return (res, stack)
              | .var x, .int c => do
                  let (a1, stack) ← getModifier fuel stack x
                  return (.prf pe.func a1 (.num c), stack)
              | .var x, .var y => do
                  let (a1, stack) ← getModifier fuel stack x
                  let (a2, stack) ← getModifier fuel stack y
                  return (.prf pe.func a1 a2, stack)
              | .int _, .int _ => none

/-- Calls of GetModifier one after the other on one stack. -/
def getModifiers (fuel : Nat) : List (PrfExpr Var) → List Var →
    Option (List (Expr Var) × List (PrfExpr Var))
  | stack, [] => some ([], stack)
  | stack, var :: vars => do
      let (res, stack) ← getModifier fuel stack var
      let (ress, stack) ← getModifiers fuel stack vars
      return (res :: ress, stack)

end Model

section Meaning

variable {Var : Type}

def IntOrVar.value (val : Var → Int) : IntOrVar Var → Int
  | int num => num
  | var v => val v

def IntOrVar.Mentions : IntOrVar Var → Var → Prop
  | int _, _ => False
  | var v, x => v = x

def PrfExpr.value (pe : PrfExpr Var) (val : Var → Int) : Int :=
  pe.func.eval (pe.arg1.value val) (pe.arg2.value val)

def PrfExpr.Mentions (pe : PrfExpr Var) (x : Var) : Prop :=
  pe.arg1.Mentions x ∨ pe.arg2.Mentions x

variable [DecidableEq Var]

/-- `x` is used in the definition of `v`. -/
def Uses (stack : List (PrfExpr Var)) (x v : Var) : Prop :=
  ∃ pe, prfExprFind stack v = some pe ∧ pe.Mentions x

def Acyclic (stack : List (PrfExpr Var)) : Prop :=
  ∀ v, ¬ Relation.TransGen (Uses stack) v v

/-- Every definition of a variable is a sum, a difference, a product or a quotient. -/
def Arithmetic (stack : List (PrfExpr Var)) : Prop :=
  ∀ v pe, prfExprFind stack v = some pe →
    pe.func = .add ∨ pe.func = .sub ∨ pe.func = .mul ∨ pe.func = .div

/-- The values of all variables where the external ones have those of `env`. -/
structure Solves (stack : List (PrfExpr Var)) (env val : Var → Int) : Prop where
  external : ∀ v, prfExprFind stack v = none → val v = env v
  defined : ∀ v pe, prfExprFind stack v = some pe → val v = pe.value val

end Meaning

section Shapes

variable {Var : Type}

/-- What the rules look at: a number, a constant plus or minus something, a constant times
something, or anything else. -/
inductive Shape where
  | number
  | sum
  | product
  | other
  deriving DecidableEq

/-- The shape of a function with a constant in front. -/
def frontShape : Prf → Shape
  | .add => .sum
  | .sub => .sum
  | .mul => .product
  | _ => .other

def exprShape : Expr Var → Shape
  | .num _ => .number
  | .prf func (.num _) _ => frontShape func
  | _ => .other

/-- A constant in front of an operand of the given shape. -/
def foldedShape (func : Prf) : Shape → Shape
  | .number => .number
  | .sum => if func = .mul then .sum else frontShape func
  | _ => frontShape func

variable [DecidableEq Var]

/-- The shape of a variable, read off the definitions. -/
inductive HasShape (stack : List (PrfExpr Var)) : Var → Shape → Prop
  | external {v : Var} (absent : prfExprFind stack v = none) : HasShape stack v .other
  | constants {v : Var} {pe : PrfExpr Var} {a b : Int} (found : prfExprFind stack v = some pe)
      (first : pe.arg1 = .int a) (second : pe.arg2 = .int b) : HasShape stack v .number
  | front {v x : Var} {pe : PrfExpr Var} {c : Int} {shape : Shape}
      (found : prfExprFind stack v = some pe) (first : pe.swapped.arg1 = .int c)
      (second : pe.swapped.arg2 = .var x) (operand : HasShape stack x shape) :
      HasShape stack v (foldedShape pe.swapped.func shape)
  | plain {v x : Var} {pe : PrfExpr Var} {shape : Shape} (found : prfExprFind stack v = some pe)
      (first : pe.swapped.arg1 = .var x) (operand : HasShape stack x shape) :
      HasShape stack v (if shape = .number then frontShape pe.swapped.func else .other)

/-- The expression of a variable, whatever the order of the calls. -/
inductive Normal (stack : List (PrfExpr Var)) : Var → Expr Var → Prop
  | external {v : Var} (absent : prfExprFind stack v = none) : Normal stack v (.id v)
  | constants {v : Var} {pe : PrfExpr Var} {a b : Int} {e : Expr Var}
      (found : prfExprFind stack v = some pe) (first : pe.arg1 = .int a) (second : pe.arg2 = .int b)
      (folded : evaluateIIPrf pe.func a b = some e) : Normal stack v e
  | front {v x : Var} {pe : PrfExpr Var} {c : Int} {m e : Expr Var}
      (found : prfExprFind stack v = some pe) (first : pe.swapped.arg1 = .int c)
      (second : pe.swapped.arg2 = .var x) (operand : Normal stack x m)
      (folded : foldFirst pe.swapped.func c m = some e) : Normal stack v e
  | behind {v x : Var} {pe : PrfExpr Var} {c : Int} {a1 : Expr Var}
      (found : prfExprFind stack v = some pe) (first : pe.swapped.arg1 = .var x)
      (second : pe.swapped.arg2 = .int c) (operand : Normal stack x a1) :
      Normal stack v (.prf pe.swapped.func a1 (.num c))
  | both {v x y : Var} {pe : PrfExpr Var} {a1 a2 : Expr Var}
      (found : prfExprFind stack v = some pe) (first : pe.swapped.arg1 = .var x)
      (second : pe.swapped.arg2 = .var y) (operand1 : Normal stack x a1)
      (operand2 : Normal stack y a2) : Normal stack v (.prf pe.swapped.func a1 a2)

end Shapes

section Swaps

variable {Var : Type}

theorem swapped_lhs (pe : PrfExpr Var) : pe.swapped.lhs = pe.lhs := by
  obtain ⟨lhs, func, arg1, arg2⟩ := pe
  cases arg1 <;> cases arg2 <;> cases func <;> rfl

theorem swapped_swapped (pe : PrfExpr Var) : pe.swapped.swapped = pe.swapped := by
  obtain ⟨lhs, func, arg1, arg2⟩ := pe
  cases arg1 <;> cases arg2 <;> cases func <;> rfl

theorem swapped_value (val : Var → Int) (pe : PrfExpr Var) :
    pe.swapped.value val = pe.value val := by
  obtain ⟨lhs, func, arg1, arg2⟩ := pe
  cases arg1 with
  | int a => rfl
  | var x =>
      cases arg2 with
      | var y => rfl
      | int c =>
          cases func with
          | add => exact Int.add_comm c (val x)
          | mul => exact Int.mul_comm c (val x)
          | sub =>
              show -c + val x = val x - c
              omega
          | le => rfl
          | lt => rfl
          | ge => rfl
          | gt => rfl
          | neq => rfl
          | div => rfl

/-- The arguments of an entry once it is swapped. -/
theorem swapped_cases (pe : PrfExpr Var) :
    (∃ a b, pe.arg1 = .int a ∧ pe.arg2 = .int b) ∨
    (∃ c x, pe.swapped.arg1 = .int c ∧ pe.swapped.arg2 = .var x ∧ pe.Mentions x) ∨
    (∃ x c, pe.swapped.arg1 = .var x ∧ pe.swapped.arg2 = .int c ∧ pe.Mentions x) ∨
    ∃ x y, pe.swapped.arg1 = .var x ∧ pe.swapped.arg2 = .var y ∧ pe.Mentions x ∧
      pe.Mentions y := by
  obtain ⟨lhs, func, arg1, arg2⟩ := pe
  cases arg1 with
  | int a =>
      cases arg2 with
      | int b => exact .inl ⟨a, b, rfl, rfl⟩
      | var x => exact .inr (.inl ⟨a, x, rfl, rfl, .inr rfl⟩)
  | var x =>
      cases arg2 with
      | var y => exact .inr (.inr (.inr ⟨x, y, rfl, rfl, .inl rfl, .inr rfl⟩))
      | int c =>
          cases func with
          | add => exact .inr (.inl ⟨c, x, rfl, rfl, .inl rfl⟩)
          | mul => exact .inr (.inl ⟨c, x, rfl, rfl, .inl rfl⟩)
          | sub => exact .inr (.inl ⟨-c, x, rfl, rfl, .inl rfl⟩)
          | le => exact .inr (.inr (.inl ⟨x, c, rfl, rfl, .inl rfl⟩))
          | lt => exact .inr (.inr (.inl ⟨x, c, rfl, rfl, .inl rfl⟩))
          | ge => exact .inr (.inr (.inl ⟨x, c, rfl, rfl, .inl rfl⟩))
          | gt => exact .inr (.inr (.inl ⟨x, c, rfl, rfl, .inl rfl⟩))
          | neq => exact .inr (.inr (.inl ⟨x, c, rfl, rfl, .inl rfl⟩))
          | div => exact .inr (.inr (.inl ⟨x, c, rfl, rfl, .inl rfl⟩))

/-- What calls leave of an entry. -/
def Swap (pe pe' : PrfExpr Var) : Prop := pe' = pe ∨ pe' = pe.swapped

theorem Swap.swapped_eq {pe pe' : PrfExpr Var} (swap : Swap pe pe') :
    pe'.swapped = pe.swapped := by
  rcases swap with same | swapped
  · rw [same]
  · rw [swapped, swapped_swapped]

theorem Swap.lhs_eq {pe pe' : PrfExpr Var} (swap : Swap pe pe') : pe'.lhs = pe.lhs := by
  rcases swap with same | swapped
  · rw [same]
  · rw [swapped, swapped_lhs]

theorem constants_swapped {pe : PrfExpr Var} {a : Int} (first : pe.arg1 = .int a) :
    pe.swapped = pe := by
  unfold PrfExpr.swapped
  rw [first]

theorem Swap.constants {pe pe' : PrfExpr Var} (swap : Swap pe pe') {a : Int}
    (first : pe.arg1 = .int a) : pe' = pe := by
  rcases swap with same | swapped
  · exact same
  · rw [swapped, constants_swapped first]

variable [DecidableEq Var] {stack stack' : List (PrfExpr Var)}

/-- A stack after some calls. -/
def SwapStack (stack stack' : List (PrfExpr Var)) : Prop := List.Forall₂ Swap stack stack'

omit [DecidableEq Var] in
theorem swap_stack_refl (stack : List (PrfExpr Var)) : SwapStack stack stack :=
  List.forall₂_same.mpr fun _ _ => .inl rfl

theorem SwapStack.find_none (swaps : SwapStack stack stack') {v : Var}
    (absent : prfExprFind stack v = none) : prfExprFind stack' v = none := by
  induction swaps with
  | nil => rfl
  | @cons pe pe' rest rest' swap swaps ih =>
      simp only [prfExprFind, List.find?_cons] at absent ⊢
      rw [swap.lhs_eq]
      by_cases here : pe.lhs = some v
      · simp [here] at absent
      · simp only [here, decide_false] at absent ⊢
        exact ih absent

theorem SwapStack.find_some (swaps : SwapStack stack stack') {v : Var} {pe : PrfExpr Var}
    (found : prfExprFind stack v = some pe) :
    ∃ pe', prfExprFind stack' v = some pe' ∧ Swap pe pe' := by
  induction swaps with
  | nil => simp [prfExprFind] at found
  | @cons head head' rest rest' swap swaps ih =>
      simp only [prfExprFind, List.find?_cons] at found ⊢
      rw [swap.lhs_eq]
      by_cases here : head.lhs = some v
      · simp only [here, decide_true, Option.some.injEq] at found ⊢
        subst found
        exact ⟨head', rfl, swap⟩
      · simp only [here, decide_false] at found ⊢
        exact ih found

theorem SwapStack.write (swaps : SwapStack stack stack') {v : Var} {pe : PrfExpr Var}
    (found : prfExprFind stack v = some pe) :
    SwapStack stack (writeEntry stack' v pe.swapped) := by
  induction swaps with
  | nil => simp [prfExprFind] at found
  | @cons head head' rest rest' swap swaps ih =>
      simp only [prfExprFind, List.find?_cons] at found
      by_cases here : head.lhs = some v
      · simp only [here, decide_true, Option.some.injEq] at found
        subst found
        rw [writeEntry, if_pos (swap.lhs_eq.trans here)]
        exact .cons (.inr rfl) swaps
      · simp only [here, decide_false] at found
        rw [writeEntry, if_neg (swap.lhs_eq ▸ here)]
        exact .cons swap (ih found)

end Swaps

section Calls

variable {Var : Type} [DecidableEq Var] {stack : List (PrfExpr Var)} {v : Var} {pe : PrfExpr Var}

theorem get_modifier_external (fuel : Nat) (absent : prfExprFind stack v = none) :
    getModifier (fuel + 1) stack v = some (.id v, stack) := by
  rw [getModifier, absent]

theorem get_modifier_constants (fuel : Nat) {a b : Int} (found : prfExprFind stack v = some pe)
    (first : pe.arg1 = .int a) (second : pe.arg2 = .int b) :
    getModifier (fuel + 1) stack v = (evaluateIIPrf pe.func a b).map fun res => (res, stack) := by
  rw [getModifier, found]
  simp only [first, second]

/-- Only entries with two constants are not swapped. -/
theorem get_modifier_swapped (fuel : Nat) (found : prfExprFind stack v = some pe) {x : Var}
    (mentions : pe.swapped.arg1 = .var x ∨ pe.swapped.arg2 = .var x) :
    getModifier (fuel + 1) stack v =
      match pe.swapped.arg1, pe.swapped.arg2 with
      | .int c, .var x => do
          let (m, stack) ← getModifier fuel (writeEntry stack v pe.swapped) x
          let res ← foldFirst pe.swapped.func c m
          return (res, stack)
      | .var x, .int c => do
          let (a1, stack) ← getModifier fuel (writeEntry stack v pe.swapped) x
          return (.prf pe.swapped.func a1 (.num c), stack)
      | .var x, .var y => do
          let (a1, stack) ← getModifier fuel (writeEntry stack v pe.swapped) x
          let (a2, stack) ← getModifier fuel stack y
          return (.prf pe.swapped.func a1 a2, stack)
      | .int _, .int _ => none := by
  rw [getModifier, found]
  obtain ⟨lhs, func, arg1, arg2⟩ := pe
  cases arg1 with
  | int a =>
      cases arg2 with
      | int b => rcases mentions with none | none <;> cases none
      | var y => rfl
  | var y =>
      cases arg2 with
      | int b => rfl
      | var z => rfl

omit [DecidableEq Var] in
theorem evaluate_i_i_arithmetic {func : Prf}
    (arithmetic : func = .add ∨ func = .sub ∨ func = .mul ∨ func = .div) (a b : Int) :
    (evaluateIIPrf func a b : Option (Expr Var)) = some (.num (func.eval a b)) := by
  rcases arithmetic with rfl | rfl | rfl | rfl <;> rfl

omit [DecidableEq Var] in
theorem swapped_arithmetic
    (arithmetic : pe.func = .add ∨ pe.func = .sub ∨ pe.func = .mul ∨ pe.func = .div) :
    pe.swapped.func = .add ∨ pe.swapped.func = .sub ∨ pe.swapped.func = .mul ∨
      pe.swapped.func = .div := by
  obtain ⟨lhs, func, arg1, arg2⟩ := pe
  rcases arithmetic with same | same | same | same <;> cases same <;>
    cases arg1 <;> cases arg2 <;> simp [PrfExpr.swapped]

omit [DecidableEq Var] in
theorem fold_first_arithmetic {func : Prf}
    (arithmetic : func = .add ∨ func = .sub ∨ func = .mul ∨ func = .div) (c : Int)
    (m : Expr Var) : ∃ e, foldFirst func c m = some e := by
  cases m with
  | num n => exact ⟨_, evaluate_i_i_arithmetic arithmetic c n⟩
  | id x => exact ⟨_, rfl⟩
  | prf op arg1 arg2 => exact ⟨_, rfl⟩

/-- Enough fuel for a variable: every later stack gives an expression of it. -/
def Finishes (stack : List (PrfExpr Var)) (fuel : Nat) (v : Var) : Prop :=
  ∀ stack', SwapStack stack stack' → ∃ e stack'', getModifier fuel stack' v = some (e, stack'') ∧
    Normal stack v e ∧ SwapStack stack stack''

theorem finishes_step (arithmetic : Arithmetic stack) (fuel : Nat)
    (operands : ∀ x, Uses stack x v → Finishes stack fuel x) : Finishes stack (fuel + 1) v := by
  intro stack' swaps
  cases found : prfExprFind stack v with
  | none =>
      exact ⟨_, _, get_modifier_external fuel (swaps.find_none found), .external found, swaps⟩
  | some pe =>
      obtain ⟨pe', found', swap⟩ := swaps.find_some found
      have kept : SwapStack stack (writeEntry stack' v pe'.swapped) := by
        rw [swap.swapped_eq]
        exact swaps.write found
      have used : ∀ {x}, pe.Mentions x → Finishes stack fuel x :=
        fun mentions => operands _ ⟨pe, found, mentions⟩
      have functions := swapped_arithmetic (arithmetic v pe found)
      rcases swapped_cases pe with ⟨a, b, first, second⟩ | ⟨c, x, first, second, mentions⟩ |
        ⟨x, c, first, second, mentions⟩ | ⟨x, y, first, second, mentions1, mentions2⟩
      · have same := swap.constants first
        subst same
        have folded : (evaluateIIPrf pe'.func a b : Option (Expr Var)) =
            some (.num (pe'.func.eval a b)) :=
          evaluate_i_i_arithmetic (arithmetic v pe' found) a b
        refine ⟨_, _, ?_, .constants found first second folded, swaps⟩
        rw [get_modifier_constants fuel found' first second, folded]
        rfl
      · obtain ⟨m, stack'', operand, normal, later⟩ := used mentions _ kept
        obtain ⟨e, folded⟩ := fold_first_arithmetic functions c m
        refine ⟨e, stack'', ?_, .front found first second normal folded, later⟩
        rw [get_modifier_swapped fuel found' (.inr (swap.swapped_eq ▸ second))]
        simp only [swap.swapped_eq] at operand ⊢
        simp [first, second, operand, folded]
      · obtain ⟨a1, stack'', operand, normal, later⟩ := used mentions _ kept
        refine ⟨_, stack'', ?_, .behind found first second normal, later⟩
        rw [get_modifier_swapped fuel found' (.inl (swap.swapped_eq ▸ first))]
        simp only [swap.swapped_eq] at operand ⊢
        simp [first, second, operand]
      · obtain ⟨a1, stack1, operand1, normal1, later1⟩ := used mentions1 _ kept
        obtain ⟨a2, stack2, operand2, normal2, later2⟩ := used mentions2 _ later1
        refine ⟨_, stack2, ?_, .both found first second normal1 normal2, later2⟩
        rw [get_modifier_swapped fuel found' (.inl (swap.swapped_eq ▸ first))]
        simp only [swap.swapped_eq] at operand1 ⊢
        simp [first, second, operand1, operand2]

theorem uses_defined {x : Var} (uses : Uses stack x v) :
    v ∈ stack.filterMap fun pe => pe.lhs := by
  obtain ⟨pe, found, _⟩ := uses
  have lhs : pe.lhs = some v := by
    have := List.find?_some found
    simpa using this
  exact List.mem_filterMap.mpr ⟨pe, List.mem_of_find?_eq_some found, lhs⟩

/-- Finitely many definitions without a cycle are well founded. -/
theorem acyclic_well_founded (acyclic : Acyclic stack) : WellFounded (Uses stack) := by
  let Defined := { v // v ∈ stack.filterMap fun pe : PrfExpr Var => pe.lhs }
  let below : Defined → Defined → Prop := fun x v => Relation.TransGen (Uses stack) x.1 v.1
  have transitive : IsTrans Defined below := ⟨fun _ _ _ left right => left.trans right⟩
  have irreflexive : Std.Irrefl below := ⟨fun v => acyclic v.1⟩
  have founded : WellFounded below := Finite.wellFounded_of_trans_of_irrefl below
  -- Variables that are not defined use nothing.
  have accessible : ∀ v : Defined, Acc (Uses stack) v.1 := by
    intro v
    induction v using founded.induction with
    | _ v ih =>
        constructor
        intro x uses
        by_cases defined : x ∈ stack.filterMap fun pe : PrfExpr Var => pe.lhs
        · exact ih ⟨x, defined⟩ (.single uses)
        · exact ⟨x, fun y uses => absurd (uses_defined uses) defined⟩
  constructor
  intro v
  by_cases defined : v ∈ stack.filterMap fun pe : PrfExpr Var => pe.lhs
  · exact accessible ⟨v, defined⟩
  · exact ⟨v, fun y uses => absurd (uses_defined uses) defined⟩

theorem acyclic_of_rank (rank : Var → Nat) (below : ∀ x v, Uses stack x v → rank x < rank v) :
    Acyclic stack := by
  have later : ∀ {x v}, Relation.TransGen (Uses stack) x v → rank x < rank v := by
    intro x v path
    induction path with
    | single uses => exact below _ _ uses
    | tail _ uses ih => exact ih.trans (below _ _ uses)
  intro v cycle
  exact absurd (later cycle) (Nat.lt_irrefl _)

/-- An entry mentions at most two variables, whose fuel is bounded. -/
theorem bounded_operands (operands : ∀ x, Uses stack x v → ∃ least, ∀ fuel, least ≤ fuel →
    Finishes stack fuel x) :
    ∃ least, ∀ fuel, least ≤ fuel → ∀ x, Uses stack x v → Finishes stack fuel x := by
  have bound : ∀ arg : IntOrVar Var, (∀ x, arg.Mentions x → Uses stack x v) →
      ∃ least, ∀ fuel, least ≤ fuel → ∀ x, arg.Mentions x → Finishes stack fuel x := by
    intro arg uses
    cases arg with
    | int num => exact ⟨0, fun _ _ x mentions => mentions.elim⟩
    | var y =>
        obtain ⟨least, finishes⟩ := operands y (uses y rfl)
        refine ⟨least, ?_⟩
        intro fuel enough x mentions
        cases mentions
        exact finishes fuel enough
  cases found : prfExprFind stack v with
  | none =>
      refine ⟨0, ?_⟩
      intro fuel _ x uses
      obtain ⟨pe, present, _⟩ := uses
      rw [found] at present
      cases present
  | some pe =>
      obtain ⟨least1, finishes1⟩ := bound pe.arg1 fun x mentions => ⟨pe, found, .inl mentions⟩
      obtain ⟨least2, finishes2⟩ := bound pe.arg2 fun x mentions => ⟨pe, found, .inr mentions⟩
      refine ⟨max least1 least2, ?_⟩
      intro fuel enough x uses
      obtain ⟨pe', present, mentions⟩ := uses
      rw [found] at present
      cases present
      rcases mentions with first | second
      · exact finishes1 fuel (le_of_max_le_left enough) x first
      · exact finishes2 fuel (le_of_max_le_right enough) x second

theorem finishes (acyclic : Acyclic stack) (arithmetic : Arithmetic stack) (v : Var) :
    ∃ least, ∀ fuel, least ≤ fuel → Finishes stack fuel v := by
  induction v using (acyclic_well_founded acyclic).induction with
  | _ v ih =>
      obtain ⟨least, operands⟩ := bounded_operands ih
      refine ⟨least + 1, ?_⟩
      intro fuel enough
      obtain ⟨fuel, rfl⟩ := Nat.exists_eq_add_of_le' (show 1 ≤ fuel by omega)
      exact finishes_step arithmetic fuel (operands fuel (by omega))

/-- Any calls on one stack end, and give every variable its expression. -/
theorem calls_finish (acyclic : Acyclic stack) (arithmetic : Arithmetic stack)
    (vars : List Var) : ∃ least, ∀ fuel, least ≤ fuel → ∀ stack', SwapStack stack stack' →
      ∃ es stack'', getModifiers fuel stack' vars = some (es, stack'') ∧
        List.Forall₂ (Normal stack) vars es := by
  induction vars with
  | nil => exact ⟨0, fun _ _ stack' _ => ⟨[], stack', rfl, .nil⟩⟩
  | cons var vars ih =>
      obtain ⟨least1, first⟩ := finishes acyclic arithmetic var
      obtain ⟨least2, rest⟩ := ih
      refine ⟨max least1 least2, ?_⟩
      intro fuel enough stack' swaps
      obtain ⟨e, stack1, call, normal, later⟩ :=
        first fuel (le_of_max_le_left enough) stack' swaps
      obtain ⟨es, stack2, calls, normals⟩ :=
        rest fuel (le_of_max_le_right enough) stack1 later
      refine ⟨e :: es, stack2, ?_, .cons normal normals⟩
      simp [getModifiers, call, calls]

end Calls

section Values

variable {Var : Type}

theorem evaluate_i_i_shape {func : Prf} {a b : Int} {e : Expr Var}
    (folded : evaluateIIPrf func a b = some e) : ∃ n, e = .num n ∧ n = func.eval a b := by
  cases func <;> cases folded <;> exact ⟨_, rfl, rfl⟩

/-- A constant in front has the value of the function, but for a product in a product. -/
theorem evaluate_i_p_eval (env : Var → Int) (func : Prf) (c : Int) (m : Expr Var) :
    (evaluateIPPrf func c m).eval env =
      if func = .mul ∧ exprShape m = .product then c * (c * m.eval env)
      else func.eval c (m.eval env) := by
  unfold evaluateIPPrf
  split
  · rename_i op v x
    split
    · simp [Expr.eval, Prf.eval]
      ring
    · simp [Expr.eval, Prf.eval]
      ring
    · simp [Expr.eval, Prf.eval]
      ring
    · simp [Expr.eval, Prf.eval]
      ring
    · simp [Expr.eval, Prf.eval, exprShape, frontShape]
      ring
    · simp [Expr.eval, Prf.eval, exprShape, frontShape]
      ring
    · simp [Expr.eval, Prf.eval, exprShape, frontShape]
      ring
    · rename_i notMul
      have other : ¬ (func = .mul ∧ exprShape (.prf op (.num v) x) = .product) := by
        rintro ⟨rfl, product⟩
        cases op <;> first | exact notMul rfl rfl | cases product
      rw [if_neg other]
      rfl
  · rename_i notFront
    have other : ¬ (func = .mul ∧ exprShape m = .product) := by
      rintro ⟨_, product⟩
      cases m with
      | num n => cases product
      | id x => cases product
      | prf op arg1 arg2 =>
          cases arg1 with
          | num v => exact notFront op v arg2 rfl
          | id x => cases product
          | prf op1 arg11 arg12 => cases product
    rw [if_neg other]
    rfl

theorem evaluate_i_p_shape (func : Prf) (c : Int) (m : Expr Var)
    (expression : exprShape m ≠ .number) :
    exprShape (evaluateIPPrf func c m) = foldedShape func (exprShape m) := by
  cases m with
  | num n => exact absurd rfl expression
  | id x => cases func <;> rfl
  | prf op arg1 arg2 =>
      cases arg1 with
      | num v => cases func <;> cases op <;> rfl
      | id x => cases func <;> rfl
      | prf op1 arg11 arg12 => cases func <;> rfl

theorem fold_first_eval (env : Var → Int) {func : Prf} {c : Int} {m e : Expr Var}
    (folded : foldFirst func c m = some e) :
    e.eval env = if func = .mul ∧ exprShape m = .product then c * (c * m.eval env)
      else func.eval c (m.eval env) := by
  cases m with
  | num n =>
      obtain ⟨result, rfl, value⟩ := evaluate_i_i_shape folded
      simpa [exprShape, Expr.eval] using value
  | id x =>
      cases folded
      simp [exprShape, Expr.eval]
  | prf op arg1 arg2 =>
      cases folded
      exact evaluate_i_p_eval env func c _

theorem fold_first_shape {func : Prf} {c : Int} {m e : Expr Var}
    (folded : foldFirst func c m = some e) : exprShape e = foldedShape func (exprShape m) := by
  cases m with
  | num n =>
      obtain ⟨result, rfl, _⟩ := evaluate_i_i_shape folded
      rfl
  | id x =>
      cases folded
      cases func <;> rfl
  | prf op arg1 arg2 =>
      cases folded
      apply evaluate_i_p_shape
      cases arg1 <;> cases op <;> simp [exprShape, frontShape]

theorem plain_shape (func : Prf) (a1 a2 : Expr Var) :
    exprShape (.prf func a1 a2) = if exprShape a1 = .number then frontShape func else .other := by
  cases a1 with
  | num n => rfl
  | id x => rfl
  | prf op arg1 arg2 =>
      have expression : exprShape (.prf op arg1 arg2) ≠ .number := by
        cases arg1 <;> cases op <;> simp [exprShape, frontShape]
      rw [if_neg expression]
      rfl

variable [DecidableEq Var] {stack : List (PrfExpr Var)} {env val : Var → Int}

/-- Every expression has the shape that the definitions tell. -/
theorem Normal.shape {v : Var} {e : Expr Var} (normal : Normal stack v e) :
    HasShape stack v (exprShape e) := by
  induction normal with
  | external absent => exact .external absent
  | constants found first second folded =>
      obtain ⟨n, rfl, _⟩ := evaluate_i_i_shape folded
      exact .constants found first second
  | front found first second operand folded ih =>
      rw [fold_first_shape folded]
      exact .front found first second ih
  | behind found first second operand ih =>
      rw [plain_shape]
      exact .plain found first ih
  | both found first second operand1 operand2 ih1 ih2 =>
      rw [plain_shape]
      exact .plain found first ih1

/-- The shape of a definition by its arguments in order. -/
def ShapeOf (stack : List (PrfExpr Var)) (func : Prf) (shape : Shape) :
    IntOrVar Var → IntOrVar Var → Prop
  | .int _, .int _ => shape = .number
  | .int _, .var x => ∃ inner, HasShape stack x inner ∧ shape = foldedShape func inner
  | .var x, _ => ∃ inner, HasShape stack x inner ∧
      shape = if inner = .number then frontShape func else .other

theorem HasShape.external_inv {v : Var} {shape : Shape} (absent : prfExprFind stack v = none)
    (has : HasShape stack v shape) : shape = .other := by
  cases has with
  | external _ => rfl
  | constants found _ _ => simp [absent] at found
  | front found _ _ _ => simp [absent] at found
  | plain found _ _ => simp [absent] at found

theorem HasShape.found_inv {v : Var} {pe : PrfExpr Var} {shape : Shape}
    (found : prfExprFind stack v = some pe) (has : HasShape stack v shape) :
    ShapeOf stack pe.swapped.func shape pe.swapped.arg1 pe.swapped.arg2 := by
  cases has with
  | external absent => simp [absent] at found
  | constants found' first second =>
      cases found.symm.trans found'
      rw [constants_swapped first, first, second]
      rfl
  | front found' first second operand =>
      cases found.symm.trans found'
      rw [first, second]
      exact ⟨_, operand, rfl⟩
  | plain found' first operand =>
      cases found.symm.trans found'
      rw [first]
      exact ⟨_, operand, rfl⟩

theorem HasShape.unique {v : Var} {shape shape' : Shape} (left : HasShape stack v shape)
    (right : HasShape stack v shape') : shape = shape' := by
  induction left generalizing shape' with
  | external absent => exact (right.external_inv absent).symm
  | constants found first second =>
      have inverted := right.found_inv found
      rw [constants_swapped first, first, second] at inverted
      exact inverted.symm
  | front found first second operand ih =>
      have inverted := right.found_inv found
      rw [first, second] at inverted
      obtain ⟨inner, operand', rfl⟩ := inverted
      rw [ih operand']
  | plain found first operand ih =>
      have inverted := right.found_inv found
      rw [first] at inverted
      obtain ⟨inner, operand', rfl⟩ := inverted
      rw [ih operand']

/-- The expression of a definition by its arguments in order. -/
def NormalOf (stack : List (PrfExpr Var)) (func : Prf) (e : Expr Var) :
    IntOrVar Var → IntOrVar Var → Prop
  | .int a, .int b => evaluateIIPrf func a b = some e
  | .int c, .var x => ∃ m, Normal stack x m ∧ foldFirst func c m = some e
  | .var x, .int c => ∃ a1, Normal stack x a1 ∧ e = .prf func a1 (.num c)
  | .var x, .var y => ∃ a1 a2, Normal stack x a1 ∧ Normal stack y a2 ∧ e = .prf func a1 a2

theorem Normal.external_inv {v : Var} {e : Expr Var} (absent : prfExprFind stack v = none)
    (normal : Normal stack v e) : e = .id v := by
  cases normal with
  | external _ => rfl
  | constants found _ _ _ => simp [absent] at found
  | front found _ _ _ _ => simp [absent] at found
  | behind found _ _ _ => simp [absent] at found
  | both found _ _ _ _ => simp [absent] at found

theorem Normal.found_inv {v : Var} {pe : PrfExpr Var} {e : Expr Var}
    (found : prfExprFind stack v = some pe) (normal : Normal stack v e) :
    NormalOf stack pe.swapped.func e pe.swapped.arg1 pe.swapped.arg2 := by
  cases normal with
  | external absent => simp [absent] at found
  | constants found' first second folded =>
      cases found.symm.trans found'
      rw [constants_swapped first, first, second]
      exact folded
  | front found' first second operand folded =>
      cases found.symm.trans found'
      rw [first, second]
      exact ⟨_, operand, folded⟩
  | behind found' first second operand =>
      cases found.symm.trans found'
      rw [first, second]
      exact ⟨_, operand, rfl⟩
  | both found' first second operand1 operand2 =>
      cases found.symm.trans found'
      rw [first, second]
      exact ⟨_, _, operand1, operand2, rfl⟩

/-- Whatever the stack has become, a variable has one expression. -/
theorem Normal.unique {v : Var} {e e' : Expr Var} (left : Normal stack v e)
    (right : Normal stack v e') : e = e' := by
  induction left generalizing e' with
  | external absent => exact (right.external_inv absent).symm
  | constants found first second folded =>
      have inverted := right.found_inv found
      rw [constants_swapped first, first, second] at inverted
      exact Option.some.inj (folded.symm.trans inverted)
  | front found first second operand folded ih =>
      have inverted := right.found_inv found
      rw [first, second] at inverted
      obtain ⟨m, operand', folded'⟩ := inverted
      cases ih operand'
      exact Option.some.inj (folded.symm.trans folded')
  | behind found first second operand ih =>
      have inverted := right.found_inv found
      rw [first, second] at inverted
      obtain ⟨a1, operand', rfl⟩ := inverted
      rw [ih operand']
  | both found first second operand1 operand2 ih1 ih2 =>
      have inverted := right.found_inv found
      rw [first, second] at inverted
      obtain ⟨a1, a2, operand1', operand2', rfl⟩ := inverted
      rw [ih1 operand1', ih2 operand2']

theorem normal_front {v x : Var} {pe : PrfExpr Var} {c : Int} {e : Expr Var}
    (found : prfExprFind stack v = some pe) (first : pe.swapped.arg1 = .int c)
    (second : pe.swapped.arg2 = .var x) (normal : Normal stack v e) :
    ∃ m, Normal stack x m ∧ foldFirst pe.swapped.func c m = some e := by
  have inverted := normal.found_inv found
  rw [first, second] at inverted
  exact inverted

/-- A definition multiplies a variable that is a product with a constant in front. -/
def DoublyScaled (stack : List (PrfExpr Var)) (val : Var → Int) : Prop :=
  ∃ v pe c x, prfExprFind stack v = some pe ∧ pe.func = .mul ∧
    ((pe.arg1 = .int c ∧ pe.arg2 = .var x) ∨ (pe.arg1 = .var x ∧ pe.arg2 = .int c)) ∧
    HasShape stack x .product ∧ c ≠ 0 ∧ c ≠ 1 ∧ val x ≠ 0

omit [DecidableEq Var] in
theorem scaled_swapped {pe : PrfExpr Var} {c : Int} {x : Var} (product : pe.func = .mul)
    (scaled : (pe.arg1 = .int c ∧ pe.arg2 = .var x) ∨ (pe.arg1 = .var x ∧ pe.arg2 = .int c)) :
    pe.swapped.func = .mul ∧ pe.swapped.arg1 = .int c ∧ pe.swapped.arg2 = .var x := by
  obtain ⟨lhs, func, arg1, arg2⟩ := pe
  cases product
  rcases scaled with ⟨first, second⟩ | ⟨first, second⟩ <;> cases first <;> cases second <;>
    exact ⟨rfl, rfl, rfl⟩

omit [DecidableEq Var] in
theorem swapped_scaled {pe : PrfExpr Var} {c : Int} {x : Var} (product : pe.swapped.func = .mul)
    (first : pe.swapped.arg1 = .int c) (second : pe.swapped.arg2 = .var x) :
    pe.func = .mul ∧
      ((pe.arg1 = .int c ∧ pe.arg2 = .var x) ∨ (pe.arg1 = .var x ∧ pe.arg2 = .int c)) := by
  obtain ⟨lhs, func, arg1, arg2⟩ := pe
  cases arg1 with
  | int a =>
      cases first
      cases second
      exact ⟨product, .inl ⟨rfl, rfl⟩⟩
  | var y =>
      cases arg2 with
      | var z => cases first
      | int a =>
          cases func with
          | mul =>
              cases first
              cases second
              exact ⟨rfl, .inr ⟨rfl, rfl⟩⟩
          | add => cases product
          | sub => cases product
          | div => cases product
          | le => cases product
          | lt => cases product
          | ge => cases product
          | gt => cases product
          | neq => cases product

/-- The constant of a scaled product is squared. -/
theorem doubly_scaled_eval {v x : Var} {pe : PrfExpr Var} {c : Int} {m e : Expr Var}
    (found : prfExprFind stack v = some pe) (solves : Solves stack env val)
    (first : pe.swapped.arg1 = .int c) (second : pe.swapped.arg2 = .var x)
    (folded : foldFirst pe.swapped.func c m = some e) (operand : m.eval env = val x) :
    e.eval env = val v ↔
      ¬ (pe.swapped.func = .mul ∧ exprShape m = .product ∧ c ≠ 0 ∧ c ≠ 1 ∧ val x ≠ 0) := by
  have value : val v = pe.swapped.func.eval c (val x) := by
    rw [solves.defined v pe found, ← swapped_value]
    simp [PrfExpr.value, first, second, IntOrVar.value]
  rw [fold_first_eval env folded, operand, value]
  by_cases twice : pe.swapped.func = .mul ∧ exprShape m = .product
  · rw [if_pos twice, twice.1]
    simp only [Prf.eval, twice.2, true_and]
    constructor
    · rintro same ⟨nonzero, notOne, value⟩
      have cancelled := Int.eq_of_mul_eq_mul_left nonzero same
      have : (c - 1) * val x = 0 := by
        linarith
      rcases Int.mul_eq_zero.mp this with one | zero
      · omega
      · exact value zero
    · intro harmless
      by_cases zero : c = 0
      · simp [zero]
      · by_cases one : c = 1
        · simp [one]
        · have none : val x = 0 := by
            by_contra value
            exact harmless ⟨zero, one, value⟩
          simp [none]
  · rw [if_neg twice]
    simp only [true_iff]
    exact fun scaled => twice ⟨scaled.1, scaled.2.1⟩

theorem Normal.eval (solves : Solves stack env val) (simple : ¬ DoublyScaled stack val) {v : Var}
    {e : Expr Var} (normal : Normal stack v e) : e.eval env = val v := by
  induction normal with
  | external absent => exact (solves.external _ absent).symm
  | constants found first second folded =>
      obtain ⟨n, rfl, value⟩ := evaluate_i_i_shape folded
      rw [solves.defined _ _ found, PrfExpr.value, first, second]
      exact value
  | front found first second operand folded ih =>
      apply (doubly_scaled_eval found solves first second folded ih).mpr
      rintro ⟨product, shape, constant⟩
      obtain ⟨func, scaled⟩ := swapped_scaled product first second
      exact simple ⟨_, _, _, _, found, func, scaled, shape ▸ operand.shape, constant⟩
  | behind found first second operand ih =>
      rw [solves.defined _ _ found, ← swapped_value, PrfExpr.value, first, second]
      simp [Expr.eval, IntOrVar.value, ih]
  | both found first second operand1 operand2 ih1 ih2 =>
      rw [solves.defined _ _ found, ← swapped_value, PrfExpr.value, first, second]
      simp [Expr.eval, IntOrVar.value, ih1, ih2]

theorem evaluated_calls {vars : List Var} {es : List (Expr Var)}
    (normals : List.Forall₂ (Normal stack) vars es)
    (right : ∀ v e, Normal stack v e → e.eval env = val v) :
    es.map (fun e => e.eval env) = vars.map val := by
  induction normals with
  | nil => rfl
  | cons normal normals ih => rw [List.map_cons, List.map_cons, right _ _ normal, ih]

/-- Every call on the stack gives an expression with the value of its variable, unless a
definition multiplies a product with a constant in front by a constant. -/
theorem get_modifiers_exact_iff (acyclic : Acyclic stack) (arithmetic : Arithmetic stack)
    (solves : Solves stack env val) :
    (∀ vars : List Var, ∃ least, ∀ fuel, least ≤ fuel → ∃ es stack',
        getModifiers fuel stack vars = some (es, stack') ∧
          es.map (fun e => e.eval env) = vars.map val) ↔
      ¬ DoublyScaled stack val := by
  constructor
  · rintro exact ⟨v, pe, c, x, found, func, scaled, shape, constant⟩
    obtain ⟨product, first, second⟩ := scaled_swapped func scaled
    obtain ⟨least1, calls⟩ := exact [x, v]
    obtain ⟨least2, finishes⟩ := calls_finish acyclic arithmetic [x, v]
    obtain ⟨es, stack1, call, values⟩ := calls (max least1 least2) (le_max_left _ _)
    obtain ⟨es', stack2, call', normals⟩ :=
      finishes (max least1 least2) (le_max_right _ _) stack (swap_stack_refl stack)
    cases call.symm.trans call'
    cases normals with
    | cons operand normals =>
        cases normals with
        | cons normal normals =>
            cases normals
            simp only [List.map_cons, List.map_nil, List.cons.injEq, and_true] at values
            obtain ⟨m, operand', folded⟩ := normal_front found first second normal
            cases operand.unique operand'
            have harmless :=
              (doubly_scaled_eval found solves first second folded values.1).mp values.2
            exact harmless ⟨product, operand.shape.unique shape, constant⟩
  · intro simple vars
    obtain ⟨least, finishes⟩ := calls_finish acyclic arithmetic vars
    refine ⟨least, ?_⟩
    intro fuel enough
    obtain ⟨es, stack', call, normals⟩ := finishes fuel enough stack (swap_stack_refl stack)
    exact ⟨es, stack', call, evaluated_calls normals fun v e normal => normal.eval solves simple⟩

end Values

section Examples

/-- `t = x * 3; u = t - 1; w = 2 * u`. -/
def scaledDifference : List (PrfExpr Nat) :=
  [⟨some 1, .mul, .var 0, .int 3⟩, ⟨some 2, .sub, .var 1, .int 1⟩, ⟨some 3, .mul, .int 2, .var 2⟩]

theorem get_modifiers_scaled_difference :
    ∃ least, ∀ fuel, least ≤ fuel → ∃ es stack',
      getModifiers fuel scaledDifference [0, 1, 2, 3] = some (es, stack') ∧
        es.map (fun e => e.eval fun _ => 5) = [5, 15, 14, 28] := by
  have entries : ∀ {v pe}, prfExprFind scaledDifference v = some pe →
      (v = 1 ∧ pe = ⟨some 1, .mul, .var 0, .int 3⟩) ∨ (v = 2 ∧ pe = ⟨some 2, .sub, .var 1, .int 1⟩) ∨
        (v = 3 ∧ pe = ⟨some 3, .mul, .int 2, .var 2⟩) := by
    intro v pe found
    have lhs : pe.lhs = some v := by simpa using List.find?_some found
    have mem := List.mem_of_find?_eq_some found
    simp only [scaledDifference, List.mem_cons, List.not_mem_nil, or_false] at mem
    rcases mem with rfl | rfl | rfl <;> cases lhs <;> simp
  let val (v : Nat) : Int := if v = 1 then 15 else if v = 2 then 14 else if v = 3 then 28 else 5
  change ∃ least, ∀ fuel, least ≤ fuel → ∃ es stack',
    getModifiers fuel scaledDifference [0, 1, 2, 3] = some (es, stack') ∧
      es.map (fun e => e.eval fun _ => 5) = [0, 1, 2, 3].map val
  refine (get_modifiers_exact_iff (acyclic_of_rank id ?_) ?_ ⟨?_, ?_⟩).mpr ?_ [0, 1, 2, 3]
  · rintro x v ⟨pe, found, mentions⟩
    rcases entries found with ⟨rfl, rfl⟩ | ⟨rfl, rfl⟩ | ⟨rfl, rfl⟩ <;>
      rcases mentions with first | second <;> first | cases first | cases second
    all_goals decide
  · intro v pe found
    rcases entries found with ⟨_, rfl⟩ | ⟨_, rfl⟩ | ⟨_, rfl⟩ <;> simp
  · intro v absent
    have other : v ≠ 1 ∧ v ≠ 2 ∧ v ≠ 3 := by
      refine ⟨?_, ?_, ?_⟩ <;> (rintro rfl; cases absent)
    simp [val, other.1, other.2.1, other.2.2]
  · intro v pe found
    rcases entries found with ⟨rfl, rfl⟩ | ⟨rfl, rfl⟩ | ⟨rfl, rfl⟩ <;> rfl
  · -- The only constant in front of a product variable is that of `w`, whose operand is a sum.
    rintro ⟨v, pe, c, x, found, func, scaled, shape, _⟩
    rcases entries found with ⟨rfl, rfl⟩ | ⟨rfl, rfl⟩ | ⟨rfl, rfl⟩
    · rcases scaled with ⟨first, _⟩ | ⟨first, _⟩ <;> cases first
      have external : HasShape scaledDifference 0 .other := .external rfl
      cases shape.unique external
    · cases func
    · rcases scaled with ⟨first, second⟩ | ⟨first, _⟩ <;> cases first
      cases second
      have found1 : prfExprFind scaledDifference 1 = some ⟨some 1, .mul, .var 0, .int 3⟩ := rfl
      have found2 : prfExprFind scaledDifference 2 = some ⟨some 2, .sub, .var 1, .int 1⟩ := rfl
      have operand : HasShape scaledDifference 1 .product :=
        .front found1 rfl rfl (.external rfl)
      have sum : HasShape scaledDifference 2 .sum := .front found2 rfl rfl operand
      cases shape.unique sum

/-- `t = 3 * x; u = 2 * t`. -/
def scaledTwice : List (PrfExpr Nat) :=
  [⟨some 1, .mul, .int 3, .var 0⟩, ⟨some 2, .mul, .int 2, .var 1⟩]

/-- At `x = 1` the expression of `u` is 12, and `u` is 6. -/
theorem scaled_twice_differs :
    (Solves scaledTwice (fun _ => 1) fun v => if v = 1 then 3 else if v = 2 then 6 else 1) ∧
      (getModifier 3 scaledTwice 2).map (fun res => res.1.eval fun _ => 1) = some 12 := by
  refine ⟨⟨?_, ?_⟩, rfl⟩
  · intro v absent
    have other : v ≠ 1 ∧ v ≠ 2 := by
      refine ⟨?_, ?_⟩ <;> (rintro rfl; cases absent)
    simp [other.1, other.2]
  · intro v pe found
    have lhs : pe.lhs = some v := by simpa using List.find?_some found
    have mem := List.mem_of_find?_eq_some found
    simp only [scaledTwice, List.mem_cons, List.not_mem_nil, or_false] at mem
    rcases mem with rfl | rfl <;> cases lhs <;> rfl

end Examples

end Sac2c.ModifierNormalisation
