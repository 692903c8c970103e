import Mathlib.Algebra.BigOperators.Group.List.Basic
import Mathlib.Algebra.Order.Group.Unbundled.Int
import Mathlib.Algebra.Ring.Int.Defs
import Mathlib.Logic.Function.Iterate
import Mathlib.Tactic.Common
import Mathlib.Tactic.Linarith
import Mathlib.Tactic.Ring

/-!
CalcUnrolling of stdopt/SSALUR.c: how often a do-loop runs whose predicate compares a sum of
loop variables to a constant. The values are longs and ints without overflow, `/` and `%`
truncate. The branches of other than additive modifiers compute with doubles; what they
return is a parameter.
-/

namespace Sac2c.UnrollingCount

section DoLoop

variable {State : Type}

/-- A do-loop runs its body and then tests whether it goes on. -/
inductive Executes (body : State → State) (test : State → Prop) : State → Nat → Prop
  | last {state : State} (leaves : ¬ test (body state)) : Executes body test state 1
  | again {state : State} {n : Nat} (continues : test (body state))
      (rest : Executes body test (body state) n) : Executes body test state (n + 1)

variable {body : State → State} {test : State → Prop}

theorem executes_iff {state : State} {n : Nat} :
    Executes body test state (n + 1) ↔
      (∀ j, 0 < j → j ≤ n → test (body^[j] state)) ∧ ¬ test (body^[n + 1] state) := by
  induction n generalizing state with
  | zero =>
      constructor
      · intro run
        cases run with
        | last leaves => exact ⟨fun j positive small => by omega, leaves⟩
        | again continues rest => cases rest
      · intro run
        exact .last run.2
  | succ n ih =>
      constructor
      · intro run
        cases run with
        | again continues rest =>
            have later := ih.mp rest
            constructor
            · intro j positive small
              cases j with
              | zero => omega
              | succ j =>
                  by_cases first : j = 0
                  · subst first
                    exact continues
                  · exact later.1 j (by omega) (by omega)
            · exact later.2
      · intro run
        have continues : test (body state) := run.1 1 (by omega) (by omega)
        refine .again continues (ih.mpr ⟨?_, run.2⟩)
        intro j positive small
        exact run.1 (j + 1) (by omega) (by omega)

theorem Executes.pos {state : State} {n : Nat} (run : Executes body test state n) : 0 < n := by
  cases run <;> omega

/-- A test that never fails keeps the loop going. -/
theorem never_leaves {state : State} (holds : ∀ j, 0 < j → test (body^[j] state)) (n : Nat) :
    ¬ Executes body test state n := by
  intro run
  cases n with
  | zero => exact absurd run.pos (by omega)
  | succ n => exact (executes_iff.mp run).2 (holds (n + 1) (by omega))

end DoLoop

section Quotients

/-- `t + 1` for `t` at least 0 and else 1, where `t` is the truncated quotient. -/
def iterationCount (t : Int) : Int := if t ≥ 0 then t + 1 else 1

theorem tdiv_pos_iff {a b : Int} (positive : 0 < b) : 0 < a.tdiv b ↔ b ≤ a := by
  by_cases sign : 0 ≤ a
  · rw [Int.tdiv_eq_ediv_of_nonneg sign]
    have steps : 1 ≤ a / b ↔ 1 * b ≤ a := Int.le_ediv_iff_mul_le positive
    omega
  · have quotient : 0 ≤ (-a).tdiv b := Int.tdiv_nonneg (by omega) (by omega)
    rw [Int.neg_tdiv] at quotient
    omega

theorem neg_tdiv_neg (a b : Int) : (-a).tdiv (-b) = a.tdiv b := by
  rw [Int.neg_tdiv, Int.tdiv_neg, Int.neg_neg]

/-- The count is the first number of steps that leads beyond `a`, and at least 1. -/
theorem iteration_count_first {a b : Int} (positive : 0 < b) :
    ∃ k : Nat, iterationCount (a.tdiv b) = ((k + 1 : Nat) : Int) ∧
      (∀ j : Nat, j ≤ k → 0 < j → (j : Int) * b ≤ a) ∧ ¬ ((k + 1 : Nat) : Int) * b ≤ a := by
  by_cases sign : 0 ≤ a
  · have quotient : a.tdiv b = a / b := Int.tdiv_eq_ediv_of_nonneg sign
    have nonneg : 0 ≤ a / b := Int.ediv_nonneg sign (by omega)
    obtain ⟨k, hk⟩ := Int.eq_ofNat_of_zero_le nonneg
    refine ⟨k, ?_, ?_, ?_⟩
    · simp [iterationCount, quotient, hk]
    · intro j small _
      exact (Int.le_ediv_iff_mul_le positive).mp (by omega)
    · intro within
      have : ((k + 1 : Nat) : Int) ≤ a / b := (Int.le_ediv_iff_mul_le positive).mpr within
      omega
  · -- A negative `a` is passed by the first step; the quotient is 0 or negative.
    have quotient : ¬ 0 < a.tdiv b := by
      rw [tdiv_pos_iff positive]
      omega
    refine ⟨0, ?_, ?_, ?_⟩
    · unfold iterationCount
      split <;> omega
    · intro j small many
      omega
    · simp only [Nat.cast_add, Nat.cast_zero, Nat.cast_one]
      omega

end Quotients

section Model

/-- The primitive functions of predicates and modifiers. -/
inductive Prf where
  | le
  | lt
  | ge
  | gt
  | neq
  | add
  | sub
  | mul
  | div
  deriving DecidableEq

/-- What a comparison says of its arguments. -/
def Prf.compares : Prf → Int → Int → Prop
  | .le, x, y => x ≤ y
  | .lt, x, y => x < y
  | .ge, x, y => x ≥ y
  | .gt, x, y => x > y
  | .neq, x, y => x ≠ y
  | _, _, _ => False

variable {Var : Type}

/-- The left side of a predicate after GetModifier. -/
inductive Expr (Var : Type) where
  | num (val : Int)
  | id (avis : Var)
  | prf (func : Prf) (arg1 arg2 : Expr Var)

def Prf.eval : Prf → Int → Int → Int
  | .add, x, y => x + y
  | .sub, x, y => x - y
  | .mul, x, y => x * y
  | .div, x, y => x.tdiv y
  | _, _, _ => 0

def Expr.eval (env : Var → Int) : Expr Var → Int
  | num val => val
  | id avis => env avis
  | prf func arg1 arg2 => func.eval (arg1.eval env) (arg2.eval env)

def Expr.ids : Expr Var → List Var
  | num _ => []
  | id avis => [avis]
  | prf _ arg1 arg2 => arg1.ids ++ arg2.ids

/-- `*cst_count` and `*cst_value`. -/
structure Cst where
  count : Nat
  value : Int

def checkPredicateNF : Expr Var → Cst → Bool × Cst
  | .prf .add arg1 arg2, cst =>
      let first := checkPredicateNF arg1 cst
      let second := checkPredicateNF arg2 first.2
      (first.1 && second.1, second.2)
  | .prf _ _ _, cst => (false, cst)
  | .id _, cst => (true, cst)
  | .num val, cst => if cst.count = 0 then (true, ⟨1, val⟩) else (false, cst)

/-- An argument of the predicate: an integer constant, another constant or an identifier. -/
inductive Arg where
  | int (val : Int)
  | const
  | id

def Arg.isConst : Arg → Bool
  | id => false
  | _ => true

/-- PMint with PMAgetIVal. -/
def Arg.intVal : Arg → Option Int
  | int val => some val
  | _ => none

structure Predicate where
  prf : Prf
  arg1 : Arg
  arg2 : Arg

def isLURPredicate (predicate : Predicate) : Bool :=
  match predicate.prf with
  | .le | .lt | .ge | .gt | .neq =>
      match predicate.arg1, predicate.arg2 with
      | .int _, .id => true
      | .id, .int _ => true
      | _, _ => false
  | _ => false

/-- What the predicate says when its identifier has the value `x`. -/
def Predicate.holds (predicate : Predicate) (x : Int) : Prop :=
  match predicate.arg1, predicate.arg2 with
  | .id, .int term => predicate.prf.compares x term
  | .int term, .id => predicate.prf.compares term x
  | _, _ => False

/-- The function of `id <prf> const` for that of `const <prf> id`. -/
def Prf.flipped : Prf → Prf
  | .lt => .gt
  | .le => .ge
  | .gt => .lt
  | .ge => .le
  | prf => prf

def getPredicateData (expr : Predicate) : Option (Prf × Int) :=
  if !expr.arg1.isConst then
    expr.arg2.intVal.map fun term => (expr.prf, term)
  else
    expr.arg1.intVal.map fun term => (expr.prf.flipped, term)

/-- `struct m_func`: `a * x + b` or `x / a + b`. -/
structure MFunc where
  a : Int
  b : Int
  func : Prf

def MFunc.apply (mfunc : MFunc) (x : Int) : Int :=
  match mfunc.func with
  | .mul => mfunc.a * x + mfunc.b
  | .div => x.tdiv mfunc.a + mfunc.b
  | _ => x

/-- What CalcUnrolling reads of `struct idx_vector`. -/
structure IdxVector (Var : Type) where
  var : Var
  initValue : Int
  mfunc : MFunc

/-- UNR_NONE. -/
def unrNone : Int := -1

/-- `loop_pred` and `term` with an inclusive bound. -/
def inclusive : Prf → Int → Option (Prf × Int)
  | .lt, term => some (.le, term - 1)
  | .gt, term => some (.ge, term + 1)
  | .le, term => some (.le, term)
  | .ge, term => some (.ge, term)
  | .neq, term => some (.neq, term)
  | _, _ => none

/-- The inequality that stands for `!=`, none where the loop would miss the bound. -/
def boundOfNeq (loopPred : Prf) (term cSum bSum : Int) : Option (Prf × Int) :=
  if loopPred = .neq ∧ (term - cSum).tmod bSum = 0 then
    if term - cSum > 0 ∧ bSum > 0 then some (.le, term - 1)
    else if term - cSum < 0 ∧ bSum < 0 then some (.ge, term + 1)
    else none
  else some (loopPred, term)

/-- The iteration count of a normalised predicate. -/
def countIterations (loopPred : Prf) (term cSum bSum : Int) : Int :=
  let t := (term - cSum).tdiv bSum
  if (bSum > 0 ∧ loopPred = .ge) ∨ (bSum < 0 ∧ loopPred = .le) then
    if t > 0 then unrNone else 1
  else if (bSum > 0 ∧ loopPred = .le) ∨ (bSum < 0 ∧ loopPred = .ge) then
    iterationCount t
  else unrNone

/-- `c_sum + k * b_sum <loop_pred> term` solved for `k`. -/
def solveAdditive (loopPred : Prf) (term cSum bSum : Int) : Int :=
  if bSum = 0 then unrNone
  else
    match boundOfNeq loopPred term cSum bSum with
    | none => unrNone
    | some (loopPred, term) => countIterations loopPred term cSum bSum

/-- The branch of CalcUnrolling for additive modifiers. -/
def additiveUnrolling (loopPred : Prf) (term cstValue : Int) (ivs : List (IdxVector Var)) : Int :=
  let bSum := (ivs.map fun iv => iv.mfunc.b).sum
  let cSum := (ivs.map fun iv => iv.initValue).sum + cstValue
  solveAdditive loopPred term cSum bSum

/-- `rest` is what the branches with floating-point numbers return. -/
def calcUnrolling (rest : Prf → Int → Int → List (IdxVector Var) → Int) (predicate : Predicate)
    (expr : Expr Var) (ivs : List (IdxVector Var)) : Int :=
  let check := checkPredicateNF expr ⟨0, 0⟩
  if !check.1 then unrNone
  else
    match getPredicateData predicate with
    | none => unrNone
    | some (loopPred, term) =>
        match inclusive loopPred term with
        | none => unrNone
        | some (loopPred, term) =>
            -- All modifiers are additions when as many are as there are loop variables.
            if (ivs.filter fun iv => iv.mfunc.a = 1).length = ivs.length then
              additiveUnrolling loopPred term check.2.value ivs
            else rest loopPred term check.2.value ivs

/-- One run of the loop's body over the values of its variables. -/
def body [DecidableEq Var] (ivs : List (IdxVector Var)) (env : Var → Int) : Var → Int :=
  fun avis =>
    match ivs.find? fun iv => iv.var = avis with
    | some iv => iv.mfunc.apply (env avis)
    | none => env avis

/-- The loop variables of a do-loop at its first iteration, all with additive modifiers; the
expression adds each of them once. -/
structure Additive [DecidableEq Var] (ivs : List (IdxVector Var)) (expr : Expr Var)
    (env : Var → Int) : Prop where
  distinct : (ivs.map fun iv => iv.var).Nodup
  once : expr.ids.Perm (ivs.map fun iv => iv.var)
  init : ∀ iv ∈ ivs, env iv.var = iv.initValue
  additive : ∀ iv ∈ ivs, iv.mfunc.a = 1 ∧ iv.mfunc.func = .mul

/-- The bound lies behind the sum after the first iteration and the modifiers lead away from it:
the predicate goes on to hold. -/
def LeavesBound (loopPred : Prf) (term first bSum : Int) : Prop :=
  (bSum > 0 ∧ ((loopPred = .ge ∧ first > term) ∨ (loopPred = .gt ∧ first > term + 1))) ∨
  (bSum < 0 ∧ ((loopPred = .le ∧ first < term) ∨ (loopPred = .lt ∧ first < term - 1)))

end Model

section Sums

variable {Var : Type}

/-- The constant that has been found so far. -/
def Cst.found (cst : Cst) : Int := if cst.count = 0 then 0 else cst.value

theorem check_predicate_nf_sum (env : Var → Int) (expr : Expr Var) (cst : Cst)
    (normal : (checkPredicateNF expr cst).1 = true) :
    expr.eval env + cst.found = (expr.ids.map env).sum + (checkPredicateNF expr cst).2.found := by
  induction expr generalizing cst with
  | num val =>
      by_cases empty : cst.count = 0
      · simp [checkPredicateNF, Expr.eval, Expr.ids, Cst.found, empty]
      · simp [checkPredicateNF, empty] at normal
  | id avis => simp [checkPredicateNF, Expr.eval, Expr.ids]
  | prf func arg1 arg2 ih1 ih2 =>
      cases func with
      | add =>
          simp only [checkPredicateNF, Bool.and_eq_true] at normal
          have first := ih1 cst normal.1
          have second := ih2 (checkPredicateNF arg1 cst).2 normal.2
          simp only [checkPredicateNF, Expr.eval, Prf.eval, Expr.ids, List.map_append,
            List.sum_append]
          omega
      | le => simp [checkPredicateNF] at normal
      | lt => simp [checkPredicateNF] at normal
      | ge => simp [checkPredicateNF] at normal
      | gt => simp [checkPredicateNF] at normal
      | neq => simp [checkPredicateNF] at normal
      | sub => simp [checkPredicateNF] at normal
      | mul => simp [checkPredicateNF] at normal
      | div => simp [checkPredicateNF] at normal

/-- Without a constant the value stays that of the start. -/
theorem check_predicate_nf_value (expr : Expr Var) (cst : Cst) (start : cst.count = 0 → cst.value = 0) :
    (checkPredicateNF expr cst).2.count = 0 → (checkPredicateNF expr cst).2.value = 0 := by
  induction expr generalizing cst with
  | num val =>
      by_cases empty : cst.count = 0
      · simp [checkPredicateNF, empty]
      · simp [checkPredicateNF, empty]
  | id avis => exact start
  | prf func arg1 arg2 ih1 ih2 =>
      cases func with
      | add => exact ih2 _ (ih1 cst start)
      | le => exact start
      | lt => exact start
      | ge => exact start
      | gt => exact start
      | neq => exact start
      | sub => exact start
      | mul => exact start
      | div => exact start

/-- A predicate in normal form adds the variables and `*cst_value`. -/
theorem normal_form_eval (env : Var → Int) (expr : Expr Var)
    (normal : (checkPredicateNF expr ⟨0, 0⟩).1 = true) :
    expr.eval env = (expr.ids.map env).sum + (checkPredicateNF expr ⟨0, 0⟩).2.value := by
  have sum := check_predicate_nf_sum env expr ⟨0, 0⟩ normal
  have value := check_predicate_nf_value expr ⟨0, 0⟩ (fun _ => rfl)
  by_cases empty : (checkPredicateNF expr ⟨0, 0⟩).2.count = 0
  · simpa [Cst.found, empty, value empty] using sum
  · simpa [Cst.found, empty] using sum

variable [DecidableEq Var] {ivs : List (IdxVector Var)} {expr : Expr Var} {env : Var → Int}

theorem find_of_mem (distinct : (ivs.map fun iv => iv.var).Nodup) {iv : IdxVector Var}
    (mem : iv ∈ ivs) : ivs.find? (fun other => other.var = iv.var) = some iv := by
  induction ivs with
  | nil => cases mem
  | cons head rest ih =>
      simp only [List.map_cons, List.nodup_cons] at distinct
      rcases List.mem_cons.mp mem with same | later
      · subst same
        simp
      · have other : head.var ≠ iv.var := by
          intro same
          exact distinct.1 (same ▸ List.mem_map_of_mem later)
        rw [List.find?_cons_of_neg (by simpa using other)]
        exact ih distinct.2 later

/-- One iteration adds its modifier to a loop variable. -/
theorem body_var (loop : Additive ivs expr env) (env' : Var → Int) {iv : IdxVector Var}
    (mem : iv ∈ ivs) : body ivs env' iv.var = env' iv.var + iv.mfunc.b := by
  unfold body
  rw [find_of_mem loop.distinct mem]
  simp [MFunc.apply, loop.additive iv mem]

theorem iterated_var (loop : Additive ivs expr env) {iv : IdxVector Var} (mem : iv ∈ ivs)
    (j : Nat) : (body ivs)^[j] env iv.var = iv.initValue + j * iv.mfunc.b := by
  induction j with
  | zero => simpa using loop.init iv mem
  | succ j ih =>
      rw [Function.iterate_succ_apply', body_var loop _ mem, ih]
      push_cast
      ring

omit [DecidableEq Var] in
theorem sum_progress (ivs : List (IdxVector Var)) (j : Int) :
    (ivs.map fun iv => iv.initValue + j * iv.mfunc.b).sum =
      (ivs.map fun iv => iv.initValue).sum + j * (ivs.map fun iv => iv.mfunc.b).sum := by
  induction ivs with
  | nil => simp
  | cons iv rest ih =>
      simp only [List.map_cons, List.sum_cons, ih]
      ring

/-- The sum after `j` iterations. -/
theorem iterated_eval (loop : Additive ivs expr env)
    (normal : (checkPredicateNF expr ⟨0, 0⟩).1 = true) (j : Nat) :
    expr.eval ((body ivs)^[j] env) =
      (ivs.map fun iv => iv.initValue).sum + (checkPredicateNF expr ⟨0, 0⟩).2.value +
        j * (ivs.map fun iv => iv.mfunc.b).sum := by
  have values : (ivs.map fun iv => iv.var).map ((body ivs)^[j] env) =
      ivs.map fun iv => iv.initValue + (j : Int) * iv.mfunc.b := by
    rw [List.map_map]
    exact List.map_congr_left fun iv mem => iterated_var loop mem j
  rw [normal_form_eval _ _ normal, (loop.once.map ((body ivs)^[j] env)).sum_eq, values,
    sum_progress]
  ring

end Sums

section Counts

/-- `n` is none or the first number of steps after which the test fails. -/
def Exact (n : Int) (test : Int → Prop) (c b : Int) : Prop :=
  n ≠ unrNone → ∃ k : Nat, n = ((k + 1 : Nat) : Int) ∧
    (∀ j : Nat, j ≤ k → 0 < j → test (c + j * b)) ∧ ¬ test (c + ((k + 1 : Nat) : Int) * b)

theorem exact_none (test : Int → Prop) (c b : Int) : Exact unrNone test c b :=
  fun counted => absurd rfl counted

theorem exact_le {term c b : Int} (positive : 0 < b) :
    Exact (iterationCount ((term - c).tdiv b)) (· ≤ term) c b := by
  intro _
  obtain ⟨k, count, before, after⟩ := iteration_count_first (a := term - c) positive
  refine ⟨k, count, ?_, ?_⟩
  · intro j small many
    have := before j small many
    linarith
  · intro within
    apply after
    linarith

theorem exact_ge {term c b : Int} (negative : b < 0) :
    Exact (iterationCount ((term - c).tdiv b)) (· ≥ term) c b := by
  intro _
  obtain ⟨k, count, before, after⟩ :=
    iteration_count_first (a := -(term - c)) (b := -b) (by omega)
  rw [neg_tdiv_neg] at count
  refine ⟨k, count, ?_, ?_⟩
  · intro j small many
    have := before j small many
    show term ≤ _
    linarith
  · intro within
    apply after
    have : term ≤ c + ((k + 1 : Nat) : Int) * b := within
    linarith

/-- A sum that meets the bound of `!=` fails the inequality there for the first time. -/
theorem exact_neq_le {term c b : Int} (positive : 0 < b) (below : c < term)
    (meets : (term - c).tmod b = 0) :
    Exact (iterationCount ((term - 1 - c).tdiv b)) (· ≠ term) c b := by
  intro counted
  have bounded : Exact (iterationCount ((term - 1 - c).tdiv b)) (· ≤ term - 1) c b :=
    exact_le positive
  obtain ⟨k, count, before, after⟩ := bounded counted
  obtain ⟨q, hq⟩ := Int.dvd_of_tmod_eq_zero meets
  refine ⟨k, count, ?_, ?_⟩
  · intro j small many same
    have := before j small many
    omega
  · intro other
    have reached : term ≤ c + ((k + 1 : Nat) : Int) * b := by omega
    -- The quotient is beyond `k`, since the step before is short of the bound.
    have short : (k : Int) * b < q * b := by
      by_cases zero : k = 0
      · subst zero
        have : 0 < b * q := by omega
        push_cast
        linarith
      · have := before k (le_refl k) (by omega)
        linarith
    have beyond : (k : Int) < q := lt_of_mul_lt_mul_right short (le_of_lt positive)
    have enough : ((k + 1 : Nat) : Int) * b ≤ q * b :=
      mul_le_mul_of_nonneg_right (by omega) (le_of_lt positive)
    apply other
    linarith

theorem exact_neg {n : Int} {term c b : Int} (exact : Exact n (· ≠ term) c b) :
    Exact n (· ≠ -term) (-c) (-b) := by
  intro counted
  obtain ⟨k, count, before, after⟩ := exact counted
  refine ⟨k, count, ?_, ?_⟩
  · intro j small many same
    apply before j small many
    linarith
  · intro other
    apply after
    intro same
    apply other
    linarith

theorem exact_neq_ge {term c b : Int} (negative : b < 0) (above : term < c)
    (meets : (term - c).tmod b = 0) :
    Exact (iterationCount ((term + 1 - c).tdiv b)) (· ≠ term) c b := by
  have mirrored : (-term - -c).tmod (-b) = 0 := by
    have : -term - -c = -(term - c) := by ring
    rw [this, Int.neg_tmod, Int.tmod_neg, meets, Int.neg_zero]
  have upwards : Exact (iterationCount ((-term - 1 - -c).tdiv (-b))) (· ≠ -term) (-c) (-b) :=
    exact_neq_le (by omega) (by omega) mirrored
  have exact := exact_neg upwards
  have quotient : (-term - 1 - -c).tdiv (-b) = (term + 1 - c).tdiv b := by
    rw [← neg_tdiv_neg]
    ring_nf
  rw [quotient] at exact
  simpa using exact

/-- The inverted branch: what leads away from its bound is counted once. -/
theorem away_of_ge {term c b : Int} (positive : 0 < b) :
    countIterations .ge term c b = if c + b > term then 1 else unrNone := by
  have quotient := tdiv_pos_iff (a := term - c) positive
  have upwards : b > 0 := positive
  by_cases away : c + b > term
  · have : ¬ (term - c).tdiv b > 0 := by omega
    simp [countIterations, upwards, away, this]
  · have : (term - c).tdiv b > 0 := by omega
    simp [countIterations, upwards, away, this]

theorem away_of_le {term c b : Int} (negative : b < 0) :
    countIterations .le term c b = if c + b < term then 1 else unrNone := by
  have quotient := tdiv_pos_iff (a := -(term - c)) (b := -b) (by omega)
  rw [neg_tdiv_neg] at quotient
  by_cases away : c + b < term
  · have : ¬ (term - c).tdiv b > 0 := by omega
    simp [countIterations, negative, away, this]
  · have : (term - c).tdiv b > 0 := by omega
    simp [countIterations, negative, away, this]

theorem solve_le_exact_iff (term c b : Int) :
    Exact (solveAdditive .le term c b) (· ≤ term) c b ↔ ¬ LeavesBound .le term (c + b) b := by
  rcases lt_trichotomy b 0 with negative | zero | positive
  · have count : solveAdditive .le term c b = if c + b < term then 1 else unrNone := by
      simpa [solveAdditive, boundOfNeq, negative.ne] using away_of_le negative
    rw [count]
    by_cases away : c + b < term
    · have leaves : LeavesBound .le term (c + b) b := .inr ⟨negative, .inl ⟨rfl, away⟩⟩
      simp only [away, if_true, leaves, not_true_eq_false, iff_false]
      intro exact
      obtain ⟨k, count, _, after⟩ := exact (by decide)
      have first : k = 0 := by omega
      subst first
      exact after (by push_cast; linarith)
    · simp [away, exact_none, LeavesBound, negative.not_gt]
  · simp [solveAdditive, zero, exact_none, LeavesBound]
  · have count : solveAdditive .le term c b = iterationCount ((term - c).tdiv b) := by
      have upwards : b > 0 := positive
      simp [solveAdditive, boundOfNeq, countIterations, upwards, upwards.ne', positive.not_gt]
    rw [count]
    simp [exact_le positive, LeavesBound, positive.not_gt]

theorem solve_ge_exact_iff (term c b : Int) :
    Exact (solveAdditive .ge term c b) (· ≥ term) c b ↔ ¬ LeavesBound .ge term (c + b) b := by
  rcases lt_trichotomy b 0 with negative | zero | positive
  · have count : solveAdditive .ge term c b = iterationCount ((term - c).tdiv b) := by
      simp [solveAdditive, boundOfNeq, countIterations, negative, negative.ne, negative.not_gt]
    rw [count]
    simp [exact_ge negative, LeavesBound, negative.not_gt]
  · simp [solveAdditive, zero, exact_none, LeavesBound]
  · have count : solveAdditive .ge term c b = if c + b > term then 1 else unrNone := by
      simpa [solveAdditive, boundOfNeq, positive.ne'] using away_of_ge positive
    rw [count]
    by_cases away : c + b > term
    · have leaves : LeavesBound .ge term (c + b) b := .inl ⟨positive, .inl ⟨rfl, away⟩⟩
      simp only [away, if_true, leaves, not_true_eq_false, iff_false]
      intro exact
      obtain ⟨k, count, _, after⟩ := exact (by decide)
      have first : k = 0 := by omega
      subst first
      apply after
      show term ≤ c + ((0 + 1 : Nat) : Int) * b
      push_cast
      linarith
    · simp [away, exact_none, LeavesBound, positive.not_gt]

/-- `!=` is counted where the sum meets its bound and left alone elsewhere. -/
theorem solve_neq_exact (term c b : Int) :
    Exact (solveAdditive .neq term c b) (· ≠ term) c b := by
  by_cases zero : b = 0
  · simp [solveAdditive, zero, exact_none]
  · by_cases meets : (term - c).tmod b = 0
    · by_cases below : term - c > 0 ∧ b > 0
      · have lower : c < term := by omega
        have count : solveAdditive .neq term c b = iterationCount ((term - 1 - c).tdiv b) := by
          simp [solveAdditive, boundOfNeq, countIterations, zero, meets, lower, below.2,
            below.2.not_gt]
        rw [count]
        exact exact_neq_le below.2 (by omega) meets
      · by_cases above : term - c < 0 ∧ b < 0
        · have count : solveAdditive .neq term c b = iterationCount ((term + 1 - c).tdiv b) := by
            simp [solveAdditive, boundOfNeq, countIterations, zero, meets, above.1, above.2,
              above.2.not_gt]
          rw [count]
          exact exact_neq_ge above.2 (by omega) meets
        · have count : solveAdditive .neq term c b = unrNone := by
            simp only [solveAdditive, boundOfNeq, zero, meets, below, above, and_self, if_true,
              if_false]
          rw [count]
          exact exact_none _ _ _
    · have count : solveAdditive .neq term c b = unrNone := by
        simp [solveAdditive, boundOfNeq, countIterations, meets]
      rw [count]
      exact exact_none _ _ _

theorem solve_exact_iff {loopPred : Prf} {term : Int} {normal : Prf × Int}
    (bounded : inclusive loopPred term = some normal) (c b : Int) :
    Exact (solveAdditive normal.1 normal.2 c b) (loopPred.compares · term) c b ↔
      ¬ LeavesBound loopPred term (c + b) b := by
  cases loopPred with
  | le =>
      cases bounded
      exact solve_le_exact_iff term c b
  | lt =>
      cases bounded
      have same : (Prf.lt.compares · term) = (· ≤ term - 1) := by
        funext x
        exact propext Int.le_sub_one_iff.symm
      rw [same]
      simpa [LeavesBound] using solve_le_exact_iff (term - 1) c b
  | ge =>
      cases bounded
      exact solve_ge_exact_iff term c b
  | gt =>
      cases bounded
      have same : (Prf.gt.compares · term) = (· ≥ term + 1) := by
        funext x
        rfl
      rw [same]
      simpa [LeavesBound] using solve_ge_exact_iff (term + 1) c b
  | neq =>
      cases bounded
      have exact : Exact (solveAdditive .neq term c b) (Prf.neq.compares · term) c b :=
        solve_neq_exact term c b
      simpa [LeavesBound] using exact
  | add => cases bounded
  | sub => cases bounded
  | mul => cases bounded
  | div => cases bounded

end Counts

section Unrolling

variable {Var : Type} [DecidableEq Var] {ivs : List (IdxVector Var)} {expr : Expr Var}
  {env : Var → Int} {predicate : Predicate}

theorem flipped_compares (prf : Prf) (x y : Int) : prf.flipped.compares x y ↔ prf.compares y x := by
  cases prf with
  | le => exact Iff.rfl
  | lt => exact Iff.rfl
  | ge => exact Iff.rfl
  | gt => exact Iff.rfl
  | neq => exact ne_comm
  | add => exact Iff.rfl
  | sub => exact Iff.rfl
  | mul => exact Iff.rfl
  | div => exact Iff.rfl

/-- A loop predicate as GetPredicateData returns it, with an inclusive bound of CalcUnrolling. -/
theorem predicate_data (lur : isLURPredicate predicate = true) :
    ∃ loopPred term normal, getPredicateData predicate = some (loopPred, term) ∧
      inclusive loopPred term = some normal ∧
      ∀ x, predicate.holds x ↔ loopPred.compares x term := by
  obtain ⟨prf, arg1, arg2⟩ := predicate
  have comparison : ∀ term, ∃ normal, inclusive prf term = some normal := by
    intro term
    cases prf with
    | le => exact ⟨_, rfl⟩
    | lt => exact ⟨_, rfl⟩
    | ge => exact ⟨_, rfl⟩
    | gt => exact ⟨_, rfl⟩
    | neq => exact ⟨_, rfl⟩
    | add => simp [isLURPredicate] at lur
    | sub => simp [isLURPredicate] at lur
    | mul => simp [isLURPredicate] at lur
    | div => simp [isLURPredicate] at lur
  have flipped : ∀ term, ∃ normal, inclusive prf.flipped term = some normal := by
    intro term
    obtain ⟨normal, bounded⟩ := comparison term
    cases prf <;> first | exact ⟨_, rfl⟩ | cases bounded
  cases arg1 with
  | int term =>
      cases arg2 with
      | id =>
          obtain ⟨normal, bounded⟩ := flipped term
          exact ⟨_, term, normal, rfl, bounded, fun x => (flipped_compares prf x term).symm⟩
      | int other => cases prf <;> simp [isLURPredicate] at lur
      | const => cases prf <;> simp [isLURPredicate] at lur
  | id =>
      cases arg2 with
      | int term =>
          obtain ⟨normal, bounded⟩ := comparison term
          exact ⟨_, term, normal, rfl, bounded, fun x => Iff.rfl⟩
      | id => cases prf <;> simp [isLURPredicate] at lur
      | const => cases prf <;> simp [isLURPredicate] at lur
  | const => cases arg2 <;> cases prf <;> simp [isLURPredicate] at lur

/-- The comparison leads away from its bound: the expression is a sum with at most one constant,
and after the first iteration it lies behind the bound in the direction of the modifiers. -/
def RunsAway (predicate : Predicate) (expr : Expr Var) (ivs : List (IdxVector Var))
    (env : Var → Int) : Prop :=
  (checkPredicateNF expr ⟨0, 0⟩).1 = true ∧
    ∃ loopPred term, getPredicateData predicate = some (loopPred, term) ∧
      LeavesBound loopPred term (expr.eval (body ivs env)) (ivs.map fun iv => iv.mfunc.b).sum

theorem exact_iff_executes (loop : Additive ivs expr env)
    (normal : (checkPredicateNF expr ⟨0, 0⟩).1 = true) (n : Int) :
    Exact n predicate.holds
        ((ivs.map fun iv => iv.initValue).sum + (checkPredicateNF expr ⟨0, 0⟩).2.value)
        (ivs.map fun iv => iv.mfunc.b).sum ↔
      (n ≠ unrNone → ∃ k : Nat, n = (k : Int) ∧
        Executes (body ivs) (fun env => predicate.holds (expr.eval env)) env k) := by
  constructor
  · intro exact counted
    obtain ⟨k, count, before, after⟩ := exact counted
    refine ⟨k + 1, count, executes_iff.mpr ⟨?_, ?_⟩⟩
    · intro j positive small
      rw [iterated_eval loop normal]
      exact before j small positive
    · rw [iterated_eval loop normal]
      exact after
  · intro executes counted
    obtain ⟨k, count, run⟩ := executes counted
    obtain ⟨k, rfl⟩ := Nat.exists_eq_succ_of_ne_zero run.pos.ne'
    obtain ⟨before, after⟩ := executes_iff.mp run
    refine ⟨k, count, ?_, ?_⟩
    · intro j small positive
      rw [← iterated_eval loop normal]
      exact before j positive small
    · rw [← iterated_eval loop normal]
      exact after

/-- A count that is returned is that of the loop, unless the comparison runs away from its
bound: then the loop never ends, and it is counted once. -/
theorem calc_unrolling_exact_iff
    (rest : Prf → Int → Int → List (IdxVector Var) → Int)
    (lur : isLURPredicate predicate = true) (loop : Additive ivs expr env) :
    (∀ n, calcUnrolling rest predicate expr ivs = n → n ≠ unrNone →
        ∃ k : Nat, n = (k : Int) ∧
          Executes (body ivs) (fun env => predicate.holds (expr.eval env)) env k) ↔
      ¬ RunsAway predicate expr ivs env := by
  obtain ⟨loopPred, term, ⟨normalPred, normalTerm⟩, data, bounded, holds⟩ := predicate_data lur
  by_cases normal : (checkPredicateNF expr ⟨0, 0⟩).1 = true
  · have additions : (ivs.filter fun iv => iv.mfunc.a = 1) = ivs := by
      rw [List.filter_eq_self]
      intro iv mem
      simpa using (loop.additive iv mem).1
    have count : calcUnrolling rest predicate expr ivs =
        additiveUnrolling normalPred normalTerm (checkPredicateNF expr ⟨0, 0⟩).2.value ivs := by
      simp [calcUnrolling, normal, data, bounded, additions]
    have test : predicate.holds = (loopPred.compares · term) := by
      funext x
      exact propext (holds x)
    have first := iterated_eval loop normal 1
    rw [Nat.cast_one, one_mul, Function.iterate_one] at first
    have away : RunsAway predicate expr ivs env ↔
        LeavesBound loopPred term (expr.eval (body ivs env))
          (ivs.map fun iv => iv.mfunc.b).sum := by
      simp [RunsAway, normal, data]
    have solved := solve_exact_iff bounded
      ((ivs.map fun iv => iv.initValue).sum + (checkPredicateNF expr ⟨0, 0⟩).2.value)
      (ivs.map fun iv => iv.mfunc.b).sum
    rw [← test, exact_iff_executes loop normal, ← first] at solved
    rw [away, count, ← solved]
    simp only [forall_eq', additiveUnrolling]
  · simp [calcUnrolling, RunsAway, normal]

/-- `do { i = i + 1; } while (i < 3)` from 0. -/
theorem calc_unrolling_exact_three :
    ∃ k : Nat, calcUnrolling (fun _ _ _ _ => unrNone) ⟨.lt, .id, .int 3⟩ (.id ())
        [⟨(), 0, ⟨1, 1, .mul⟩⟩] = (k : Int) ∧ Executes (body [⟨(), 0, ⟨1, 1, .mul⟩⟩])
      (fun env : Unit → Int => (⟨.lt, .id, .int 3⟩ : Predicate).holds (env ())) (fun _ => 0) k := by
  have loop : Additive [(⟨(), 0, ⟨1, 1, .mul⟩⟩ : IdxVector Unit)] (.id ()) (fun _ => 0) :=
    ⟨by simp, by simp [Expr.ids], by simp, by simp⟩
  have leaves : ¬ RunsAway ⟨.lt, .id, .int 3⟩ (.id ())
      [(⟨(), 0, ⟨1, 1, .mul⟩⟩ : IdxVector Unit)] (fun _ => 0) := by
    rintro ⟨_, loopPred, term, data, leaves⟩
    cases data
    simp [LeavesBound] at leaves
  exact (calc_unrolling_exact_iff (fun _ _ _ _ => unrNone) rfl loop).mpr leaves _ rfl (by decide)

/-- `do { i = i + 1; } while (i >= 0)` from 0 never ends and is counted once. -/
theorem calc_unrolling_endless :
    calcUnrolling (fun _ _ _ _ => unrNone) ⟨.ge, .id, .int 0⟩ (.id ())
        [⟨(), 0, ⟨1, 1, .mul⟩⟩] = 1 ∧
      ∀ k, ¬ Executes (body [⟨(), 0, ⟨1, 1, .mul⟩⟩])
        (fun env : Unit → Int => (⟨.ge, .id, .int 0⟩ : Predicate).holds (env ())) (fun _ => 0) k := by
  have loop : Additive [(⟨(), 0, ⟨1, 1, .mul⟩⟩ : IdxVector Unit)] (.id ()) (fun _ => 0) :=
    ⟨by simp, by simp [Expr.ids], by simp, by simp⟩
  refine ⟨by decide, never_leaves ?_⟩
  intro j _
  have value := iterated_eval loop rfl j
  simp only [Expr.eval] at value
  simp [Predicate.holds, Prf.compares, value, checkPredicateNF]

end Unrolling

end Sac2c.UnrollingCount
