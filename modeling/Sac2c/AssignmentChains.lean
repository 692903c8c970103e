import Mathlib.Data.List.Basic

/-!
Straight-line code: assignments that each give values to some variables and run in order. What an
expression yields from an environment is a parameter; an expression may fail.
-/

namespace Sac2c.AssignmentChains

section Chains

variable {Var Expr Value : Type} [DecidableEq Var]

structure Assign (Var Expr : Type) where
  ids : List Var
  expr : Expr

/-- The variables that have a value. -/
abbrev Env (Var Value : Type) := Var → Option Value

def write (env : Env Var Value) : List Var → List Value → Env Var Value
  | [], _ => env
  | _ :: _, [] => env
  | x :: ids, v :: vals => fun y => if y = x then some v else write env ids vals y

variable (eval : Env Var Value → Expr → Option (List Value))

/-- One assignment; the expression has as many values as there are variables. -/
def step (env : Env Var Value) (assign : Assign Var Expr) : Option (Env Var Value) := do
  let vals ← eval env assign.expr
  if vals.length = assign.ids.length then some (write env assign.ids vals) else none

def exec : List (Assign Var Expr) → Env Var Value → Option (Env Var Value)
  | [], env => some env
  | assign :: rest, env => (step eval env assign).bind (exec rest)

def defines (chain : List (Assign Var Expr)) : List Var :=
  chain.flatMap (·.ids)

/-- Every variable is known before it is used. -/
def Ordered (uses : Expr → List Var) : List Var → List (Assign Var Expr) → Prop
  | _, [] => True
  | known, assign :: rest =>
      (∀ x ∈ uses assign.expr, x ∈ known) ∧ Ordered uses (known ++ assign.ids) rest

/-- Wherever the run gets to, the values that are assigned are as they should be. -/
def Assigns (good : Var → Value → Prop) :
    List (Assign Var Expr) → Env Var Value → Prop
  | [], _ => True
  | assign :: rest, env =>
      ∀ next, step eval env assign = some next →
        (∀ x ∈ assign.ids, ∀ v, next x = some v → good x v) ∧ Assigns good rest next

end Chains

section Lemmas

variable {Var Expr Value : Type} [DecidableEq Var]
  {eval : Env Var Value → Expr → Option (List Value)}

theorem write_apart (env : Env Var Value) {ids : List Var} (vals : List Value) {x : Var}
    (apart : x ∉ ids) : write env ids vals x = env x := by
  induction ids generalizing vals with
  | nil => rfl
  | cons y ids ih =>
      simp only [List.mem_cons, not_or] at apart
      cases vals with
      | nil => rfl
      | cons v vals => simp [write, apart.1, ih vals apart.2]

theorem exec_append (first second : List (Assign Var Expr)) (env : Env Var Value) :
    exec eval (first ++ second) env = (exec eval first env).bind (exec eval second) := by
  induction first generalizing env with
  | nil => rfl
  | cons assign first ih =>
      simp only [List.cons_append, exec]
      cases step eval env assign with
      | none => rfl
      | some next => simp [ih]

theorem exec_snoc (chain : List (Assign Var Expr)) (assign : Assign Var Expr)
    (env : Env Var Value) :
    exec eval (chain ++ [assign]) env = (exec eval chain env).bind (step eval · assign) := by
  rw [exec_append]
  congr 1
  funext env
  simp [exec]

omit [DecidableEq Var] in
theorem defines_append (first second : List (Assign Var Expr)) :
    defines (first ++ second) = defines first ++ defines second :=
  List.flatMap_append

omit [DecidableEq Var] in
theorem ordered_append (uses : Expr → List Var) (known : List Var)
    (first second : List (Assign Var Expr)) :
    Ordered uses known (first ++ second) ↔
      Ordered uses known first ∧ Ordered uses (known ++ defines first) second := by
  induction first generalizing known with
  | nil => simp [Ordered, defines]
  | cons assign first ih => simp [Ordered, ih, defines, and_assoc]

theorem assigns_append {good : Var → Value → Prop} (first second : List (Assign Var Expr))
    (env : Env Var Value) :
    Assigns eval good (first ++ second) env ↔
      Assigns eval good first env ∧
        ∀ next, exec eval first env = some next → Assigns eval good second next := by
  induction first generalizing env with
  | nil => simp [Assigns, exec]
  | cons assign first ih =>
      simp only [List.cons_append, Assigns, ih, exec, Option.bind_eq_some_iff]
      constructor
      · intro all
        refine ⟨fun next done => ⟨(all next done).1, (all next done).2.1⟩, ?_⟩
        rintro last ⟨next, done, rest⟩
        exact (all next done).2.2 last rest
      · rintro ⟨before, after⟩ next done
        exact ⟨(before next done).1, (before next done).2, fun last rest =>
          after last ⟨next, done, rest⟩⟩

theorem assigns_snoc {good : Var → Value → Prop} (chain : List (Assign Var Expr))
    (assign : Assign Var Expr) (env : Env Var Value) :
    Assigns eval good (chain ++ [assign]) env ↔
      Assigns eval good chain env ∧
        ∀ last next, exec eval chain env = some last → step eval last assign = some next →
          ∀ x ∈ assign.ids, ∀ v, next x = some v → good x v := by
  simp only [assigns_append, Assigns, and_true]
  exact and_congr_right fun _ =>
    ⟨fun all last next done => all last done next, fun all last done next => all last next done⟩

/-- What is good for the variables that are assigned may be replaced. -/
theorem assigns_congr {good good' : Var → Value → Prop} {chain : List (Assign Var Expr)}
    (same : ∀ x ∈ defines chain, ∀ v, good x v → good' x v) {env : Env Var Value}
    (all : Assigns eval good chain env) : Assigns eval good' chain env := by
  induction chain generalizing env with
  | nil => trivial
  | cons assign chain ih =>
      simp only [defines, List.flatMap_cons, List.mem_append] at same
      intro next done
      have here := all next done
      exact ⟨fun x mem v value => same x (Or.inl mem) v (here.1 x mem v value),
        ih (fun x mem => same x (Or.inr mem)) here.2⟩

theorem assigns_of_good {good : Var → Value → Prop} {chain : List (Assign Var Expr)}
    (all : ∀ x ∈ defines chain, ∀ v, good x v) (env : Env Var Value) :
    Assigns eval good chain env := by
  induction chain generalizing env with
  | nil => trivial
  | cons assign chain ih =>
      simp only [defines, List.flatMap_cons, List.mem_append] at all
      exact fun next _ => ⟨fun x mem v _ => all x (Or.inl mem) v,
        ih (fun x mem => all x (Or.inr mem)) next⟩

end Lemmas

end Sac2c.AssignmentChains
