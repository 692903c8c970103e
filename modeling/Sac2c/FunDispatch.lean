import Sac2c.NewTypes
import Sac2c.Prune

/-!
TYdispatchFunType and DFT_state2dft_res of typecheck/new_types.c. For each
instance of an overloaded function the parameters are compared with the argument
types. Parameters that are more special than the argument add to `ups`, more
general ones to `downs`; the two sums alone decide what becomes of the instance.
-/

namespace Sac2c.FunDispatch

open NewTypes

/-- An N_fundef node: its identity and the types of FUNDEF_ARGS. -/
structure Fundef (Val : Type) where
  id : Nat
  args : List (ArrayType Val)

/-- A TC_fun type. -/
structure FunType (Val : Type) where
  params : List (ArrayType Val)
  rets : List (ArrayType Val)
  fundef : Fundef Val

/-- TYmakeFunType. -/
def makeFunType {Val : Type} (params rets : List (ArrayType Val)) (fundef : Fundef Val) :
    FunType Val :=
  { params := params.map eliminateAkv, rets := rets, fundef := fundef }

/-- TUcreateFuntype. -/
def createFuntype {Val : Type} (rets : List (ArrayType Val)) (fundef : Fundef Val) :
    FunType Val :=
  makeFunType fundef.args rets fundef

/-- TYmakeOverloadedFunType on two lists of instances: those of the smaller one
are appended to the larger one. -/
def makeOverloadedFunType {Val : Type} (fun1 fun2 : List (FunType Val)) : List (FunType Val) :=
  if fun1.length ≤ fun2.length then fun2 ++ fun1 else fun1 ++ fun2

/-- An entry of the DFT_state that belongs to a legal instance. -/
structure Entry (Val : Type) where
  fundef : Fundef Val
  ups : Int
  downs : Int

/-- `dft_res`. -/
structure DftRes (Val : Type) where
  type : Option (List (ArrayType Val))
  definition : Option (Fundef Val)
  deriveable : Option (Fundef Val)
  partials : List (Fundef Val)
  deriveablePartials : List (Fundef Val)

/-- The two ways in which a dispatch ends in CTIabort. -/
inductive DispatchError (Val : Type) where
  | variableArity
  | noDefinition (fundef : Fundef Val) (arg : ArrayType Val) (position : Nat)
      (args : List (ArrayType Val))

section Weights
variable {Val : Type} [BEq Val] (users : UserTypes)

/-- Whether a type is AKV, AKS or AKD with dimensionality 0. -/
def isScalar (type : ArrayType Val) : Bool :=
  type.getDim == some 0

def isAkv : ArrayType Val → Bool
  | .akv _ _ => true
  | _ => false

/-- What a parameter that is more special than the argument adds to `ups`. -/
def upsOf : ArrayType Val → ArrayType Val → Int
  | .akv _ _, .aks _ _ => 1
  | .akv _ _, .akd _ _ _ _ => 2
  | .akv _ _, .audgz _ => 3
  | .akv _ _, _ => 4
  | .aks _ _, .akd _ _ _ _ => 1
  | .aks _ _, .audgz _ => 2
  | .aks _ _, _ => 3
  | .akd _ _ _ _, .audgz _ => 1
  | .akd _ _ _ _, _ => 2
  | _, _ => 0

/-- What a parameter that is more general than the argument takes from `downs`. -/
def downsOf : ArrayType Val → ArrayType Val → Int
  | .aud _, .audgz _ => 1
  | .aud _, .akd _ _ _ _ => 2
  | .aud _, .aks _ _ => 3
  | .aud _, _ => 4
  | .audgz _, .akd _ _ _ _ => 1
  | .audgz _, .aks _ _ => 2
  | .audgz _, _ => 3
  | .akd _ _ _ _, .aks _ _ => 1
  | .akd _ _ _ _, _ => 2
  | _, _ => 0

/-- The body of the loop over the parameters: what one of them adds to `ups` and
`downs`, or `none` if it makes the instance illegal. -/
def paramWeight (arg param : ArrayType Val) : Option (Int × Int) :=
  if eqScalar users arg.getScalar param.getScalar then
    if isScalar arg then
      if isScalar param then some (0, 0)
      else some (0, if isAkv arg then 2 else 1)
    else
      match cmpTypes users param arg with
      | .eq => some (0, 0)
      | .lt => some (upsOf param arg, 0)
      | .gt => some (0, - downsOf param arg)
      | .hcs => none
      | .dis => none
  else none

/-- The loop over the parameters, which ends with the first illegal one. -/
def accumulate : List (ArrayType Val) → List (ArrayType Val) → Int → Int → Option (Int × Int)
  | arg :: args, param :: params, ups, downs =>
      match paramWeight users arg param with
      | some weight => accumulate args params (ups + weight.1) (downs + weight.2)
      | none => none
  | _, _, ups, downs => some (ups, downs)

/-- The entry of one instance; `none` where `fundefs[i]` is NULL. -/
def entryOf (args : List (ArrayType Val)) (f : FunType Val) : Option (Entry Val) :=
  (accumulate users args f.params 0 0).map fun weight =>
    { fundef := f.fundef, ups := weight.1, downs := weight.2 }

/-- AllArgTypesLe: both argument lists are walked in step. -/
def allArgTypesLe : List (ArrayType Val) → List (ArrayType Val) → Bool
  | [], _ => true
  | _ :: _, [] => false
  | arg :: args, arg2 :: args2 => leTypes users arg arg2 && allArgTypesLe args args2

/-- Which of two deriveable partials goes: of two with equal `ups` the one with
the larger `downs`, or else the later one, may shadow the other. -/
def shadowVerdict (earlier later : Entry Val) : Prune.Verdict :=
  if earlier.ups = later.ups then
    if later.downs < earlier.downs then
      if allArgTypesLe users earlier.fundef.args later.fundef.args then .dropLater else .keepBoth
    else
      if allArgTypesLe users later.fundef.args earlier.fundef.args then .dropEarlier
      else .keepBoth
  else .keepBoth

/-- Whether a deriveable partial goes because of some partial with equal `ups`. -/
def shadowedBy (partials : List (Entry Val)) (item : Entry Val) : Bool :=
  partials.any fun other =>
    item.ups == other.ups && allArgTypesLe users other.fundef.args item.fundef.args

end Weights

/-- INT_MAX. -/
def intMax : Int := 2147483647

/-- The local variables of the loop of DFT_state2dft_res over all entries. -/
structure Choice (Val : Type) where
  definition : Option (Fundef Val)
  deriveable : Option (Fundef Val)
  maxDeriveable : Int
  exactFound : Bool
  partials : List (Entry Val)
  deriveablePartials : List (Entry Val)

def Choice.start {Val : Type} : Choice Val :=
  { definition := none
    deriveable := none
    maxDeriveable := 1 - intMax
    exactFound := false
    partials := []
    deriveablePartials := [] }

/-- The body of that loop. -/
def Choice.enter {Val : Type} (choice : Choice Val) : Option (Entry Val) → Choice Val
  | none => choice
  | some entry =>
      if entry.ups = 0 then
        if entry.downs = 0 then
          { choice with
            definition := some entry.fundef
            maxDeriveable := 0
            deriveable := none
            exactFound := true
            deriveablePartials := [] }
        else if choice.maxDeriveable < entry.downs then
          { choice with deriveable := some entry.fundef, maxDeriveable := entry.downs }
        else choice
      else
        if entry.downs = 0 then { choice with partials := choice.partials ++ [entry] }
        else if choice.exactFound then choice
        else { choice with deriveablePartials := choice.deriveablePartials ++ [entry] }

def choose {Val : Type} (entries : List (Option (Entry Val))) : Choice Val :=
  entries.foldl Choice.enter Choice.start

/-- DFT_state2dft_res: the choice, and after it the two filter loops over the
deriveable partials. -/
def dftState2dftRes {Val : Type} [BEq Val] (users : UserTypes)
    (entries : List (Option (Entry Val))) (type : Option (List (ArrayType Val))) : DftRes Val :=
  let choice := choose entries
  let remaining := Prune.prune (shadowVerdict users) choice.deriveablePartials
  { type := type
    definition := choice.definition
    deriveable := choice.deriveable
    partials := choice.partials.map Entry.fundef
    deriveablePartials :=
      (remaining.filter fun item => !shadowedBy users choice.partials item).map Entry.fundef }

/-- The loop over the instances: their entries, and the result type of the last
legal one. The variable that holds the result type is not initialised. -/
def insertFuns {Val : Type} [BEq Val] (users : UserTypes) (args : List (ArrayType Val)) :
    List (FunType Val) → Option (List (ArrayType Val)) →
    Except (DispatchError Val) (List (Option (Entry Val)) × Option (List (ArrayType Val)))
  | [], rets => .ok ([], rets)
  | f :: funs, rets =>
      if args.length = f.params.length then
        let entry := entryOf users args f
        match insertFuns users args funs (if entry.isSome then some f.rets else rets) with
        | .ok (entries, rets) => .ok (entry :: entries, rets)
        | .error error => .error error
      else .error .variableArity

/-- TYdispatchFunType on the instances of an overloaded function type; `none` is
the result NULL for a call without arguments, and `uninitialised` what the
variable for the result type holds at first. -/
def dispatchFunType {Val : Type} [BEq Val] (users : UserTypes)
    (uninitialised : Option (List (ArrayType Val))) (funs : List (FunType Val))
    (args : List (ArrayType Val)) : Except (DispatchError Val) (Option (DftRes Val)) :=
  if args.length = 0 then .ok none
  else
    match insertFuns users args funs uninitialised with
    | .error error => .error error
    | .ok (entries, rets) =>
        match rets, funs.head?, args.head? with
        | none, some f, some arg => .error (.noDefinition f.fundef arg (funs.length + 1) args)
        | _, _, _ => .ok (some (dftState2dftRes users entries rets))

section Lemmas
variable {Val : Type} [BEq Val] (users : UserTypes)

/-- When all instances have the arity of the call, the entries are those of the
instances in their order. -/
theorem insert_funs_entries (args : List (ArrayType Val)) (funs : List (FunType Val))
    (rets : Option (List (ArrayType Val)))
    (arity : ∀ f ∈ funs, f.params.length = args.length) :
    ∃ last, insertFuns users args funs rets = .ok (funs.map (entryOf users args), last) ∧
      (rets.isSome = true → last.isSome = true) := by
  induction funs generalizing rets with
  | nil => exact ⟨rets, rfl, id⟩
  | cons f funs ih =>
      have here := (arity f List.mem_cons_self).symm
      obtain ⟨last, same, set⟩ := ih (if (entryOf users args f).isSome then some f.rets else rets)
        (fun g member => arity g (List.mem_cons_of_mem f member))
      refine ⟨last, by simp [insertFuns, here, same], ?_⟩
      intro before
      apply set
      split_ifs
      · rfl
      · exact before

/-- The result of a dispatch, as far as it does not depend on the result type. -/
theorem dispatch_result (uninitialised : Option (List (ArrayType Val)))
    (funs : List (FunType Val)) (args : List (ArrayType Val))
    (arity : ∀ f ∈ funs, f.params.length = args.length) (res : DftRes Val)
    (found : dispatchFunType users uninitialised funs args = .ok (some res)) :
    ∃ type, res = dftState2dftRes users (funs.map (entryOf users args)) type := by
  obtain ⟨type, entries, _⟩ := insert_funs_entries users args funs uninitialised arity
  unfold dispatchFunType at found
  rw [entries] at found
  by_cases none : args.length = 0
  · simp [none] at found
  · simp only [none, ↓reduceIte] at found
    split at found
    · simp at found
    · simp only [Except.ok.injEq, Option.some.injEq] at found
      exact ⟨_, found.symm⟩

/-- Where the variable for the result type happens to be set, a call with
arguments gets a result. -/
theorem dispatch_found (funs : List (FunType Val)) (args : List (ArrayType Val))
    (someArg : 1 ≤ args.length) (arity : ∀ f ∈ funs, f.params.length = args.length) :
    ∃ type, dispatchFunType users (some []) funs args =
      .ok (some (dftState2dftRes users (funs.map (entryOf users args)) type)) := by
  obtain ⟨type, entries, set⟩ := insert_funs_entries users args funs (some []) arity
  have nonempty : args.length ≠ 0 := by omega
  have isSet := set rfl
  cases type with
  | none => cases isSet
  | some rets => exact ⟨some rets, by simp [dispatchFunType, nonempty, entries]⟩

end Lemmas

theorem choose_snoc {Val : Type} (entries : List (Option (Entry Val)))
    (entry : Option (Entry Val)) :
    choose (entries ++ [entry]) = (choose entries).enter entry := by
  simp [choose, List.foldl_append]

end Sac2c.FunDispatch
