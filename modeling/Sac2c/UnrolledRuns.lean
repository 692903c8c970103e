import Mathlib.Data.List.Nodup
import Sac2c.UnrolledPrfs

/-!
The chain of an unrolled vector primitive computes what the primitive computes. The selected
elements and the results are declared as integers: that is right exactly for vectors of integers
with integers as results.
-/

namespace Sac2c.PrfUnrolling

open NewTypes (SimpleType)
open AssignmentChains

section Runs

variable {Rep : Type} {prims : Prims Rep}

/-- The value has the type. -/
structure Value.Fits (v : Value Rep) (type : NType) : Prop where
  base : v.base = type.scalar
  size : v.elems.length = v.shape.prod
  elems : ∀ x ∈ v.elems, x.base = v.base
  shape : ∀ shape, type.shape = some shape → v.shape = shape
  dim : ∀ dim, type.dim = some dim → v.shape.length = dim

theorem eval_prf_reading {p : Prf} {op : Op} {form : Form} (read : reading p = some (op, form))
    (v : Value Rep) (vs : List (Value Rep)) :
    evalPrf prims p (v :: vs) = elementwise prims op form v.base (v :: vs) := by
  cases p <;> cases read <;> rfl

/-- The results of an element. -/
def Op.results (op : Op) (r : Scalar Rep × Bool) : List (Value Rep) :=
  scalarValue r.1 :: if op.isGuard then [boolValue r.2] else []

theorem eval_element1 {q : Prf} {op : Op} (read : reading q = some (op, .S)) (x : Scalar Rep) :
    evalPrf prims q [scalarValue x] = (prims.result op [x]).map op.results := by
  rw [eval_prf_reading read]
  cases done : prims.result op [x] with
  | none => simp [elementwise, rows, Value.asScalar, scalarValue, done]
  | some r => simp [elementwise, rows, Value.asScalar, scalarValue, done, Form.isScalar, Op.results]

theorem eval_element2 {q : Prf} {op : Op} (read : reading q = some (op, .SxS)) (x y : Scalar Rep) :
    evalPrf prims q [scalarValue x, scalarValue y] =
      (prims.result op [x, y]).map op.results := by
  rw [eval_prf_reading read]
  cases done : prims.result op [x, y] with
  | none => simp [elementwise, rows, Value.asScalar, scalarValue, done]
  | some r => simp [elementwise, rows, Value.asScalar, scalarValue, done, Form.isScalar, Op.results]

theorem vector_shape {v : Value Rep} {xs : List (Scalar Rep)} (vector : v.asVector = some xs) :
    v.shape = [xs.length] ∧ v.elems = xs := by
  unfold Value.asVector at vector
  split at vector
  · rename_i n shape
    split at vector
    · rename_i size
      cases vector
      exact ⟨by rw [shape, size], rfl⟩
    · cases vector
  · cases vector

theorem eval_sel {v : Value Rep} {xs : List (Scalar Rep)} (vector : v.asVector = some xs) {i : Nat}
    {x : Scalar Rep} (found : xs[i]? = some x) :
    evalPrf prims .selVxA [vectorValue .int [.int i], v] = some [scalarValue x] := by
  obtain ⟨shape, elems⟩ := vector_shape vector
  obtain ⟨small, same⟩ := List.getElem?_eq_some_iff.mp found
  have bounds : (0 : Int) ≤ i ∧ (i : Int) < xs.length := by omega
  simp [evalPrf, Value.asVector, vectorValue, offset, shape, elems, bounds, small, same]

theorem eval_int_vector {env : Env Avis (Value Rep)} (elems : List Int) :
    eval prims env (.intVector elems) = some [vectorValue .int (elems.map .int)] :=
  rfl

theorem scalar_value {v : Value Rep} {x : Scalar Rep} (scalar : v.asScalar = some x)
    (base : x.base = v.base) : v = scalarValue x := by
  unfold Value.asScalar at scalar
  split at scalar
  · rename_i y shape elems
    cases scalar
    cases v
    simp_all [scalarValue]
  · cases scalar

/-- The run of the chain so far. -/
def Run (prims : Prims Rep) (env : Env Avis (Value Rep)) (info : Info)
    (last : Env Avis (Value Rep)) : Prop :=
  exec (eval prims) info.preassign.reverse env = some last

/-- What is known keeps its value. -/
def Keeps (params : List Avis) (info : Info) (last last' : Env Avis (Value Rep)) : Prop :=
  ∀ x, Knows params info x → last' x = last x

variable {types : Avis → NType} {params : List Avis} {start : Avis} {right : Prop}
  {env last : Env Avis (Value Rep)} {info info' : Info}

theorem Keeps.trans {last' last'' : Env Avis (Value Rep)} (first : Keeps params info last last')
    (grows : Extends info info') (second : Keeps params info' last' last'') :
    Keeps params info last last'' :=
  fun x known => (second x (grows.knows known)).trans (first x known)

theorem run_emits {new : List Vardec} {ids : List Avis} {expr : Expr}
    (emits : Emits info info' new ids expr) :
    exec (eval prims) info'.preassign.reverse env =
      (exec (eval prims) info.preassign.reverse env).bind
        (step (eval prims) · ⟨ids, expr⟩) := by
  rw [emits.preassign, List.reverse_cons, exec_snoc]

/-- Where the parameters are older than every new variable. -/
def Older (params : List Avis) (start : Avis) : Prop :=
  ∀ x ∈ params, x < start

theorem Holds.known_lt (holds : Holds types params start right info) (older : Older params start)
    {x : Avis} (known : Knows params info x) : x < info.fresh := by
  rcases known with param | new
  · exact Nat.lt_of_lt_of_le (older x param) holds.below
  · obtain ⟨d, mem, rfl⟩ := List.mem_map.mp new
    exact (holds.range d mem).2

theorem Run.emits {new : List Vardec} {ids : List Avis} {expr : Expr}
    (holds : Holds types params start right info) (older : Older params start)
    (emits : Emits info info' new ids expr) (run : Run prims env info last)
    {vals : List (Value Rep)} (value : eval prims last expr = some vals)
    (length : vals.length = ids.length) :
    Run prims env info' (write last ids vals) ∧
      Keeps params info last (write last ids vals) := by
  constructor
  · unfold Run
    rw [run_emits emits, run]
    simp [step, value, length]
  · intro x known
    refine write_apart last vals fun mem => ?_
    exact Nat.lt_irrefl _ (Nat.lt_of_lt_of_le (holds.known_lt older known) (emits.range x mem).1)

theorem Run.introduce (holds : Holds types params start right info) (older : Older params start)
    (run : Run prims env info last) (scalar : SimpleType) (shape : List Nat) {expr : Expr}
    {v : Value Rep} (value : eval prims last expr = some [v]) :
    ∃ last', Run prims env (introduce scalar shape expr info) last' ∧
      Keeps params info last last' ∧ last' info.fresh = some v := by
  obtain ⟨run', keeps⟩ := run.emits holds older (emits_introduce scalar shape expr info) value rfl
  exact ⟨_, run', keeps, by simp [write]⟩

theorem Run.makeSel (holds : Holds types params start right info) (older : Older params start)
    (run : Run prims env info last) {i : Nat} {avis : Avis} (known : Knows params info avis)
    {v : Value Rep} (value : last avis = some v) {xs : List (Scalar Rep)}
    (vector : v.asVector = some xs) {x : Scalar Rep} (found : xs[i]? = some x) :
    ∃ last', Run prims env (makeSel i avis info).2 last' ∧ Keeps params info last last' ∧
      last' (makeSel i avis info).1 = some (scalarValue x) := by
  rw [make_sel]
  have index := holds.introduce .int [1] (.intVector [i]) (by simp [Expr.uses])
    fun _ => .intVector [i]
  have grows := (emits_introduce .int [1] (.intVector [i]) info).extends
  obtain ⟨last1, run1, keeps1, at1⟩ := run.introduce holds older .int [1]
    (eval_int_vector [i])
  have selected : eval prims last1 (.prf2 .selVxA info.fresh avis) = some [scalarValue x] := by
    simpa [eval, at1, keeps1 avis known, value] using eval_sel vector found
  obtain ⟨last2, run2, keeps2, at2⟩ := run1.introduce index older .int [] selected
  exact ⟨last2, run2, keeps1.trans grows keeps2, at2⟩

/-- The first argument of the element function, and the second one. -/
def FirstElem (form : Form) (v : Value Rep) (i : Nat) (x : Scalar Rep) : Prop :=
  if form = .SxV then v.asScalar = some x else ∃ xs, v.asVector = some xs ∧ xs[i]? = some x

def SecondElem (form : Form) (w : Value Rep) (i : Nat) (y : Scalar Rep) : Prop :=
  match form with
  | .VxS => w.asScalar = some y
  | .VxA => ∃ extent : Nat, w.shape[i]? = some extent ∧ y = .int extent
  | _ => ∃ ys, w.asVector = some ys ∧ ys[i]? = some y

/-- The arguments of the element function. -/
inductive RowOf (form : Form) (v : Value Rep) (i : Nat) : Option (Value Rep) →
    List (Scalar Rep) → Prop where
  | monadic {x : Scalar Rep} : form = .V → FirstElem form v i x → RowOf form v i none [x]
  | dyadic {w : Value Rep} {x y : Scalar Rep} : form ≠ .V → FirstElem form v i x →
      SecondElem form w i y → RowOf form v i (some w) [x, y]

/-- The values of the arguments. -/
structure ArgValues (types : Avis → NType) (arg1 : Avis) (arg2 : Option Avis)
    (env : Env Avis (Value Rep)) (v : Value Rep) (w : Option (Value Rep)) : Prop where
  first : env arg1 = some v
  firstFits : v.Fits (types arg1)
  second : arg2.map env = w.map some
  secondFits : ∀ a b, arg2 = some a → w = some b → b.Fits (types a)

variable {p q : Prf} {op : Op} {form : Form} {base : SimpleType} {n : Nat} {arg1 : Avis}
  {arg2 : Option Avis} {v : Value Rep} {w : Option (Value Rep)} {elems : List Avis}

theorem fits_vector {u : Value Rep} {type : NType} (fits : u.Fits type)
    (shape : type.shape = some [n]) : u.asVector = some u.elems ∧ u.elems.length = n := by
  have same := fits.shape _ shape
  have size := fits.size
  rw [same] at size
  have length : u.elems.length = n := by simpa using size
  exact ⟨by simp [Value.asVector, same, length], length⟩

theorem fits_scalar {u : Value Rep} {type : NType} (fits : u.Fits type)
    (shape : type.shape = some []) : ∃ x, u.asScalar = some x ∧ x.base = u.base := by
  have same := fits.shape _ shape
  have size := fits.size
  rw [same] at size
  obtain ⟨x, elems⟩ := List.length_eq_one_iff.mp size
  exact ⟨x, by simp [Value.asScalar, same, elems], fits.elems x (by simp [elems])⟩

/-- Arguments that fit have a row for each element. -/
theorem rows_of_fits (fit : ArgsFit form types base n arg1 arg2)
    (values : ArgValues types arg1 arg2 env v w) :
    ∃ rs, rows form (v :: w.toList) = some rs ∧ rs.length = n ∧
      ∀ (i : Nat) row, rs[i]? = some row → RowOf form v i w row := by
  have fit := fit.2
  have second := values.second
  have secondFits := values.secondFits
  cases arg2 with
  | none =>
      cases w with
      | some b => simp at second
      | none =>
          cases form <;> try cases fit
          obtain ⟨vector, length⟩ := fits_vector values.firstFits fit
          refine ⟨v.elems.map ([·]), by simp [rows, vector], by simp [length], ?_⟩
          intro i row found
          rw [List.getElem?_map, Option.map_eq_some_iff] at found
          obtain ⟨x, here, rfl⟩ := found
          exact .monadic rfl ⟨_, vector, here⟩
  | some a =>
      cases w with
      | none => simp at second
      | some b =>
          have fits := secondFits a b rfl rfl
          cases form with
          | S | SxS | V => cases fit
          | SxV =>
              obtain ⟨shape, -, shape'⟩ := fit
              obtain ⟨x, scalar, -⟩ := fits_scalar values.firstFits shape
              obtain ⟨vector, length⟩ := fits_vector fits shape'
              refine ⟨b.elems.map fun y => [x, y], by simp [rows, scalar, vector],
                by simp [length], ?_⟩
              intro i row found
              rw [List.getElem?_map, Option.map_eq_some_iff] at found
              obtain ⟨y, here, rfl⟩ := found
              exact .dyadic (by simp) scalar ⟨_, vector, here⟩
          | VxS =>
              obtain ⟨shape, -, shape'⟩ := fit
              obtain ⟨vector, length⟩ := fits_vector values.firstFits shape
              obtain ⟨y, scalar, -⟩ := fits_scalar fits shape'
              refine ⟨v.elems.map fun x => [x, y], by simp [rows, scalar, vector],
                by simp [length], ?_⟩
              intro i row found
              rw [List.getElem?_map, Option.map_eq_some_iff] at found
              obtain ⟨x, here, rfl⟩ := found
              exact .dyadic (by simp) ⟨_, vector, here⟩ scalar
          | VxV =>
              obtain ⟨shape, -, shape'⟩ := fit
              obtain ⟨vector, length⟩ := fits_vector values.firstFits shape
              obtain ⟨vector', length'⟩ := fits_vector fits shape'
              refine ⟨List.zipWith (fun x y => [x, y]) v.elems b.elems,
                by simp [rows, vector, vector', length, length'], by simp [length, length'], ?_⟩
              intro i row found
              rw [List.getElem?_zipWith] at found
              cases here : v.elems[i]? <;> cases here' : b.elems[i]? <;>
                simp only [here, here', Option.some.injEq, reduceCtorEq] at found
              subst found
              exact .dyadic (by simp) ⟨_, vector, here⟩ ⟨_, vector', here'⟩
          | VxA =>
              obtain ⟨shape, dim⟩ := fit
              obtain ⟨vector, length⟩ := fits_vector values.firstFits shape
              have length' := fits.dim n dim
              refine ⟨List.zipWith (fun x (extent : Nat) => [x, .int extent]) v.elems b.shape,
                by simp [rows, vector, length, length'], by simp [length, length'], ?_⟩
              intro i row found
              rw [List.getElem?_zipWith] at found
              cases here : v.elems[i]? <;> cases here' : b.shape[i]? <;>
                simp only [here, here', Option.some.injEq, reduceCtorEq] at found
              subst found
              exact .dyadic (by simp) ⟨_, vector, here⟩ ⟨_, here', rfl⟩

/-- What the environment holds after some elements with their results. -/
structure Sees (prims : Prims Rep) (env : Env Avis (Value Rep)) (params : List Avis) (op : Op)
    (form : Form) (w : Option (Value Rep)) (info : Info) (elems : List Avis)
    (last : Env Avis (Value Rep)) (ds : List (Scalar Rep × Bool)) : Prop where
  run : Run prims env info last
  params : ∀ a ∈ params, last a = env a
  elems : elems.reverse.map last = ds.map fun r => some (scalarValue r.1)
  guard : op.isGuard = true → ∀ x, info.lastp1pavis = some x →
    last x = some (boolValue (ds.all (·.2)))
  shape : form = .VxA → ∀ x b, info.shpavis = some x → w = some b →
    last x = some (vectorValue .int (b.shape.map fun extent : Nat => .int extent))

theorem first_run (args : Args form types base n params arg1 arg2) (older : Older params start)
    (holds : Holds types params start right info) (run : Run prims env info last) {i : Nat}
    {argavis1 : Avis} {info1 : Info}
    (first : (if form = .SxV then (arg1, info) else makeSel i arg1 info) = (argavis1, info1))
    (value : last arg1 = some v) (fits : v.Fits (types arg1)) {x : Scalar Rep}
    (elem : FirstElem form v i x) :
    ∃ last1, Run prims env info1 last1 ∧ Keeps params info last last1 ∧
      last1 argavis1 = some (scalarValue x) := by
  unfold FirstElem at elem
  split at first
  · rename_i SxV
    cases first
    subst SxV
    have shape := args.fit.2
    cases arg2 with
    | none => cases shape
    | some a =>
        obtain ⟨y, scalar, same⟩ := fits_scalar fits shape.1
        simp only [↓reduceIte, scalar, Option.some.injEq] at elem
        subst elem
        exact ⟨last, run, fun _ _ => rfl, by rw [value, ← scalar_value scalar same]⟩
  · rename_i other
    simp only [other, ↓reduceIte] at elem
    obtain ⟨xs, vector, found⟩ := elem
    have known : Knows params info arg1 := Or.inl args.first
    have selected := run.makeSel holds older known value vector found
    rw [first] at selected
    exact selected

theorem second_run (args : Args form types base n params arg1 arg2) (older : Older params start)
    (dyadic : form ≠ .V) (vector : form.isScalar = false)
    (holds : Holds types params start right info) (run : Run prims env info last) {i : Nat}
    {argavis2 : Option Avis} {info2 : Info}
    (second : secondArg form i arg2 info = some (argavis2, info2)) {b : Value Rep}
    (value : arg2.map last = some (some b)) (fits : ∀ a, arg2 = some a → b.Fits (types a))
    (shape : form = .VxA → ∃ x, info.shpavis = some x ∧ Knows params info x ∧
      last x = some (vectorValue .int (b.shape.map fun extent : Nat => .int extent)))
    {y : Scalar Rep} (elem : SecondElem form b i y) :
    ∃ a2 last2, argavis2 = some a2 ∧ Run prims env info2 last2 ∧ Keeps params info last last2 ∧
      last2 a2 = some (scalarValue y) := by
  obtain ⟨a, rfl, here⟩ := Option.map_eq_some_iff.mp value
  have known : Knows params info a := Or.inl (args.second a rfl)
  have fit := args.fit.2
  cases form with
  | V => exact absurd rfl dyadic
  | S | SxS => cases vector
  | VxS =>
      cases second
      obtain ⟨x, scalar, same⟩ := fits_scalar (fits a rfl) fit.2.2
      have this : x = y := Option.some.inj (scalar.symm.trans elem)
      subst this
      exact ⟨a, last, rfl, run, fun _ _ => rfl, by rw [here, ← scalar_value scalar same]⟩
  | VxA =>
      obtain ⟨x, found, known, value⟩ := shape rfl
      obtain ⟨extent, at_, rfl⟩ := elem
      rw [secondArg, found] at second
      cases second
      have vector : (vectorValue .int (b.shape.map fun extent : Nat => .int extent)).asVector =
          some (b.shape.map fun extent : Nat => (.int extent : Scalar Rep)) := by
        simp [Value.asVector, vectorValue]
      have entry : (b.shape.map fun extent : Nat => (.int extent : Scalar Rep))[i]? =
          some (.int extent) := by
        simp [at_]
      obtain ⟨last2, run2, keeps, at2⟩ := run.makeSel holds older known value vector entry
      exact ⟨_, last2, rfl, run2, keeps, at2⟩
  | SxV | VxV =>
      cases second
      obtain ⟨ys, vector, found⟩ := elem
      obtain ⟨last2, run2, keeps, at2⟩ := run.makeSel holds older known here vector found
      exact ⟨_, last2, rfl, run2, keeps, at2⟩

/-- The selections find the arguments of the element function. -/
theorem selected_run (args : Args form types base n params arg1 arg2) (older : Older params start)
    (values : ArgValues types arg1 arg2 env v w)
    (ready : Ready types params start right op form info elems) (vector : form.isScalar = false)
    (element : reading q = some (op, form.element)) {i : Nat} {argavis1 : Avis}
    {info1 info2 : Info} {argavis2 : Option Avis} {expr : Expr}
    (stage : Stage types params start right op q form i arg1 arg2 info argavis1 info1 argavis2
      info2 expr)
    {ds : List (Scalar Rep × Bool)} (sees : Sees prims env params op form w info elems last ds)
    {row : List (Scalar Rep)} (rowOf : RowOf form v i w row) :
    ∃ last1 last2, Run prims env info1 last1 ∧ Keeps params info last last1 ∧
      Run prims env info2 last2 ∧ Keeps params info1 last1 last2 ∧
      eval prims last2 expr = (prims.result op row).map op.results := by
  have value1 : last arg1 = some v := (sees.params _ args.first).trans values.first
  cases rowOf with
  | monadic V elem =>
      rename_i x
      obtain ⟨last1, run1, keeps1, at1⟩ :=
        first_run args older ready.holds sees.run stage.first value1 values.firstFits elem
      subst V
      cases stage.second
      cases stage.apply
      refine ⟨last1, last1, run1, keeps1, run1, fun _ _ => rfl, ?_⟩
      simpa [eval, at1] using eval_element1 element x
  | dyadic other elem elem' =>
      rename_i b x y
      obtain ⟨last1, run1, keeps1, at1⟩ :=
        first_run args older ready.holds sees.run stage.first value1 values.firstFits elem
      have value2 : arg2.map last1 = some (some b) := by
        obtain ⟨a, rfl, here⟩ := Option.map_eq_some_iff.mp values.second
        have param := args.second a rfl
        simp [keeps1 a (Or.inl param), sees.params a param, here]
      have shape : form = .VxA → ∃ x, info1.shpavis = some x ∧ Knows params info1 x ∧
          last1 x = some (vectorValue .int (b.shape.map fun extent : Nat => .int extent)) := by
        intro VxA
        obtain ⟨shp, found, has⟩ := ready.shape VxA
        refine ⟨shp, stage.shp1.trans found, stage.extends1.knows has.knows, ?_⟩
        rw [keeps1 shp has.knows, sees.shape VxA shp b found rfl]
      obtain ⟨a2, last2, rfl, run2, keeps2, at2⟩ := second_run args older other vector stage.holds1
        run1 stage.second value2 (fun a same => values.secondFits a b same rfl) shape elem'
      have expr := stage.apply
      simp only [elementExpr, other, ↓reduceIte, Option.map_some, Option.some.injEq] at expr
      subst expr
      have scalars : form.element = .SxS := by
        cases form <;> first | rfl | exact absurd rfl other | cases vector
      refine ⟨last1, last2, run1, keeps1, run2, keeps2, ?_⟩
      simpa [eval, keeps2 argavis1 stage.known1, at1, at2] using
        eval_element2 (scalars ▸ element) x y

/-- A chain that stops does not get any further. -/
theorem Extends.stops (grows : Extends info info')
    (stops : exec (eval prims) info.preassign.reverse env = none) :
    exec (eval prims) info'.preassign.reverse env = none := by
  obtain ⟨later, same⟩ := grows.preassign
  rw [← same, List.reverse_append, exec_append, stops]
  rfl

theorem eval_and {x y : Avis} {a b : Bool} (first : last x = some (boolValue a))
    (second : last y = some (boolValue b)) :
    eval prims last (.prf2 .andSxS x y) = some [boolValue (a && b)] := by
  have read : reading .andSxS = some (.and, .SxS) := rfl
  have value : evalPrf prims .andSxS [boolValue a, boolValue b] =
      (prims.result .and [.bool a, .bool b]).map Op.and.results := eval_element2 read _ _
  simp only [eval, first, second, Option.bind_eq_bind, Option.bind_some, value]
  simp [Prims.result, Op.isGuard, prims.apply_and, Op.results, boolValue]

/-- The element function gives its results to the new variables. -/
theorem afterOp_run {info2 : Info} (holds : Holds types params start right info2)
    (older : Older params start) (run : Run prims env info2 last) {expr : Expr}
    {r : Scalar Rep × Bool} (value : eval prims last expr = some (op.results r)) :
    ∃ last3, Run prims env (afterOp op expr info2) last3 ∧ Keeps params info2 last last3 ∧
      last3 info2.fresh = some (scalarValue r.1) ∧
      (op.isGuard = true → last3 (info2.fresh + 1) = some (boolValue r.2)) := by
  obtain ⟨new, ids, emits, rfl, -⟩ := afterOp_emits types params op expr info2
  have length : (op.results r).length =
      (info2.fresh :: (if op.isGuard then [info2.fresh + 1] else [])).length := by
    unfold Op.results
    split <;> rfl
  obtain ⟨run3, keeps⟩ := run.emits holds older emits value length
  refine ⟨_, run3, keeps, ?_, fun guard => ?_⟩
  · simp [write, Op.results]
  · simp [write, Op.results, guard]

/-- One element: its results, or no run at all. -/
theorem Sees.unrollElem (args : Args form types base n params arg1 arg2)
    (older : Older params start) (values : ArgValues types arg1 arg2 env v w)
    (ready : Ready types params start right op form info elems)
    (result : right → op.resultBase .int = .int)
    (vector : form.isScalar = false) (element : reading q = some (op, form.element))
    {i : Nat} {argavis1 : Avis} {info1 info2 : Info} {argavis2 : Option Avis} {expr : Expr}
    (stage : Stage types params start right op q form i arg1 arg2 info argavis1 info1 argavis2
      info2 expr)
    (fold : afterFold op (info2.fresh + 1) (afterOp op expr info2) = some info')
    (extends3 : Extends (afterOp op expr info2) info')
    {ds : List (Scalar Rep × Bool)} (sees : Sees prims env params op form w info elems last ds)
    {row : List (Scalar Rep)} (rowOf : RowOf form v i w row) :
    match prims.result op row with
    | none => exec (eval prims) info'.preassign.reverse env = none
    | some r => ∃ last', Sees prims env params op form w info' (info2.fresh :: elems) last'
        (ds ++ [r]) := by
  obtain ⟨last1, last2, run1, keeps1, run2, keeps2, value⟩ :=
    selected_run args older values ready vector element stage sees rowOf
  have keeps := keeps1.trans stage.extends1 keeps2
  obtain ⟨new, ids, emits, -, res, pred⟩ := afterOp_emits types params op expr info2
  cases done : prims.result op row with
  -- the primitive has no result, so the run stops at the assignment of this element
  | none =>
      refine extends3.stops ?_
      rw [run_emits emits, run2, Option.bind_some, step, value, done]
      rfl
  | some r =>
      rw [done, Option.map_some] at value
      obtain ⟨last3, run3, keeps3, at3, pred3⟩ := afterOp_run stage.holds2 older run2 value
      have before := stage.extends1.trans stage.extends2
      have keeps' := keeps.trans before keeps3
      have lastElems : (info2.fresh :: elems).reverse.map last3 =
          (ds ++ [r]).map fun r => some (scalarValue r.1) := by
        have old : elems.reverse.map last3 = elems.reverse.map last :=
          List.map_congr_left fun x mem => keeps' x (ready.elems x (List.mem_reverse.mp mem))
        rw [List.reverse_cons, List.map_append, List.map_append, old, sees.elems]
        simp [at3]
      have params3 : ∀ a ∈ params, last3 a = env a := fun a mem =>
        (keeps' a (Or.inl mem)).trans (sees.params a mem)
      obtain ⟨last3', shp3⟩ := afterOp_kept op expr info2
      have shape3 : form = .VxA → ∀ x b, (afterOp op expr info2).shpavis = some x → w = some b →
          last3 x = some (vectorValue .int (b.shape.map fun extent : Nat => .int extent)) := by
        intro VxA x b found second
        have found' := (shp3.trans stage.shp2).symm.trans found
        obtain ⟨shp, same, has⟩ := ready.shape VxA
        have this : shp = x := Option.some.inj (same.symm.trans found')
        rw [← this, keeps' shp has.knows]
        exact sees.shape VxA shp b same second
      cases guard : op.isGuard with
      | false =>
          simp only [afterFold, guard, Bool.false_eq_true, ↓reduceIte, Option.some.injEq] at fold
          subst fold
          exact ⟨last3, run3, params3, lastElems, by simp [guard], shape3⟩
      -- the predicate of this element is joined to those of the elements before
      | true =>
          obtain ⟨last0, found, bool⟩ := ready.guard guard
          have holds3 := stage.holds2.afterOp stage.uses stage.typed result
          have known3 : Knows params (afterOp op expr info2) last0 :=
            emits.extends.knows (before.knows bool.knows)
          have first : last3 last0 = some (boolValue (ds.all (·.2))) :=
            (keeps' last0 bool.knows).trans (sees.guard guard last0 found)
          simp only [afterFold, guard, ↓reduceIte, last3', stage.last2, found, Option.map_some,
            Option.some.injEq] at fold
          subst fold
          obtain ⟨last4, run4, keeps4, at4⟩ :=
            run3.introduce holds3 older .bool [] (eval_and first (pred3 guard))
          refine ⟨last4, run4, ?_, ?_, ?_, ?_⟩
          · intro a mem
            exact (keeps4 a (Or.inl mem)).trans (params3 a mem)
          · rw [← lastElems]
            refine List.map_congr_left fun x mem => keeps4 x ?_
            rcases List.mem_cons.mp (List.mem_reverse.mp mem) with rfl | old
            · exact res.knows
            · exact emits.extends.knows (before.knows (ready.elems x old))
          · intro _ x same
            cases same
            simpa using at4
          · intro VxA x b same second
            obtain ⟨shp, here, has⟩ := ready.shape VxA
            have this : shp = x :=
              Option.some.inj (((shp3.trans stage.shp2).trans here).symm.trans same)
            rw [keeps4 x (this ▸ emits.extends.knows (before.knows has.knows))]
            exact shape3 VxA x b same second

theorem Starts.sees (args : Args form types base n params arg1 arg2) {fresh : Avis}
    (older : Older params fresh) (values : ArgValues types arg1 arg2 env v w) {info0 : Info}
    (starts : Starts op form n arg2 fresh info0) :
    ∃ last, Sees prims env params op form w info0 [] last [] := by
  have apart : ∀ a ∈ params, a ≠ fresh ∧ a ≠ fresh + 1 := fun a mem =>
    ⟨Nat.ne_of_lt (older a mem), Nat.ne_of_lt (Nat.lt_succ_of_lt (older a mem))⟩
  cases starts with
  | none guard shape =>
      exact ⟨env, rfl, fun _ _ => rfl, rfl, by simp [guard], fun yes => absurd yes shape⟩
  | guard guard shape =>
      refine ⟨_, rfl, fun a mem => ?_, rfl, fun _ x same => ?_, fun yes => absurd yes shape⟩
      · simp [write, (apart a mem).1]
      · cases same
        simp [write]
  | shape VxA second =>
      rename_i a
      have known := args.second a second
      obtain ⟨b, same⟩ : ∃ b, w = some b := by
        have arg := values.second
        rw [second] at arg
        cases w with
        | none => cases arg
        | some b => exact ⟨b, rfl⟩
      have value : env a = some b := by
        have arg := values.second
        simpa [second, same] using arg
      have run : exec (eval prims) (shapeInfo a n fresh).preassign.reverse env =
          some (write (write env [fresh + 1] [boolValue true]) [fresh]
            [vectorValue .int (b.shape.map fun extent : Nat => .int extent)]) := by
        simp [shapeInfo, exec, step, eval, evalPrf, write, (apart a known).2, value]
      refine ⟨_, run, fun c mem => ?_, rfl, fun _ x same => ?_, fun _ x b' same' second' => ?_⟩
      · simp [write, (apart c mem).1, (apart c mem).2]
      · cases same
        simp [write]
      · cases same'
        cases same.symm.trans second'
        simp [write]

/-- The loop computes the results of the elements, or stops. -/
theorem loop_run {info0 : Info} {last0 : Env Avis (Value Rep)}
    (ready : Ready types params start right op form info0 [])
    (args : Args form types base n params arg1 arg2) (older : Older params start)
    (values : ArgValues types arg1 arg2 env v w) (int : right → base = .int)
    (result : right → op.resultBase .int = .int) (read : reading p = some (op, form))
    (vector : form.isScalar = false) (normal : normalizePrf p = some q)
    (element : reading q = some (op, form.element))
    (sees : Sees prims env params op form w info0 [] last0 [])
    {rs : List (List (Scalar Rep))} (rowsOf : ∀ (i : Nat) row, rs[i]? = some row → RowOf form v i w row)
    {len : Nat} (within : len ≤ rs.length) {info : Info} {elems : List Avis}
    (looped : unrollLoop p arg1 arg2 len (info0, []) = some (info, elems)) :
    match (rs.take len).mapM (prims.result op) with
    | none => exec (eval prims) info.preassign.reverse env = none
    | some ds => ∃ last, Sees prims env params op form w info elems last ds := by
  induction len generalizing info elems with
  | zero =>
      cases looped
      exact ⟨last0, sees⟩
  | succ len ih =>
      obtain ⟨info', elems', looped', ready', -⟩ :=
        unroll_loop ready args int result read vector normal element len
      obtain ⟨argavis1, info1, argavis2, info2, expr, info'', stage, fold, unrolled, -, extends3⟩ :=
        ready'.unrollElem args int result read vector normal element len
      have step : unrollLoop p arg1 arg2 (len + 1) (info0, []) =
          some (info'', info2.fresh :: elems') := by
        simp [unrollLoop, looped', unrolled]
      cases step.symm.trans looped
      have small : len < rs.length := within
      have here : rs[len]? = some rs[len] := List.getElem?_eq_getElem small
      have taken : rs.take (len + 1) = rs.take len ++ [rs[len]] := by
        rw [List.take_add_one, here]
        rfl
      have before := ih (Nat.le_of_lt small) looped'
      rw [taken, List.mapM_append]
      cases done : (rs.take len).mapM (prims.result op) with
      | none =>
          rw [done] at before
          obtain ⟨_, _, emits, -⟩ := afterOp_emits types params op expr info2
          exact ((stage.extends1.trans stage.extends2).trans
            (emits.extends.trans extends3)).stops before
      | some ds =>
          rw [done] at before
          obtain ⟨last, sees'⟩ := before
          have next := sees'.unrollElem args older values ready' result vector element stage fold
            extends3 (rowsOf len _ here)
          cases one : prims.result op rs[len] with
          | none => simpa [one] using next
          | some r => simpa [one] using next

end Runs

section Results

/-- The let before it is unrolled. -/
def original (lhs : List Avis) (p : Prf) (arg1 : Avis) (arg2 : Option Avis) : Assign Avis Expr :=
  ⟨lhs, match arg2 with
    | none => .prf1 p arg1
    | some a => .prf2 p arg1 a⟩

/-- The simple types that the type checker accepts. -/
def wholeTypes : List SimpleType :=
  [.byte, .short, .int, .long, .longlong, .ubyte, .ushort, .uint, .ulong, .ulonglong]

def numTypes : List SimpleType :=
  wholeTypes ++ [.float, .floatvec, .double]

def signedNumTypes : List SimpleType :=
  [.byte, .short, .int, .long, .longlong, .float, .floatvec, .double]

def Op.Accepts (op : Op) (base : SimpleType) : Prop :=
  match op with
  | .add | .sub | .mul | .div | .min | .max | .abs => base ∈ numTypes
  | .mod => base ∈ wholeTypes
  | .neg => base ∈ signedNumTypes
  | .and | .or | .not => base = .bool
  | .lt | .le | .eq | .ge | .gt | .neq | .nonNegVal => True
  | .valLtVal | .valLeVal => base = .int

/-- A let that the type checker accepts, for vectors of the length `n` with elements of the type
`base`. All its variables are older than `fresh`. -/
structure LetFits (types : Avis → NType) (lhs : List Avis) (p : Prf) (op : Op) (form : Form)
    (base : SimpleType) (n : Nat) (arg1 : Avis) (arg2 : Option Avis) (fresh : Avis) : Prop where
  read : reading p = some (op, form)
  args : ArgsFit form types base n arg1 arg2
  accepts : op.Accepts base
  results : lhs.length = if op.isGuard then 2 else 1
  distinct : lhs.Nodup
  apart : ∀ x ∈ lhs, x ∉ arg1 :: arg2.toList
  older : ∀ x ∈ lhs ++ arg1 :: arg2.toList, x < fresh
  result : ∀ x, lhs.head? = some x → types x = ⟨op.resultBase base, .aks [n]⟩

/-- The arguments have values of their types, and the new variables do not have values yet. -/
structure EnvFits {Rep : Type} (types : Avis → NType) (arg1 : Avis) (arg2 : Option Avis)
    (fresh : Avis) (env : Env Avis (Value Rep)) : Prop where
  args : ∀ a ∈ arg1 :: arg2.toList, ∃ v, env a = some v ∧ v.Fits (types a)
  new : ∀ x, fresh ≤ x → env x = none

/-- The chain defines every variable before its use and once, its new variables are those that are
declared, and it gives the variables of the let the values that the let gives them. -/
structure Sound {Rep : Type} (prims : Prims Rep) (types : Avis → NType) (lhs : List Avis) (p : Prf)
    (arg1 : Avis) (arg2 : Option Avis) (fresh : Avis) (out : Unrolled) : Prop where
  ordered : Ordered Expr.uses (arg1 :: arg2.toList) out.chain
  once : (defines out.chain).Nodup
  defined : ∀ x, x ∈ defines out.chain ↔ x ∈ lhs ∨ x ∈ out.vardec.map (·.avis)
  new : ∀ d ∈ out.vardec, fresh ≤ d.avis
  declared : (out.vardec.map (·.avis)).Nodup
  meaning : ∀ env, EnvFits types arg1 arg2 fresh env →
    (exec (eval prims) out.chain env).map (lhs.map ·) =
      (step (eval prims) env (original lhs p arg1 arg2)).map (lhs.map ·)

/-- Every value that is assigned to a new variable has the type of its declaration. -/
def DeclaredRight {Rep : Type} (prims : Prims Rep) (types : Avis → NType) (arg1 : Avis)
    (arg2 : Option Avis) (fresh : Avis) (out : Unrolled) : Prop :=
  ∀ env, EnvFits types arg1 arg2 fresh env →
    Assigns (eval prims) (fun x v => ∀ d ∈ out.vardec, d.avis = x → v.base = d.scalar)
      out.chain env

/-- What follows the loop: the predicate of a guard and the vector of the results. -/
def resultChain (guard : Bool) (lhs : List Avis) (pred : Avis) (vec : Expr) :
    List (Assign Avis Expr) :=
  (if guard then [⟨lhs.tail, .id pred⟩] else []) ++ [⟨lhs.take 1, vec⟩]

variable {Rep : Type} {prims : Prims Rep} {types : Avis → NType} {lhs : List Avis} {p : Prf}
  {op : Op} {form : Form} {base : SimpleType} {n : Nat} {arg1 : Avis} {arg2 : Option Avis}
  {fresh : Avis} {right : Prop}

theorem LetFits.vector (fits : LetFits types lhs p op form base n arg1 arg2 fresh) :
    form.isScalar = false := by
  have args := fits.args.2
  cases form <;> first | rfl | (cases arg2 <;> cases args)

theorem LetFits.params (fits : LetFits types lhs p op form base n arg1 arg2 fresh) :
    Args form types base n (arg1 :: arg2.toList) arg1 arg2 :=
  ⟨fits.args, by simp, fun a second => by simp [second]⟩

theorem LetFits.olderParams (fits : LetFits types lhs p op form base n arg1 arg2 fresh) :
    Older (arg1 :: arg2.toList) fresh :=
  fun x mem => fits.older x (List.mem_append_right _ mem)

theorem LetFits.shapes (fits : LetFits types lhs p op form base n arg1 arg2 fresh) :
    (types arg1).shape.isSome = true ∧
      (arg2.isNone || p = .valLtShapeVxA || (arg2.bind (types · |>.shape)).isSome) = true := by
  have args := fits.args.2
  have read := fits.read
  cases arg2 with
  | none =>
      cases form <;> try cases args
      simp [args]
  | some a =>
      cases form with
      | S | SxS | V => cases args
      | VxA =>
          have name : p = .valLtShapeVxA := by
            cases p <;> cases read
            rfl
          simp [args, name]
      | SxV | VxS | VxV => simp [args]

/-- The let is unrolled to what the loop emits and the results. -/
theorem uprf_unrolls (fits : LetFits types lhs p op form base n arg1 arg2 fresh)
    (accepted : unrollOracle p (types arg1) (arg2.map types) = true) {prfunrnum : Int}
    (below : (n : Int) < prfunrnum) {q : Prf} (normal : normalizePrf p = some q)
    (element : reading q = some (op, form.element)) (int : right → base = .int)
    (result : right → op.resultBase .int = .int) :
    ∃ info0 info elems pred, Starts op form n arg2 fresh info0 ∧
      unrollLoop p arg1 arg2 n (info0, []) = some (info, elems) ∧
      Ready types (arg1 :: arg2.toList) fresh right op form info elems ∧
      (op.isGuard = true → info.lastp1pavis = some pred) ∧
      uprfPrf prfunrnum types lhs p arg1 arg2 fresh =
        some (some ⟨info.preassign.reverse ++
          resultChain op.isGuard lhs pred (.vector (op.resultBase base) elems.reverse),
          info.vardec⟩) := by
  obtain ⟨info0, made, starts⟩ := true_scalar_starts fits.params fits.read fits.vector fresh
  obtain ⟨info, elems, looped, ready, -⟩ := unroll_loop (starts.ready fits.params) fits.params int
    result fits.read fits.vector normal element n
  obtain ⟨lhs1, head⟩ : ∃ lhs1, lhs.head? = some lhs1 := by
    have results := fits.results
    cases lhs with
    | nil => simp at results; split at results <;> cases results
    | cons lhs1 rest => exact ⟨lhs1, rfl⟩
  have type := fits.result lhs1 head
  obtain ⟨shape1, shape2⟩ := fits.shapes
  have enters : uprfPrf prfunrnum types lhs p arg1 arg2 fresh =
      (makeResultNode p lhs (op.resultBase base) elems info).map fun r =>
        some ⟨r.2.2.preassign.reverse ++ [⟨r.1, r.2.1⟩], r.2.2.vardec⟩ := by
    have gate : (unrollOracle p (types arg1) (arg2.map types) && (types arg1).shape.isSome
        && (arg2.isNone || p = .valLtShapeVxA || (arg2.bind (types · |>.shape)).isSome)
        && (n : Int) < prfunrnum) = true := by
      simp [accepted, shape1, shape2, below]
    unfold uprfPrf
    simp only [head, Option.bind_eq_bind, Option.bind_some, type, gate, ↓reduceIte]
    change (makeTrueScalar p arg2 _ (noInfo fresh)).bind _ = _
    rw [made, Option.bind_some, looped, Option.bind_some]
    cases makeResultNode p lhs (op.resultBase base) elems info <;> rfl
  rw [result_node fits.read fits.vector] at enters
  have results := fits.results
  cases guard : op.isGuard with
  | false =>
      simp only [guard, Bool.false_eq_true, ↓reduceIte, Option.map_some] at enters results
      refine ⟨info0, info, elems, 0, starts, looped, ready, by simp, ?_⟩
      have whole : lhs.take 1 = lhs := List.take_of_length_le (Nat.le_of_eq results)
      rw [enters]
      simp [resultChain, whole]
  | true =>
      obtain ⟨pred, found, -⟩ := ready.guard guard
      simp only [guard, ↓reduceIte] at enters results
      refine ⟨info0, info, elems, pred, starts, looped, ready, fun _ => found, ?_⟩
      match lhs, results with
      | [x, y], _ =>
          rw [enters]
          simp [makeResultNode, found, assign, resultChain]

variable {info0 info : Info} {elems : List Avis} {pred : Avis} {params : List Avis}

theorem Holds.known_mem (holds : Holds types params fresh right info) {x : Avis}
    (known : Knows params info x) : x ∈ params ++ defines info.preassign.reverse := by
  rcases known with param | new
  · exact List.mem_append_left _ param
  · exact List.mem_append_right _ (holds.declared.mem_iff.mp new)

theorem result_chain_defines (guard : Bool) {lhs : List Avis}
    (results : lhs.length = if guard then 2 else 1) (pred : Avis) (vec : Expr) :
    (defines (resultChain guard lhs pred vec)).Perm lhs := by
  cases guard with
  | false =>
      have whole : lhs.take 1 = lhs := List.take_of_length_le (Nat.le_of_eq results)
      simp [resultChain, defines, whole]
  | true =>
      obtain ⟨x, y, rfl⟩ := List.length_eq_two.mp results
      exact .swap ..

theorem result_chain_ordered (holds : Holds types params fresh right info)
    (elemsKnown : ∀ x ∈ elems, Knows params info x) {guard : Bool}
    (predKnown : guard = true → Knows params info pred) (scalar : SimpleType) :
    Ordered Expr.uses (params ++ defines info.preassign.reverse)
      (resultChain guard lhs pred (.vector scalar elems.reverse)) := by
  have elems' : ∀ x ∈ elems.reverse, x ∈ params ++ defines info.preassign.reverse := fun x mem =>
    holds.known_mem (elemsKnown x (List.mem_reverse.mp mem))
  cases guard with
  | false =>
      rw [resultChain, if_neg (by simp), List.nil_append]
      exact ⟨elems', trivial⟩
  | true =>
      rw [resultChain, if_pos rfl]
      refine ⟨?_, fun x mem => List.mem_append_left _ (elems' x mem), trivial⟩
      simpa [Expr.uses] using holds.known_mem (predKnown rfl)

theorem eval_original {env : Env Avis (Value Rep)} {v : Value Rep} {w : Option (Value Rep)}
    (read : reading p = some (op, form)) (values : ArgValues types arg1 arg2 env v w) :
    eval prims env (original lhs p arg1 arg2).expr =
      elementwise prims op form v.base (v :: w.toList) := by
  have first := values.first
  have second := values.second
  cases arg2 with
  | none =>
      cases w with
      | some b => simp at second
      | none => simp [original, eval, first, eval_prf_reading read]
  | some a =>
      cases w with
      | none => simp at second
      | some b =>
          have here : env a = some b := by simpa using second
          simp [original, eval, first, here, eval_prf_reading read]

theorem elems_as_scalars {last : Env Avis (Value Rep)} {xs : List Avis}
    {ds : List (Scalar Rep × Bool)}
    (values : xs.map last = ds.map fun r => some (scalarValue r.1)) :
    (xs.mapM fun x => (last x).bind Value.asScalar) = some (ds.map (·.1)) := by
  induction xs generalizing ds with
  | nil =>
      cases ds with
      | nil => rfl
      | cons r ds => simp at values
  | cons x xs ih =>
      cases ds with
      | nil => simp at values
      | cons r ds =>
          simp only [List.map_cons, List.cons.injEq] at values
          simp [List.mapM_cons, values.1, ih values.2, Value.asScalar, scalarValue]

/-- The results of the let from what the environment holds after the loop. -/
theorem result_chain_run {env last : Env Avis (Value Rep)} {w : Option (Value Rep)}
    {ds : List (Scalar Rep × Bool)} (sees : Sees prims env params op form w info elems last ds)
    (results : lhs.length = if op.isGuard then 2 else 1) (distinct : lhs.Nodup)
    (apart : ∀ x ∈ lhs, ¬ Knows params info x) (elemsKnown : ∀ x ∈ elems, Knows params info x)
    (found : op.isGuard = true → info.lastp1pavis = some pred) (scalar : SimpleType) :
    ∃ final, exec (eval prims) (resultChain op.isGuard lhs pred (.vector scalar elems.reverse))
        last = some final ∧
      lhs.map final = (vectorValue scalar (ds.map (·.1)) ::
        if op.isGuard then [boolValue (ds.all (·.2))] else []).map some := by
  have xs := elems_as_scalars sees.elems
  have guarded := sees.guard
  cases guard : op.isGuard with
  | false =>
      simp only [guard, Bool.false_eq_true, ↓reduceIte] at results
      obtain ⟨x, rfl⟩ := List.length_eq_one_iff.mp results
      refine ⟨write last [x] [vectorValue scalar (ds.map (·.1))], ?_, by simp [write]⟩
      simp [resultChain, exec, step, eval, xs]
  | true =>
      simp only [guard, ↓reduceIte] at results
      obtain ⟨x, y, rfl⟩ := List.length_eq_two.mp results
      have value := guarded guard pred (found guard)
      have differ : y ≠ x := by
        intro same
        simp [same] at distinct
      -- The predicate is no element.
      have kept : (elems.reverse.map (write last [y] [boolValue (ds.all (·.2))])) =
          elems.reverse.map last := by
        refine List.map_congr_left fun z mem => write_apart _ _ fun here => ?_
        rw [List.mem_singleton] at here
        exact apart y (by simp) (here ▸ elemsKnown z (List.mem_reverse.mp mem))
      have xs' := elems_as_scalars (kept.trans sees.elems)
      refine ⟨write (write last [y] [boolValue (ds.all (·.2))]) [x]
        [vectorValue scalar (ds.map (·.1))], ?_, ?_⟩
      · simp [resultChain, exec, step, eval, value, xs']
      · simp [write, differ]

theorem EnvFits.argValues {env : Env Avis (Value Rep)} (fits : EnvFits types arg1 arg2 fresh env) :
    ∃ v w, ArgValues types arg1 arg2 env v w := by
  obtain ⟨v, first, firstFits⟩ := fits.args arg1 (by simp)
  cases arg2 with
  | none => exact ⟨v, none, first, firstFits, rfl, by simp⟩
  | some a =>
      obtain ⟨b, second, secondFits⟩ := fits.args a (by simp)
      refine ⟨v, some b, first, firstFits, by simp [second], ?_⟩
      intro a' b' same same'
      cases same
      cases same'
      exact secondFits

theorem elementwise_vector (vector : form.isScalar = false) {vals : List (Value Rep)}
    {rs : List (List (Scalar Rep))} (found : rows form vals = some rs) (base : SimpleType) :
    elementwise prims op form base vals = (rs.mapM (prims.result op)).map fun ds =>
      vectorValue (op.resultBase base) (ds.map (·.1)) ::
        if op.isGuard then [boolValue (ds.all (·.2))] else [] := by
  simp only [elementwise, found, vector, Option.bind_eq_bind, Option.bind_some,
    Bool.false_eq_true, ↓reduceIte, List.singleton_append]
  cases rs.mapM (prims.result op) <;> rfl

theorem map_write (env : Env Avis (Value Rep)) {lhs : List Avis} (distinct : lhs.Nodup)
    {vals : List (Value Rep)} (length : vals.length = lhs.length) :
    lhs.map (write env lhs vals) = vals.map some := by
  induction lhs generalizing vals with
  | nil =>
      rw [List.length_eq_zero_iff.mp length]
      rfl
  | cons x lhs ih =>
      obtain ⟨apart, distinct⟩ := List.nodup_cons.mp distinct
      cases vals with
      | nil => cases length
      | cons v vals =>
          have rest := ih distinct (Nat.succ.inj length)
          have same : lhs.map (write env (x :: lhs) (v :: vals)) = lhs.map (write env lhs vals) :=
            List.map_congr_left fun y mem => by
              have differ : y ≠ x := fun same => apart (same ▸ mem)
              simp [write, differ]
          rw [List.map_cons, same, rest]
          simp [write]

/-- The lets of the unrolled chain. -/
structure Emitted (types : Avis → NType) (lhs : List Avis) (p : Prf) (op : Op) (form : Form)
    (base : SimpleType) (n : Nat) (arg1 : Avis) (arg2 : Option Avis) (fresh : Avis) (right : Prop)
    (q : Prf) (info0 info : Info) (elems : List Avis) (pred : Avis) : Prop where
  fits : LetFits types lhs p op form base n arg1 arg2 fresh
  normal : normalizePrf p = some q
  element : reading q = some (op, form.element)
  int : right → base = .int
  result : right → op.resultBase .int = .int
  starts : Starts op form n arg2 fresh info0
  looped : unrollLoop p arg1 arg2 n (info0, []) = some (info, elems)
  ready : Ready types (arg1 :: arg2.toList) fresh right op form info elems
  found : op.isGuard = true → info.lastp1pavis = some pred

/-- The chain that the let becomes. -/
def unrolled (op : Op) (base : SimpleType) (lhs : List Avis) (info : Info) (elems : List Avis)
    (pred : Avis) : Unrolled :=
  ⟨info.preassign.reverse ++
    resultChain op.isGuard lhs pred (.vector (op.resultBase base) elems.reverse), info.vardec⟩

variable {q : Prf}

theorem LetFits.unknown (fits : LetFits types lhs p op form base n arg1 arg2 fresh)
    (holds : Holds types (arg1 :: arg2.toList) fresh right info) :
    ∀ x ∈ lhs, ¬ Knows (arg1 :: arg2.toList) info x := by
  intro x mem known
  rcases known with param | new
  · exact fits.apart x mem param
  · obtain ⟨d, declared, rfl⟩ := List.mem_map.mp new
    have old := fits.older d.avis (List.mem_append_left _ mem)
    exact Nat.lt_irrefl _ (Nat.lt_of_lt_of_le old (holds.range d declared).1)

theorem Emitted.meaning
    (emitted : Emitted types lhs p op form base n arg1 arg2 fresh right q info0 info elems pred)
    {env : Env Avis (Value Rep)} (envFits : EnvFits types arg1 arg2 fresh env) :
    (exec (eval prims) (unrolled op base lhs info elems pred).chain env).map (lhs.map ·) =
      (step (eval prims) env (original lhs p arg1 arg2)).map (lhs.map ·) := by
  have fits := emitted.fits
  have args := fits.params
  obtain ⟨v, w, values⟩ := envFits.argValues
  obtain ⟨rs, found, length, rowsOf⟩ := rows_of_fits fits.args values
  obtain ⟨last0, sees⟩ : ∃ last, Sees prims env _ op form w info0 [] last [] :=
    emitted.starts.sees args fits.olderParams values
  have run := loop_run (emitted.starts.ready args) args fits.olderParams values emitted.int
    emitted.result fits.read fits.vector emitted.normal emitted.element sees rowsOf
    (Nat.le_of_eq length.symm) emitted.looped
  have sameBase : v.base = base := values.firstFits.base.trans fits.args.1
  rw [← length, List.take_length] at run
  unfold step
  rw [eval_original fits.read values, elementwise_vector fits.vector found, sameBase]
  unfold unrolled
  rw [exec_append]
  cases done : rs.mapM (prims.result op) with
  | none =>
      rw [done] at run
      rw [run]
      rfl
  | some ds =>
      rw [done] at run
      obtain ⟨last, sees⟩ := run
      obtain ⟨final, ran, final_eq⟩ := result_chain_run sees fits.results fits.distinct
        (fits.unknown emitted.ready.holds) emitted.ready.elems emitted.found (op.resultBase base)
      have full : (vectorValue (op.resultBase base) (ds.map (·.1)) ::
          if op.isGuard then [boolValue (ds.all (·.2))] else []).length = lhs.length := by
        rw [fits.results]
        split <;> rfl
      rw [sees.run, Option.bind_some, ran]
      have ids : (original lhs p arg1 arg2).ids = lhs := rfl
      simp only [Option.map_some, Option.bind_eq_bind, Option.bind_some, final_eq, ids]
      rw [if_pos full, Option.map_some, map_write env fits.distinct full]

theorem Emitted.sound (prims : Prims Rep)
    (emitted : Emitted types lhs p op form base n arg1 arg2 fresh right q info0 info elems pred) :
    Sound prims types lhs p arg1 arg2 fresh (unrolled op base lhs info elems pred) := by
  have holds := emitted.ready.holds
  have results := result_chain_defines op.isGuard emitted.fits.results pred
    (.vector (op.resultBase base) elems.reverse)
  have defined : (defines (unrolled op base lhs info elems pred).chain).Perm
      (info.vardec.map (·.avis) ++ lhs) := by
    rw [unrolled, defines_append]
    exact holds.declared.symm.append results
  refine ⟨?_, ?_, fun x => ?_, fun d mem => (holds.range d mem).1, holds.nodup,
    fun env envFits => emitted.meaning envFits⟩
  · rw [unrolled, ordered_append]
    refine ⟨holds.ordered, result_chain_ordered holds emitted.ready.elems (fun guard => ?_) _⟩
    obtain ⟨pred', found, bool⟩ := emitted.ready.guard guard
    cases found.symm.trans (emitted.found guard)
    exact bool.knows
  · rw [defined.nodup_iff, List.nodup_append]
    refine ⟨holds.nodup, emitted.fits.distinct, fun x mem y mem' same => ?_⟩
    exact emitted.fits.unknown holds y mem' (same ▸ Or.inr mem)
  · rw [defined.mem_iff, List.mem_append]
    exact or_comm

end Results

section Declarations

variable {Rep : Type} {prims : Prims Rep} {has : Avis → SimpleType → Prop}

/-- The value and its elements are of the type. -/
def Value.Typed (v : Value Rep) (scalar : SimpleType) : Prop :=
  v.base = scalar ∧ ∀ x ∈ v.elems, x.base = v.base

def EnvTyped (has : Avis → SimpleType → Prop) (env : Env Avis (Value Rep)) : Prop :=
  ∀ x scalar, has x scalar → ∀ v, env x = some v → v.Typed scalar

theorem typed_scalar (x : Scalar Rep) : (scalarValue x).Typed x.base :=
  ⟨rfl, by simp [scalarValue]⟩

theorem as_scalar_mem {v : Value Rep} {x : Scalar Rep} (scalar : v.asScalar = some x) :
    x ∈ v.elems := by
  unfold Value.asScalar at scalar
  split at scalar
  · rename_i y _ elems
    cases scalar
    simp [elems]
  · cases scalar

theorem guard_result_base {op : Op} (guard : op.isGuard = true) (scalar : SimpleType) :
    op.resultBase scalar = scalar := by
  cases op <;> first | rfl | cases guard

theorem typed_results {op : Op} {x : Scalar Rep} {xs : List (Scalar Rep)}
    {r : Scalar Rep × Bool} (done : prims.result op (x :: xs) = some r) :
    List.Forall₂ Value.Typed (op.results r) (op.bases x.base) := by
  unfold Prims.result at done
  unfold Op.results Op.bases
  cases guard : op.isGuard with
  | true =>
      simp only [guard, ↓reduceIte, List.head?_cons, Option.bind_eq_bind, Option.bind_some] at done
      obtain ⟨q, _, done⟩ := Option.bind_eq_some_iff.mp done
      cases done
      rw [guard_result_base guard]
      exact .cons (typed_scalar x) (.cons (typed_scalar (.bool q)) .nil)
  | false =>
      simp only [guard, Bool.false_eq_true, ↓reduceIte] at done
      obtain ⟨y, applied, rfl⟩ := Option.map_eq_some_iff.mp done
      rw [← prims.apply_base op x xs y applied]
      exact .cons (typed_scalar y) .nil

theorem elementwise_scalar1 (op : Op) (base : SimpleType) (v : Value Rep) :
    elementwise prims op .S base [v] =
      v.asScalar.bind fun x => (prims.result op [x]).map op.results := by
  simp only [elementwise, rows]
  cases v.asScalar with
  | none => rfl
  | some x =>
      cases done : prims.result op [x] with
      | none => simp [done]
      | some r => simp [done, Form.isScalar, Op.results]

theorem elementwise_scalar2 (op : Op) (base : SimpleType) (v w : Value Rep) :
    elementwise prims op .SxS base [v, w] = v.asScalar.bind fun x => w.asScalar.bind fun y =>
      (prims.result op [x, y]).map op.results := by
  simp only [elementwise, rows]
  cases v.asScalar with
  | none => rfl
  | some x =>
      cases w.asScalar with
      | none => rfl
      | some y =>
          cases done : prims.result op [x, y] with
          | none => simp [done]
          | some r => simp [done, Form.isScalar, Op.results]

theorem eval_typed {env : Env Avis (Value Rep)} (typed : EnvTyped has env) {expr : Expr}
    {bases : List SimpleType} (exprs : ExprBases has expr bases) {vals : List (Value Rep)}
    (value : eval prims env expr = some vals) : List.Forall₂ Value.Typed vals bases := by
  cases exprs with
  | intVector elems =>
      cases value
      refine .cons ⟨rfl, ?_⟩ .nil
      simp [vectorValue, Scalar.base]
  | bool b =>
      cases value
      exact .cons (typed_scalar (.bool b)) .nil
  | id known =>
      obtain ⟨v, found, rfl⟩ := Option.map_eq_some_iff.mp value
      exact .cons (typed _ _ known v found) .nil
  | sel iv known =>
      obtain ⟨i, _, value⟩ := Option.bind_eq_some_iff.mp value
      obtain ⟨a, found, value⟩ := Option.bind_eq_some_iff.mp value
      obtain ⟨xs, _, value⟩ := Option.bind_eq_some_iff.mp value
      obtain ⟨position, _, value⟩ := Option.bind_eq_some_iff.mp value
      obtain ⟨x, at_, value⟩ := Option.bind_eq_some_iff.mp value
      cases value
      obtain ⟨base, elems⟩ := typed _ _ known a found
      rw [← base, ← elems x (List.mem_of_getElem? at_)]
      exact .cons (typed_scalar x) .nil
  | shape a =>
      obtain ⟨v, found, value⟩ := Option.bind_eq_some_iff.mp value
      cases value
      refine .cons ⟨rfl, ?_⟩ .nil
      simp [vectorValue, Scalar.base]
  | prf1 read known =>
      obtain ⟨v, found, value⟩ := Option.bind_eq_some_iff.mp value
      rw [eval_prf_reading read, elementwise_scalar1] at value
      obtain ⟨e, scalar, value⟩ := Option.bind_eq_some_iff.mp value
      obtain ⟨r, done, rfl⟩ := Option.map_eq_some_iff.mp value
      obtain ⟨base, elems⟩ := typed _ _ known v found
      rw [← base, ← elems e (as_scalar_mem scalar)]
      exact typed_results done
  | prf2 y read known =>
      obtain ⟨v, found, value⟩ := Option.bind_eq_some_iff.mp value
      obtain ⟨w, _, value⟩ := Option.bind_eq_some_iff.mp value
      rw [eval_prf_reading read, elementwise_scalar2] at value
      obtain ⟨e, scalar, value⟩ := Option.bind_eq_some_iff.mp value
      obtain ⟨e', _, value⟩ := Option.bind_eq_some_iff.mp value
      obtain ⟨r, done, rfl⟩ := Option.map_eq_some_iff.mp value
      obtain ⟨base, elems⟩ := typed _ _ known v found
      rw [← base, ← elems e (as_scalar_mem scalar)]
      exact typed_results done

theorem write_typed {env : Env Avis (Value Rep)} (typed : EnvTyped has env)
    (functional : ∀ x s s', has x s → has x s' → s = s') {ids : List Avis}
    {bases : List SimpleType} (ids_ : List.Forall₂ has ids bases) {vals : List (Value Rep)}
    (vals_ : List.Forall₂ Value.Typed vals bases) : EnvTyped has (write env ids vals) := by
  induction ids_ generalizing vals with
  | nil => exact typed
  | cons known rest ih =>
      cases vals_ with
      | cons value vals_ =>
          intro x scalar here v found
          simp only [write] at found
          split at found
          · rename_i same
            subst same
            cases found
            exact functional _ _ _ known here ▸ value
          · exact ih vals_ x scalar here v found

/-- Well-typed assignments assign values of the declared types. -/
theorem assigns_typed (functional : ∀ x s s', has x s → has x s' → s = s')
    {chain : List (Assign Avis Expr)} (all : ∀ a ∈ chain, TypedAssign has a)
    {env : Env Avis (Value Rep)} (typed : EnvTyped has env) :
    Assigns (eval prims) (fun x v => ∀ s, has x s → v.base = s) chain env := by
  induction chain generalizing env with
  | nil => trivial
  | cons assign chain ih =>
      intro next done
      obtain ⟨bases, exprs, ids⟩ := all assign (List.mem_cons_self ..)
      obtain ⟨vals, value, done⟩ := Option.bind_eq_some_iff.mp done
      split at done
      · cases done
        have typed' := write_typed typed functional ids (eval_typed typed exprs value)
        exact ⟨fun x _ v found s here => (typed' x s here v found).1,
          ih (fun a mem => all a (List.mem_cons_of_mem _ mem)) typed'⟩
      · cases done

variable {types : Avis → NType} {lhs : List Avis} {p q : Prf} {op : Op} {form : Form}
  {base : SimpleType} {n : Nat} {arg1 : Avis} {arg2 : Option Avis} {fresh pred : Avis}
  {right : Prop} {info0 info : Info} {elems params : List Avis}

theorem has_base_functional (holds : Holds types params fresh right info)
    (older : Older params fresh) (x : Avis) (s s' : SimpleType)
    (known : HasBase types params info x s) (known' : HasBase types params info x s') : s = s' := by
  have new : ∀ d ∈ info.vardec, d.avis ∉ params := fun d mem param =>
    Nat.lt_irrefl _ (Nat.lt_of_lt_of_le (older _ param) (holds.range d mem).1)
  rcases known with ⟨param, rfl⟩ | ⟨d, mem, rfl, rfl⟩
  · rcases known' with ⟨_, rfl⟩ | ⟨d', mem', rfl, rfl⟩
    · rfl
    · exact absurd param (new d' mem')
  · rcases known' with ⟨param, rfl⟩ | ⟨d', mem', same, rfl⟩
    · exact absurd param (new d mem)
    · rw [List.inj_on_of_nodup_map holds.nodup mem' mem same]

theorem EnvFits.typed {env : Env Avis (Value Rep)} (fits : EnvFits types arg1 arg2 fresh env)
    (holds : Holds types (arg1 :: arg2.toList) fresh right info) :
    EnvTyped (HasBase types (arg1 :: arg2.toList) info) env := by
  intro x scalar known v found
  rcases known with ⟨param, rfl⟩ | ⟨d, mem, rfl, rfl⟩
  · obtain ⟨v', found', fits'⟩ := fits.args x param
    cases found.symm.trans found'
    exact ⟨fits'.base, fits'.elems⟩
  · rw [fits.new d.avis (holds.range d mem).1] at found
    cases found

/-- Where the declarations are right, they are so in every run. -/
theorem LetFits.declared_right (prims : Prims Rep)
    (fits : LetFits types lhs p op form base n arg1 arg2 fresh)
    (holds : Holds types (arg1 :: arg2.toList) fresh right info) (ok : right)
    (elems : List Avis) (pred : Avis) :
    DeclaredRight prims types arg1 arg2 fresh (unrolled op base lhs info elems pred) := by
  intro env envFits
  rw [unrolled, assigns_append]
  constructor
  · have all : ∀ a ∈ info.preassign.reverse,
        TypedAssign (HasBase types (arg1 :: arg2.toList) info) a := fun a mem =>
      holds.typed ok a (List.mem_reverse.mp mem)
    refine assigns_congr ?_ (assigns_typed (has_base_functional holds fits.olderParams) all
      (envFits.typed holds))
    intro x _ v good d mem same
    exact good d.scalar (Or.inr ⟨d, mem, same, rfl⟩)
  · intro last _
    refine assigns_of_good (fun x mem v d declared same => ?_) last
    have results := result_chain_defines op.isGuard fits.results pred
      (.vector (op.resultBase base) elems.reverse)
    subst same
    exact absurd (Or.inr (List.mem_map_of_mem declared))
      (fits.unknown holds d.avis (results.mem_iff.mp mem))

theorem exists_scalar (Rep : Type) [Inhabited Rep] (scalar : SimpleType) :
    ∃ x : Scalar Rep, x.base = scalar := by
  by_cases int : scalar = .int
  · exact ⟨.int 0, int.symm⟩
  · by_cases bool : scalar = .bool
    · exact ⟨.bool true, bool.symm⟩
    · exact ⟨.other ⟨scalar, int, bool⟩ default, rfl⟩

theorem exists_value (Rep : Type) [Inhabited Rep] (type : NType) :
    ∃ v : Value Rep, v.Fits type := by
  obtain ⟨x, base⟩ := exists_scalar Rep type.scalar
  have fill : ∀ shape : List Nat, (∀ s, type.shape = some s → shape = s) →
      (∀ d, type.dim = some d → shape.length = d) → ∃ v : Value Rep, v.Fits type :=
    fun shape sameShape sameDim => by
      refine ⟨⟨type.scalar, shape, List.replicate shape.prod x⟩, rfl, by simp, ?_, sameShape,
        sameDim⟩
      intro y mem
      rw [List.eq_of_mem_replicate mem, base]
  obtain ⟨scalar, known⟩ := type
  cases known with
  | akv shape | aks shape =>
      exact fill shape (fun s same => Option.some.inj same) (fun d same => Option.some.inj same)
  | akd dim =>
      exact fill (List.replicate dim 0) (by simp [NType.shape])
        (fun d same => by simpa using Option.some.inj same)
  | audgz | aud => exact fill [] (by simp [NType.shape]) (by simp [NType.dim])

/-- There are values for the arguments. -/
theorem exists_env (Rep : Type) [Inhabited Rep] (types : Avis → NType)
    (older : Older (arg1 :: arg2.toList) fresh) :
    ∃ env : Env Avis (Value Rep), EnvFits types arg1 arg2 fresh env := by
  choose value fits using fun x => exists_value Rep (types x)
  refine ⟨fun x => if x < fresh then some (value x) else none, fun a mem => ?_, fun x new => ?_⟩
  · exact ⟨value a, if_pos (older a mem), fits a⟩
  · exact if_neg (Nat.not_lt.mpr new)

/-- A value of another type than its declaration says stays assigned in the whole chain. -/
theorem declared_wrong {env last : Env Avis (Value Rep)} {info' final : Info} {new : List Vardec}
    {ids : List Avis} {expr : Expr} (emits : Emits info info' new ids expr)
    (run : Run prims env info' last) {d : Vardec} (declared : d ∈ info'.vardec)
    (assigned : d.avis ∈ ids) {v : Value Rep} (value : last d.avis = some v)
    (wrong : v.base ≠ d.scalar) (grows : Extends info' final) (rest : List (Assign Avis Expr)) :
    ¬ Assigns (eval prims) (fun x v => ∀ d ∈ final.vardec, d.avis = x → v.base = d.scalar)
      (final.preassign.reverse ++ rest) env := by
  intro all
  obtain ⟨later, same⟩ := grows.preassign
  have before := ((assigns_append ..).mp all).1
  rw [← same, List.reverse_append, assigns_append] at before
  unfold Run at run
  rw [emits.preassign, List.reverse_cons] at before run
  rw [exec_snoc] at run
  obtain ⟨prev, ran, stepped⟩ := Option.bind_eq_some_iff.mp run
  exact wrong (((assigns_snoc ..).mp before.1).2 prev last ran stepped d.avis assigned v value d
    (grows.vardec.subset declared) rfl)

theorem first_elem_base {v : Value Rep} {type : NType} (fits : v.Fits type) {i : Nat}
    {x : Scalar Rep} (elem : FirstElem form v i x) : x.base = v.base := by
  unfold FirstElem at elem
  split at elem
  · exact fits.elems x (as_scalar_mem elem)
  · obtain ⟨xs, vector, found⟩ := elem
    rw [← (vector_shape vector).2] at found
    exact fits.elems x (List.mem_of_getElem? found)

theorem second_elem_base {b : Value Rep} {type : NType} (fits : b.Fits type) {i : Nat}
    {y : Scalar Rep} (other : form ≠ .VxA) (elem : SecondElem form b i y) : y.base = b.base := by
  have vector : (∃ ys, b.asVector = some ys ∧ ys[i]? = some y) → y.base = b.base := by
    rintro ⟨ys, vector, found⟩
    rw [← (vector_shape vector).2] at found
    exact fits.elems y (List.mem_of_getElem? found)
  cases form with
  | VxA => exact absurd rfl other
  | VxS => exact fits.elems y (as_scalar_mem elem)
  | S | V | SxS | SxV | VxV => exact vector elem

theorem relational_dyadic (read : reading p = some (op, form)) (rel : op.isRelational = true) :
    form ≠ .V ∧ form ≠ .VxA ∧ op.isGuard = false := by
  cases p <;> cases read <;> simp_all [Op.isRelational, Op.isGuard]

theorem int_of_base {x : Scalar Rep} (int : x.base = .int) : ∃ m, x = .int m := by
  cases x with
  | int m => exact ⟨m, rfl⟩
  | bool b => cases int
  | other type rep => exact absurd int type.property.1

theorem makeSel_wrong {env last : Env Avis (Value Rep)} {final info' : Info} {i : Nat}
    {avis z : Avis} (made : makeSel i avis info = (z, info')) (run : Run prims env info' last)
    {x : Scalar Rep} (value : last z = some (scalarValue x)) (wrong : x.base ≠ .int)
    (grows : Extends info' final) (rest : List (Assign Avis Expr)) :
    ¬ Assigns (eval prims) (fun x v => ∀ d ∈ final.vardec, d.avis = x → v.base = d.scalar)
      (final.preassign.reverse ++ rest) env := by
  rw [make_sel] at made
  cases made
  have declared : (⟨info.fresh + 1, .int, []⟩ : Vardec) ∈ (introduce .int []
      (.prf2 .selVxA info.fresh avis) (introduce .int [1] (.intVector [i]) info)).vardec := by
    simp [introduce, makeAvis, assign]
  exact declared_wrong (emits_introduce ..) run declared (List.mem_singleton_self _) value wrong
    grows rest

theorem resultBase_relational {op : Op} (accepts : op.Accepts .int)
    (wrong : op.resultBase .int ≠ .int) : op.isRelational = true := by
  cases op <;> first | rfl | exact absurd rfl wrong | cases accepts

/-- Every variable of the chain gets a value of the type that it is declared with. -/
def AssignsDeclared (prims : Prims Rep) (final : Info) (rest : List (Assign Avis Expr))
    (env : Env Avis (Value Rep)) : Prop :=
  Assigns (eval prims) (fun x v => ∀ d ∈ final.vardec, d.avis = x → v.base = d.scalar)
    (final.preassign.reverse ++ rest) env

/-- The first element of a let: what it selects and computes, where `final` comes of it. -/
structure FirstElement (prims : Prims Rep) (types : Avis → NType) (lhs : List Avis) (p : Prf)
    (op : Op) (form : Form) (base : SimpleType) (n : Nat) (arg1 : Avis) (arg2 : Option Avis)
    (fresh : Avis) (right : Prop) (q : Prf) (env : Env Avis (Value Rep)) (v : Value Rep)
    (w : Option (Value Rep)) (row : List (Scalar Rep)) (info0 : Info) (last0 : Env Avis (Value Rep))
    (argavis1 : Avis) (info1 : Info) (argavis2 : Option Avis) (info2 : Info) (expr : Expr)
    (final : Info) : Prop where
  fits : LetFits types lhs p op form base n arg1 arg2 fresh
  element : reading q = some (op, form.element)
  values : ArgValues types arg1 arg2 env v w
  rowOf : RowOf form v 0 w row
  ready : Ready types (arg1 :: arg2.toList) fresh right op form info0 []
  sees : Sees prims env (arg1 :: arg2.toList) op form w info0 [] last0 []
  stage : Stage types (arg1 :: arg2.toList) fresh right op q form 0 arg1 arg2 info0 argavis1 info1
    argavis2 info2 expr
  grows : Extends (afterOp op expr info2) final

section FirstElement

variable {env last0 : Env Avis (Value Rep)} {v : Value Rep} {w : Option (Value Rep)}
  {row : List (Scalar Rep)} {info0 info1 info2 final : Info} {argavis1 : Avis}
  {argavis2 : Option Avis} {expr : Expr}

theorem FirstElement.value1 (here : FirstElement prims types lhs p op form base n arg1 arg2 fresh
    right q env v w row info0 last0 argavis1 info1 argavis2 info2 expr final) :
    last0 arg1 = some v :=
  (here.sees.params _ here.fits.params.first).trans here.values.first

theorem FirstElement.base_eq (here : FirstElement prims types lhs p op form base n arg1 arg2 fresh
    right q env v w row info0 last0 argavis1 info1 argavis2 info2 expr final) : v.base = base :=
  here.values.firstFits.base.trans here.fits.args.1

theorem FirstElement.grows2 (here : FirstElement prims types lhs p op form base n arg1 arg2 fresh
    right q env v w row info0 last0 argavis1 info1 argavis2 info2 expr final) :
    Extends info2 final := by
  obtain ⟨_, ids, emits, -⟩ := afterOp_emits types (arg1 :: arg2.toList) op expr info2
  exact emits.extends.trans here.grows

/-- An element that is selected from the first argument has the type of its vector. -/
theorem FirstElement.first_wrong (here : FirstElement prims types lhs p op form base n arg1 arg2
    fresh right q env v w row info0 last0 argavis1 info1 argavis2 info2 expr final)
    (notInt : base ≠ .int) (other : form ≠ .SxV) (rest : List (Assign Avis Expr)) :
    ¬ AssignsDeclared prims final rest env := by
  obtain ⟨x, elem⟩ : ∃ x, FirstElem form v 0 x := by
    cases here.rowOf with
    | monadic _ elem => exact ⟨_, elem⟩
    | dyadic _ elem _ => exact ⟨_, elem⟩
  obtain ⟨last1, run1, -, at1⟩ :=
    first_run here.fits.params here.fits.olderParams here.ready.holds here.sees.run
      here.stage.first here.value1 here.values.firstFits elem
  have made := here.stage.first
  rw [if_neg other] at made
  have xBase : x.base ≠ .int := by
    rwa [first_elem_base here.values.firstFits elem, here.base_eq]
  exact makeSel_wrong made run1 at1 xBase (here.stage.extends2.trans here.grows2) rest

/-- With a scalar as first argument the element is selected from the second one. -/
theorem FirstElement.second_wrong (here : FirstElement prims types lhs p op form base n arg1 arg2
    fresh right q env v w row info0 last0 argavis1 info1 argavis2 info2 expr final)
    (notInt : base ≠ .int) (SxV : form = .SxV) (rest : List (Assign Avis Expr)) :
    ¬ AssignsDeclared prims final rest env := by
  have values := here.values
  have args := here.fits.params
  cases here.rowOf with
  | monadic V _ => cases V.symm.trans SxV
  | dyadic other elem elem' =>
      rename_i b x y
      obtain ⟨a, rfl, found⟩ := Option.map_eq_some_iff.mp values.second
      obtain ⟨last1, run1, keeps1, -⟩ :=
        first_run args here.fits.olderParams here.ready.holds here.sees.run here.stage.first
          here.value1 values.firstFits elem
      have value2 : (some a).map last1 = some (some b) := by
        have param := args.second a rfl
        simp [keeps1 a (Or.inl param), here.sees.params a param, found]
      obtain ⟨a2, last2, rfl, run2, -, at2⟩ := second_run args here.fits.olderParams other
        here.fits.vector here.stage.holds1 run1 here.stage.second value2
        (fun a same => values.secondFits a b same rfl) (by simp [SxV]) elem'
      have made : makeSel 0 a info1 = (a2, info2) := by
        have second := here.stage.second
        rw [SxV] at second
        simpa [secondArg, Prod.ext_iff] using second
      have bFits := values.secondFits a b rfl rfl
      have shape := here.fits.args.2
      rw [SxV] at shape
      have yBase : y.base ≠ .int := by
        rwa [second_elem_base bFits (by simp [SxV]) elem', bFits.base, shape.2.1]
      exact makeSel_wrong made run2 at2 yBase here.grows2 rest

/-- The result of a comparison is a boolean. -/
theorem FirstElement.result_wrong (here : FirstElement prims types lhs p op form base n arg1 arg2
    fresh right q env v w row info0 last0 argavis1 info1 argavis2 info2 expr final)
    (int : base = .int) (result : op.resultBase .int ≠ .int) (rest : List (Assign Avis Expr)) :
    ¬ AssignsDeclared prims final rest env := by
  have values := here.values
  have args := here.fits.params
  have older := here.fits.olderParams
  have stage := here.stage
  have accepts := here.fits.accepts
  rw [int] at accepts
  have rel := resultBase_relational accepts result
  obtain ⟨notV, notVxA, guard⟩ := relational_dyadic here.fits.read rel
  obtain ⟨_, ids, emits3, ids_eq, res, -⟩ :=
    afterOp_emits types (arg1 :: arg2.toList) op expr info2
  obtain ⟨last1, last2, -, -, run2, -, value⟩ :=
    selected_run args older values here.ready here.fits.vector here.element stage here.sees
      here.rowOf
  cases here.rowOf with
  | monadic V _ => exact absurd V notV
  | dyadic other elem elem' =>
      rename_i b x y
      obtain ⟨a, second_, found⟩ := Option.map_eq_some_iff.mp values.second
      have bFits := values.secondFits a b second_ rfl
      have bBase : b.base = .int := by
        rw [bFits.base]
        rcases args.second_base second_ notVxA info2 with ⟨_, base'⟩ | ⟨d, mem, rfl, base'⟩
        · exact base'.trans int
        · exact absurd (older _ (args.second _ second_))
            (Nat.not_lt.mpr (stage.holds2.range d mem).1)
      obtain ⟨k, rfl⟩ := int_of_base
        ((first_elem_base values.firstFits elem).trans (here.base_eq.trans int))
      obtain ⟨m, rfl⟩ := int_of_base ((second_elem_base bFits notVxA elem').trans bBase)
      obtain ⟨r, applied⟩ := Option.isSome_iff_exists.mp (prims.apply_relational op k m rel)
      have done : prims.result op [.int k, .int m] = some (r, true) := by
        simp [Prims.result, guard, applied]
      rw [done, Option.map_some] at value
      obtain ⟨last3, run3, -, at3, -⟩ := afterOp_run stage.holds2 older run2 value
      have rBase : r.base ≠ .int := by
        rw [prims.apply_base op _ _ _ applied]
        exact result
      obtain ⟨param, _⟩ | ⟨d, declared_, same, base'⟩ := res
      · exact absurd (older _ param) (Nat.not_lt.mpr stage.holds2.below)
      · refine declared_wrong emits3 run3 declared_ (by simp [same, ids_eq]) (same ▸ at3) ?_
          here.grows rest
        rw [base']
        exact rBase

end FirstElement

/-- Where the declarations are not right, the first element shows it. -/
theorem Emitted.not_declared_right [Inhabited Rep] (prims : Prims Rep)
    (emitted : Emitted types lhs p op form base n arg1 arg2 fresh right q info0 info elems pred)
    (some_ : 0 < n) (wrong : base ≠ .int ∨ op.resultBase base ≠ .int) :
    ¬ DeclaredRight prims types arg1 arg2 fresh (unrolled op base lhs info elems pred) := by
  have fits := emitted.fits
  have args := fits.params
  have older := fits.olderParams
  obtain ⟨env, envFits⟩ := exists_env Rep types older
  obtain ⟨v, w, values⟩ := envFits.argValues
  obtain ⟨rs, found, length, rowsOf⟩ := rows_of_fits fits.args values
  obtain ⟨row, rowOf⟩ : ∃ row, RowOf form v 0 w row :=
    ⟨_, rowsOf 0 _ (List.getElem?_eq_getElem (length ▸ some_))⟩
  obtain ⟨last0, sees⟩ : ∃ last, Sees prims env _ op form w info0 [] last [] :=
    emitted.starts.sees args older values
  have ready0 : Ready types _ fresh right op form info0 [] := emitted.starts.ready args
  obtain ⟨argavis1, info1, argavis2, info2, expr, info', stage, fold, once, -, extends3⟩ :=
    ready0.unrollElem args emitted.int emitted.result fits.read fits.vector emitted.normal
      emitted.element 0
  obtain ⟨info'', elems', looped, -, kept⟩ := unroll_loop ready0 args emitted.int emitted.result
    fits.read fits.vector emitted.normal emitted.element n
  cases looped.symm.trans emitted.looped
  have here : FirstElement prims types lhs p op form base n arg1 arg2 fresh right q env v w row
      info0 last0 argavis1 info1 argavis2 info2 expr info :=
    ⟨fits, emitted.element, values, rowOf, ready0, sees, stage,
      extends3.trans (kept _ some_ once)⟩
  intro declared
  have all := declared env envFits
  by_cases int : base = .int
  · exact here.result_wrong int (int ▸ wrong.resolve_left (absurd int)) _ all
  · by_cases SxV : form = .SxV
    · exact here.second_wrong int SxV _ all
    · exact here.first_wrong int SxV _ all

/-- The let becomes a chain that is not failed by the compiler. -/
theorem LetFits.emitted (fits : LetFits types lhs p op form base n arg1 arg2 fresh)
    (accepted : unrollOracle p (types arg1) (arg2.map types) = true) {prfunrnum : Int}
    (below : (n : Int) < prfunrnum) :
    ∃ q info0 info elems pred,
      Emitted types lhs p op form base n arg1 arg2 fresh
        (base = .int ∧ op.resultBase base = .int) q info0 info elems pred ∧
      uprfPrf prfunrnum types lhs p arg1 arg2 fresh =
        some (some (unrolled op base lhs info elems pred)) := by
  obtain ⟨q, normal, element⟩ := normalize_prf_reading fits.read fits.vector
  have result : base = .int ∧ op.resultBase base = .int → op.resultBase .int = .int := by
    rintro ⟨rfl, result⟩
    exact result
  obtain ⟨info0, info, elems, pred, starts, looped, ready, found, done⟩ :=
    uprf_unrolls fits accepted below normal element And.left result
  exact ⟨q, info0, info, elems, pred,
    ⟨fits, normal, element, And.left, result, starts, looped, ready, found⟩, done⟩

/-- An accepted primitive is unrolled to a chain that keeps its meaning. The declarations of the new
variables are right exactly if there are no elements, or both the elements and the results are
integers. -/
theorem prf_unrolling_iff [Inhabited Rep] (prims : Prims Rep)
    (fits : LetFits types lhs p op form base n arg1 arg2 fresh)
    (accepted : unrollOracle p (types arg1) (arg2.map types) = true) {prfunrnum : Int}
    (below : (n : Int) < prfunrnum) :
    ∃ out, uprfPrf prfunrnum types lhs p arg1 arg2 fresh = some (some out) ∧
      Sound prims types lhs p arg1 arg2 fresh out ∧
      (Sound prims types lhs p arg1 arg2 fresh out ∧
          DeclaredRight prims types arg1 arg2 fresh out ↔
        n = 0 ∨ base = .int ∧ op.resultBase base = .int) := by
  obtain ⟨q, info0, info, elems, pred, emitted, done⟩ := fits.emitted accepted below
  have sound := emitted.sound prims
  refine ⟨_, done, sound, fun ⟨_, declared⟩ => ?_, fun condition => ⟨sound, ?_⟩⟩
  · rcases Nat.eq_zero_or_pos n with none | some_
    · exact Or.inl none
    · refine Or.inr (Classical.not_not.mp fun not_both => ?_)
      have wrong : base ≠ .int ∨ op.resultBase base ≠ .int := by
        by_cases int : base = .int
        · exact Or.inr fun result => not_both ⟨int, result⟩
        · exact Or.inl int
      exact emitted.not_declared_right prims some_ wrong declared
  · rcases condition with none | right
    · -- Without elements there is only what the chain starts with.
      subst none
      obtain ⟨rfl, rfl⟩ : info0 = info ∧ [] = elems := by
        cases emitted.looped
        exact ⟨rfl, rfl⟩
      have ready : Ready types (arg1 :: arg2.toList) fresh True op form info0 [] :=
        emitted.starts.ready fits.params
      exact fits.declared_right prims ready.holds trivial [] pred
    · exact fits.declared_right prims emitted.ready.holds right elems pred

/-- The scalar primitives for integers and booleans. -/
def intApply : Op → List (Scalar Unit) → Option (Scalar Unit)
  | .add, [.int m, .int n] => some (.int (m + n))
  | .sub, [.int m, .int n] => some (.int (m - n))
  | .mul, [.int m, .int n] => some (.int (m * n))
  | .neg, [.int m] => some (.int (-m))
  | .and, [.bool a, .bool b] => some (.bool (a && b))
  | .or, [.bool a, .bool b] => some (.bool (a || b))
  | .not, [.bool a] => some (.bool !a)
  | .lt, [.int m, .int n] => some (.bool (m < n))
  | .le, [.int m, .int n] => some (.bool (m ≤ n))
  | .eq, [.int m, .int n] => some (.bool (m = n))
  | .ge, [.int m, .int n] => some (.bool (m ≥ n))
  | .gt, [.int m, .int n] => some (.bool (m > n))
  | .neq, [.int m, .int n] => some (.bool (m ≠ n))
  | _, _ => none

def intHolds : Op → List (Scalar Unit) → Option Bool
  | .nonNegVal, [.int m] => some (0 ≤ m)
  | .valLtVal, [.int m, .int n] => some (m < n)
  | .valLeVal, [.int m, .int n] => some (m ≤ n)
  | _, _ => none

theorem int_apply_base (op : Op) (x : Scalar Unit) (xs : List (Scalar Unit)) (y : Scalar Unit)
    (applied : intApply op (x :: xs) = some y) : y.base = op.resultBase x.base := by
  unfold intApply at applied
  split at applied <;> simp_all <;> (cases applied; rfl)

theorem int_apply_and (a b : Bool) : intApply .and [.bool a, .bool b] = some (.bool (a && b)) :=
  rfl

theorem int_apply_relational (op : Op) (m n : Int) (rel : op.isRelational = true) :
    (intApply op [.int m, .int n]).isSome := by
  cases op <;> first | rfl | cases rel

def intPrims : Prims Unit :=
  ⟨intApply, intHolds, int_apply_base, int_apply_and, int_apply_relational⟩

/-- Vectors with elements of one type, as arguments and as results. -/
def vectorTypes (scalar : SimpleType) (n : Nat) : Avis → NType :=
  fun _ => ⟨scalar, .aks [n]⟩

theorem prf_unrolling_add :
    ∃ out, uprfPrf 6 (vectorTypes .int 2) [2] .addVxV 0 (some 1) 3 = some (some out) ∧
      Sound intPrims (vectorTypes .int 2) [2] .addVxV 0 (some 1) 3 out ∧
      (Sound intPrims (vectorTypes .int 2) [2] .addVxV 0 (some 1) 3 out ∧
          DeclaredRight intPrims (vectorTypes .int 2) 0 (some 1) 3 out ↔
        2 = 0 ∨ SimpleType.int = .int ∧ Op.add.resultBase .int = .int) :=
  have fits : LetFits (vectorTypes .int 2) [2] .addVxV .add .VxV .int 2 0 (some 1) 3 :=
    ⟨rfl, ⟨rfl, rfl, rfl, rfl⟩, by simp [Op.Accepts, numTypes, wholeTypes], rfl, by decide,
      by decide, by decide, fun _ _ => rfl⟩
  prf_unrolling_iff intPrims fits rfl (show ((2 : Nat) : Int) < 6 by decide)

/-- The negation of a vector with one double selects the double into a variable for an integer. -/
theorem double_declared_int :
    ∃ out, uprfPrf 6 (vectorTypes .double 1) [1] .negV 0 none 2 = some (some out) ∧
      ¬ DeclaredRight intPrims (vectorTypes .double 1) 0 none 2 out := by
  have fits : LetFits (vectorTypes .double 1) [1] .negV .neg .V .double 1 0 none 2 :=
    ⟨rfl, ⟨rfl, rfl⟩, by simp [Op.Accepts, signedNumTypes], rfl, by decide, by decide, by decide,
      fun _ _ => rfl⟩
  obtain ⟨q, info0, info, elems, pred, emitted, done⟩ :=
    fits.emitted rfl (show ((1 : Nat) : Int) < 6 by decide)
  exact ⟨_, done, emitted.not_declared_right intPrims Nat.one_pos (Or.inl (by decide))⟩

end Declarations

end Sac2c.PrfUnrolling
