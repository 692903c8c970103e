import Mathlib.Data.List.Forall2
import Mathlib.Data.List.Perm.Basic
import Sac2c.PrfUnrolling

/-!
The chain of an unrolled vector primitive, element by element: the tables agree with what the name
of the primitive says, and every variable is new, declared, assigned once and before it is used.
-/

namespace Sac2c.PrfUnrolling

open NewTypes (SimpleType)
open AssignmentChains

section Tables

variable {p : Prf} {op : Op} {form : Form}

/-- The primitive function for the elements. -/
def Form.element : Form → Form
  | .S | .V => .S
  | _ => .SxS

theorem normalize_prf_reading (read : reading p = some (op, form))
    (vector : form.isScalar = false) :
    ∃ q, normalizePrf p = some q ∧ reading q = some (op, form.element) := by
  cases p <;> cases read <;> first | exact ⟨_, rfl, rfl⟩ | cases vector

theorem sel_op_arg1 (read : reading p = some (op, form)) (vector : form.isScalar = false) (i : Nat)
    (avis : Avis) (info : Info) :
    makeSelOpArg1 p i avis info = if form = .SxV then (avis, info) else makeSel i avis info := by
  cases p <;> cases read <;> first | rfl | cases vector

/-- The second argument of the element function. -/
def secondArg (form : Form) (i : Nat) (avis : Option Avis) (info : Info) :
    Option (Option Avis × Info) :=
  match form with
  | .V => some (none, info)
  | .VxS => some (avis, info)
  | .VxA => info.shpavis.map fun avis => ((makeSel i avis info).1, (makeSel i avis info).2)
  | _ => avis.map fun avis => ((makeSel i avis info).1, (makeSel i avis info).2)

theorem sel_op_arg2 (read : reading p = some (op, form)) (vector : form.isScalar = false) (i : Nat)
    (avis : Option Avis) (info : Info) :
    makeSelOpArg2 p i avis info = secondArg form i avis info := by
  cases p <;> cases read <;>
    first
    | rfl
    | (cases avis <;> rfl)
    | (simp only [makeSelOpArg2, secondArg]; cases info.shpavis <;> rfl)

theorem ids_and_pred_avis (read : reading p = some (op, form)) (vector : form.isScalar = false)
    (resavis : Avis) (info : Info) :
    makeIdsAndPredAvis resavis p info =
      if op.isGuard then ([resavis, info.fresh], (makeAvis .bool [] info).2)
      else ([resavis], info) := by
  cases p <;> cases read <;> first | rfl | cases vector

/-- The element function on its arguments. -/
def elementExpr (q : Prf) (form : Form) (argavis1 : Avis) (argavis2 : Option Avis) : Option Expr :=
  if form = .V then some (.prf1 q argavis1) else argavis2.map (.prf2 q argavis1)

theorem unrolled_op (read : reading p = some (op, form)) (vector : form.isScalar = false) {q : Prf}
    (normal : normalizePrf p = some q) (ids : List Avis) (argavis1 : Avis) (argavis2 : Option Avis)
    (info : Info) :
    makeUnrolledOp p ids argavis1 argavis2 info =
      (elementExpr q form argavis1 argavis2).map fun expr => assign ids expr info := by
  cases p <;> cases read <;> cases normal <;>
    first
    | rfl
    | (cases argavis2 <;> rfl)

theorem true_scalar (read : reading p = some (op, form)) (vector : form.isScalar = false)
    (arg2 : Option Avis) (dim : Option Nat) (info : Info) :
    makeTrueScalar p arg2 dim info =
      if form = .VxA then makeTrueScalar .valLtShapeVxA arg2 dim info
      else if op.isGuard then some (makeTrue info) else some info := by
  cases p <;> cases read <;> first | rfl | cases vector

theorem fold_op (read : reading p = some (op, form)) (vector : form.isScalar = false)
    (ids : List Avis) (info : Info) :
    makeFoldOp p ids info =
      if op.isGuard then makeFoldOp .nonNegValV ids info else some info := by
  cases p <;> cases read <;> first | rfl | cases vector

theorem result_node (read : reading p = some (op, form)) (vector : form.isScalar = false)
    (lhs : List Avis) (scalar : SimpleType) (elems : List Avis) (info : Info) :
    makeResultNode p lhs scalar elems info =
      if op.isGuard then makeResultNode .nonNegValV lhs scalar elems info
      else some (lhs, .vector scalar elems.reverse, info) := by
  cases p <;> cases read <;> first | rfl | cases vector

end Tables

section Emission

variable (types : Avis → NType) (params : List Avis) (start : Avis) (right : Prop)

/-- The type of the elements of a known variable. -/
def HasBase (info : Info) (x : Avis) (scalar : SimpleType) : Prop :=
  (x ∈ params ∧ (types x).scalar = scalar) ∨ ∃ d ∈ info.vardec, d.avis = x ∧ d.scalar = scalar

def Knows (info : Info) (x : Avis) : Prop :=
  x ∈ params ∨ x ∈ info.vardec.map (·.avis)

def Op.bases (op : Op) (scalar : SimpleType) : List SimpleType :=
  op.resultBase scalar :: if op.isGuard then [.bool] else []

/-- The types of the elements of an expression's values. -/
inductive ExprBases (has : Avis → SimpleType → Prop) : Expr → List SimpleType → Prop where
  | intVector (elems : List Int) : ExprBases has (.intVector elems) [.int]
  | bool (b : Bool) : ExprBases has (.bool b) [.bool]
  | id {x : Avis} {scalar : SimpleType} : has x scalar → ExprBases has (.id x) [scalar]
  | sel (iv : Avis) {a : Avis} {scalar : SimpleType} :
      has a scalar → ExprBases has (.prf2 .selVxA iv a) [scalar]
  | shape (a : Avis) : ExprBases has (.prf1 .shapeA a) [.int]
  | prf1 {p : Prf} {op : Op} {x : Avis} {scalar : SimpleType} :
      reading p = some (op, .S) → has x scalar → ExprBases has (.prf1 p x) (op.bases scalar)
  | prf2 {p : Prf} {op : Op} {x : Avis} (y : Avis) {scalar : SimpleType} :
      reading p = some (op, .SxS) → has x scalar → ExprBases has (.prf2 p x y) (op.bases scalar)

theorem ExprBases.mono {has has' : Avis → SimpleType → Prop} (more : ∀ x s, has x s → has' x s)
    {expr : Expr} {bases : List SimpleType} (typed : ExprBases has expr bases) :
    ExprBases has' expr bases := by
  cases typed with
  | intVector elems => exact .intVector elems
  | bool b => exact .bool b
  | id known => exact .id (more _ _ known)
  | sel iv known => exact .sel iv (more _ _ known)
  | shape a => exact .shape a
  | prf1 read known => exact .prf1 read (more _ _ known)
  | prf2 y read known => exact .prf2 y read (more _ _ known)

/-- The assigned variables have the types of the values. -/
def TypedAssign (has : Avis → SimpleType → Prop) (assign : Assign Avis Expr) : Prop :=
  ∃ bases, ExprBases has assign.expr bases ∧ List.Forall₂ has assign.ids bases

/-- What holds of the chain so far: its variables are new, declared, assigned once and before they
are used, and well typed if `right` holds. -/
structure Holds (info : Info) : Prop where
  ordered : Ordered Expr.uses params info.preassign.reverse
  declared : (info.vardec.map (·.avis)).Perm (defines info.preassign.reverse)
  nodup : (info.vardec.map (·.avis)).Nodup
  range : ∀ d ∈ info.vardec, start ≤ d.avis ∧ d.avis < info.fresh
  below : start ≤ info.fresh
  typed : right → ∀ a ∈ info.preassign, TypedAssign (HasBase types params info) a

/-- Later declarations and assignments. -/
structure Extends (info info' : Info) : Prop where
  vardec : info.vardec <:+ info'.vardec
  preassign : info.preassign <:+ info'.preassign
  fresh : info.fresh ≤ info'.fresh

variable {types params start right} {info info' info'' : Info}

theorem Extends.refl (info : Info) : Extends info info :=
  ⟨List.suffix_rfl, List.suffix_rfl, Nat.le_refl _⟩

theorem Extends.trans (first : Extends info info') (second : Extends info' info'') :
    Extends info info'' :=
  ⟨first.vardec.trans second.vardec, first.preassign.trans second.preassign,
    Nat.le_trans first.fresh second.fresh⟩

theorem Extends.hasBase (extends_ : Extends info info') {x : Avis} {scalar : SimpleType}
    (known : HasBase types params info x scalar) : HasBase types params info' x scalar := by
  rcases known with param | ⟨d, mem, same⟩
  · exact Or.inl param
  · exact Or.inr ⟨d, extends_.vardec.subset mem, same⟩

theorem Extends.knows (extends_ : Extends info info') {x : Avis} (known : Knows params info x) :
    Knows params info' x := by
  rcases known with param | new
  · exact Or.inl param
  · exact Or.inr ((extends_.vardec.map _).subset new)

/-- New variables are declared and assigned. -/
structure Emits (info info' : Info) (new : List Vardec) (ids : List Avis) (expr : Expr) :
    Prop where
  vardec : info'.vardec = new ++ info.vardec
  preassign : info'.preassign = ⟨ids, expr⟩ :: info.preassign
  same : (new.map (·.avis)).Perm ids
  nodup : ids.Nodup
  range : ∀ x ∈ ids, info.fresh ≤ x ∧ x < info'.fresh
  fresh : info.fresh ≤ info'.fresh

theorem Emits.extends {new : List Vardec} {ids : List Avis} {expr : Expr}
    (emits : Emits info info' new ids expr) : Extends info info' :=
  ⟨⟨new, emits.vardec.symm⟩, ⟨[⟨ids, expr⟩], emits.preassign.symm⟩, emits.fresh⟩

theorem Holds.emits {new : List Vardec} {ids : List Avis} {expr : Expr}
    (holds : Holds types params start right info) (emits : Emits info info' new ids expr)
    (uses : ∀ x ∈ expr.uses, Knows params info x)
    (typed : right → TypedAssign (HasBase types params info') ⟨ids, expr⟩) :
    Holds types params start right info' := by
  have nodupNew : (new.map (·.avis)).Nodup := emits.same.nodup_iff.mpr emits.nodup
  have rangeNew : ∀ d ∈ new, info.fresh ≤ d.avis ∧ d.avis < info'.fresh := fun d mem =>
    emits.range _ (emits.same.mem_iff.mp (List.mem_map_of_mem mem))
  refine ⟨?_, ?_, ?_, ?_, Nat.le_trans holds.below emits.fresh, ?_⟩
  · rw [emits.preassign, List.reverse_cons, ordered_append]
    refine ⟨holds.ordered, ?_, trivial⟩
    intro x mem
    rcases uses x mem with param | new
    · exact List.mem_append_left _ param
    · exact List.mem_append_right _ (holds.declared.mem_iff.mp new)
  · rw [emits.preassign, emits.vardec, List.reverse_cons, defines_append, List.map_append]
    refine (List.perm_append_comm).trans (holds.declared.append ?_)
    simpa [defines] using emits.same
  · rw [emits.vardec, List.map_append, List.nodup_append]
    refine ⟨nodupNew, holds.nodup, ?_⟩
    intro x mem y mem' same
    obtain ⟨d, new, rfl⟩ := List.mem_map.mp mem
    obtain ⟨d', old, rfl⟩ := List.mem_map.mp mem'
    have before := Nat.lt_of_lt_of_le (holds.range d' old).2 (rangeNew d new).1
    exact Nat.ne_of_gt before same
  · intro d mem
    rw [emits.vardec, List.mem_append] at mem
    rcases mem with new | old
    · exact ⟨Nat.le_trans holds.below (rangeNew d new).1, (rangeNew d new).2⟩
    · exact ⟨(holds.range d old).1, Nat.lt_of_lt_of_le (holds.range d old).2 emits.fresh⟩
  · intro ok a mem
    rw [emits.preassign, List.mem_cons] at mem
    rcases mem with rfl | old
    · exact typed ok
    · obtain ⟨bases, exprs, ids⟩ := holds.typed ok a old
      exact ⟨bases, exprs.mono fun _ _ => emits.extends.hasBase,
        ids.imp fun _ _ => emits.extends.hasBase⟩

/-- One new variable for one value. -/
def introduce (scalar : SimpleType) (shape : List Nat) (expr : Expr) (info : Info) : Info :=
  assign [info.fresh] expr (makeAvis scalar shape info).2

theorem emits_introduce (scalar : SimpleType) (shape : List Nat) (expr : Expr) (info : Info) :
    Emits info (introduce scalar shape expr info) [⟨info.fresh, scalar, shape⟩] [info.fresh]
      expr := by
  refine ⟨rfl, rfl, .refl _, by simp, ?_, ?_⟩
  · simp [introduce, makeAvis, assign]
  · simp [introduce, makeAvis, assign]

theorem has_introduced (types : Avis → NType) (params : List Avis) (scalar : SimpleType)
    (shape : List Nat) (expr : Expr) (info : Info) :
    HasBase types params (introduce scalar shape expr info) info.fresh scalar :=
  Or.inr ⟨⟨info.fresh, scalar, shape⟩, by simp [introduce, makeAvis, assign], rfl, rfl⟩

theorem knows_introduced (scalar : SimpleType) (shape : List Nat) (expr : Expr) (info : Info) :
    Knows params (introduce scalar shape expr info) info.fresh :=
  Or.inr (by simp [introduce, makeAvis, assign])

theorem Holds.introduce (holds : Holds types params start right info) (scalar : SimpleType)
    (shape : List Nat) (expr : Expr) (uses : ∀ x ∈ expr.uses, Knows params info x)
    (typed : right → ExprBases (HasBase types params info) expr [scalar]) :
    Holds types params start right (introduce scalar shape expr info) := by
  have emits := emits_introduce scalar shape expr info
  refine holds.emits emits uses fun ok => ⟨[scalar], ?_, .cons (has_introduced ..) .nil⟩
  exact (typed ok).mono fun _ _ => emits.extends.hasBase

/-- A selection of an element. -/
theorem make_sel (i : Nat) (avis : Avis) (info : Info) :
    makeSel i avis info =
      (info.fresh + 1, introduce .int [] (.prf2 .selVxA info.fresh avis)
        (introduce .int [1] (.intVector [i]) info)) :=
  rfl

theorem Holds.makeSel (holds : Holds types params start right info) (i : Nat) {avis : Avis}
    (known : Knows params info avis) (base : right → HasBase types params info avis .int) :
    Holds types params start right (makeSel i avis info).2 := by
  rw [make_sel]
  have index := holds.introduce .int [1] (.intVector [i]) (by simp [Expr.uses])
    fun _ => .intVector [i]
  have grows := (emits_introduce .int [1] (.intVector [i]) info).extends
  refine index.introduce .int [] _ ?_ fun ok => .sel _ (grows.hasBase (base ok))
  simp only [Expr.uses, List.mem_cons, List.not_mem_nil, or_false, forall_eq_or_imp, forall_eq]
  exact ⟨knows_introduced .., grows.knows known⟩

theorem makeSel_extends (i : Nat) (avis : Avis) (info : Info) :
    Extends info (makeSel i avis info).2 := by
  rw [make_sel]
  exact (emits_introduce .int [1] (.intVector [i]) info).extends.trans (emits_introduce ..).extends

theorem makeSel_known (types : Avis → NType) (params : List Avis) (i : Nat) (avis : Avis)
    (info : Info) : HasBase types params (makeSel i avis info).2 (makeSel i avis info).1 .int := by
  rw [make_sel]
  exact has_introduced ..

theorem HasBase.knows {x : Avis} {scalar : SimpleType} (has : HasBase types params info x scalar) :
    Knows params info x := by
  rcases has with param | ⟨d, mem, same⟩
  · exact Or.inl param.1
  · exact Or.inr (List.mem_map.mpr ⟨d, mem, same.1⟩)

end Emission

section Stages

/-- The types of the arguments, as the type checker wants them. -/
def ArgsFit (form : Form) (types : Avis → NType) (base : SimpleType) (n : Nat) (arg1 : Avis)
    (arg2 : Option Avis) : Prop :=
  (types arg1).scalar = base ∧
    match form, arg2 with
    | .V, none => (types arg1).shape = some [n]
    | .SxV, some a =>
        (types arg1).shape = some [] ∧ (types a).scalar = base ∧ (types a).shape = some [n]
    | .VxS, some a =>
        (types arg1).shape = some [n] ∧ (types a).scalar = base ∧ (types a).shape = some []
    | .VxV, some a =>
        (types arg1).shape = some [n] ∧ (types a).scalar = base ∧ (types a).shape = some [n]
    | .VxA, some a => (types arg1).shape = some [n] ∧ (types a).dim = some n
    | _, _ => False

/-- The element function is assigned to one variable or, for a guard, to two. -/
def afterOp (op : Op) (expr : Expr) (info : Info) : Info :=
  if op.isGuard then
    assign [info.fresh, info.fresh + 1] expr (makeAvis .bool [] (makeAvis .int [] info).2).2
  else introduce .int [] expr info

/-- The conjunction with the predicates so far, for a guard. -/
def afterFold (op : Op) (pred : Avis) (info : Info) : Option Info :=
  if op.isGuard then
    info.lastp1pavis.map fun last =>
      { introduce .bool [] (.prf2 .andSxS last pred) info with lastp1pavis := some info.fresh }
  else some info

variable {types : Avis → NType} {params : List Avis} {start : Avis} {right : Prop}
  {p q : Prf} {op : Op} {form : Form} {base : SimpleType} {n : Nat} {arg1 : Avis}
  {arg2 : Option Avis}

/-- The chain so far with the variables that the next element needs. -/
structure Ready (types : Avis → NType) (params : List Avis) (start : Avis) (right : Prop) (op : Op)
    (form : Form) (info : Info) (elems : List Avis) : Prop where
  holds : Holds types params start right info
  elems : ∀ x ∈ elems, Knows params info x
  guard : op.isGuard = true →
    ∃ last, info.lastp1pavis = some last ∧ HasBase types params info last .bool
  shape : form = .VxA → ∃ shp, info.shpavis = some shp ∧ HasBase types params info shp .int

/-- The selections for an element and the element function on what is selected. -/
structure Selected (q : Prf) (form : Form) (i : Nat) (arg1 : Avis) (arg2 : Option Avis)
    (info : Info) (argavis1 : Avis) (info1 : Info) (argavis2 : Option Avis) (info2 : Info)
    (expr : Expr) : Prop where
  first : (if form = .SxV then (arg1, info) else makeSel i arg1 info) = (argavis1, info1)
  second : secondArg form i arg2 info1 = some (argavis2, info2)
  apply : elementExpr q form argavis1 argavis2 = some expr

theorem unroll_elem_selected (read : reading p = some (op, form)) (vector : form.isScalar = false)
    (normal : normalizePrf p = some q) {i : Nat} {info info1 info2 : Info} {argavis1 : Avis}
    {argavis2 : Option Avis} {expr : Expr}
    (selected : Selected q form i arg1 arg2 info argavis1 info1 argavis2 info2 expr)
    (elems : List Avis) :
    unrollElem p arg1 arg2 i (info, elems) =
      (afterFold op (info2.fresh + 1) (afterOp op expr info2)).map (·, info2.fresh :: elems) := by
  unfold unrollElem
  simp only [sel_op_arg1 read vector, selected.first, sel_op_arg2 read vector, selected.second,
    ids_and_pred_avis read vector, unrolled_op read vector normal, selected.apply,
    fold_op read vector, Option.bind_eq_bind, Option.bind_some, Option.map_some, makeAvis]
  cases guard : op.isGuard with
  | false => simp [afterFold, afterOp, guard, introduce, makeAvis]
  | true =>
      simp only [afterFold, afterOp, guard, ↓reduceIte, makeFoldOp, makeAvis, assign, introduce]
      cases info2.lastp1pavis <;> simp

/-- Where the arguments of the primitive function are known. -/
structure Args (form : Form) (types : Avis → NType) (base : SimpleType) (n : Nat)
    (params : List Avis) (arg1 : Avis) (arg2 : Option Avis) : Prop where
  fit : ArgsFit form types base n arg1 arg2
  first : arg1 ∈ params
  second : ∀ a, arg2 = some a → a ∈ params

theorem Args.hasBase (args : Args form types base n params arg1 arg2) (info : Info) :
    HasBase types params info arg1 base :=
  Or.inl ⟨args.first, args.fit.1⟩

theorem Args.second_base (args : Args form types base n params arg1 arg2) {a : Avis}
    (second : arg2 = some a) (other : form ≠ .VxA) (info : Info) :
    HasBase types params info a base := by
  refine Or.inl ⟨args.second a second, ?_⟩
  have fit := args.fit.2
  subst second
  cases form <;> simp_all

/-- The selection of the first argument. -/
theorem first_selected (args : Args form types base n params arg1 arg2)
    (int : right → base = .int) {info : Info} (holds : Holds types params start right info)
    (i : Nat) : ∃ argavis1 info1,
      (if form = .SxV then (arg1, info) else makeSel i arg1 info) = (argavis1, info1) ∧
      Holds types params start right info1 ∧ Extends info info1 ∧
      info1.lastp1pavis = info.lastp1pavis ∧ info1.shpavis = info.shpavis ∧
      Knows params info1 argavis1 ∧ (right → HasBase types params info1 argavis1 .int) := by
  have typed : right → HasBase types params info arg1 .int := fun ok => int ok ▸ args.hasBase info
  have known := (args.hasBase info).knows
  split
  · exact ⟨arg1, info, rfl, holds, .refl info, rfl, rfl, known, typed⟩
  · have selected := makeSel_known types params i arg1 info
    exact ⟨_, _, rfl, holds.makeSel i known typed, makeSel_extends .., rfl, rfl, selected.knows,
      fun _ => selected⟩

/-- The selection of the second argument, if there is one. -/
theorem second_selected (args : Args form types base n params arg1 arg2)
    (int : right → base = .int) (vector : form.isScalar = false) {info : Info}
    (holds : Holds types params start right info)
    (shape : form = .VxA → ∃ shp, info.shpavis = some shp ∧ HasBase types params info shp .int)
    (i : Nat) : ∃ argavis2 info2, secondArg form i arg2 info = some (argavis2, info2) ∧
      Holds types params start right info2 ∧ Extends info info2 ∧
      info2.lastp1pavis = info.lastp1pavis ∧ info2.shpavis = info.shpavis ∧
      (form = .V ↔ argavis2 = none) ∧ ∀ a, argavis2 = some a → Knows params info2 a := by
  have selects : ∀ a, Knows params info a → (right → HasBase types params info a .int) →
      Holds types params start right (makeSel i a info).2 ∧ Extends info (makeSel i a info).2 ∧
        Knows params (makeSel i a info).2 (makeSel i a info).1 := fun a known typed =>
    ⟨holds.makeSel i known typed, makeSel_extends ..,
      (makeSel_known types params i a info).knows⟩
  have fit := args.fit.2
  have second := fun a same other => args.second_base (a := a) same other info
  cases form with
  | S => cases vector
  | SxS => cases vector
  | V => exact ⟨none, info, rfl, holds, .refl info, rfl, rfl, by simp, by simp⟩
  | VxS =>
      cases arg2 with
      | none => cases fit
      | some a =>
          refine ⟨some a, info, rfl, holds, .refl info, rfl, rfl, by simp, ?_⟩
          intro b same
          cases same
          exact (second a rfl (by simp)).knows
  | VxA =>
      obtain ⟨shp, found, typed⟩ := shape rfl
      have chosen := selects shp typed.knows fun _ => typed
      refine ⟨some _, (makeSel i shp info).2, by rw [secondArg, found]; rfl, chosen.1, chosen.2.1,
        rfl, rfl, by simp, ?_⟩
      intro b same
      cases same
      exact chosen.2.2
  | SxV | VxV =>
      cases arg2 with
      | none => cases fit
      | some a =>
          have typed := second a rfl (by simp)
          have chosen := selects a typed.knows fun ok => int ok ▸ typed
          refine ⟨some _, (makeSel i a info).2, rfl, chosen.1, chosen.2.1, rfl, rfl, by simp, ?_⟩
          intro b same
          cases same
          exact chosen.2.2

/-- The selections for an element, and what holds after them. -/
structure Stage (types : Avis → NType) (params : List Avis) (start : Avis) (right : Prop) (op : Op)
    (q : Prf) (form : Form) (i : Nat) (arg1 : Avis) (arg2 : Option Avis) (info : Info)
    (argavis1 : Avis) (info1 : Info) (argavis2 : Option Avis) (info2 : Info) (expr : Expr) : Prop
    extends Selected q form i arg1 arg2 info argavis1 info1 argavis2 info2 expr where
  holds1 : Holds types params start right info1
  holds2 : Holds types params start right info2
  extends1 : Extends info info1
  extends2 : Extends info1 info2
  last2 : info2.lastp1pavis = info.lastp1pavis
  shp1 : info1.shpavis = info.shpavis
  shp2 : info2.shpavis = info.shpavis
  known1 : Knows params info1 argavis1
  uses : ∀ x ∈ expr.uses, Knows params info2 x
  typed : right → ExprBases (HasBase types params info2) expr (op.bases .int)

theorem Ready.stage {info : Info} {elems : List Avis}
    (ready : Ready types params start right op form info elems)
    (args : Args form types base n params arg1 arg2) (int : right → base = .int)
    (vector : form.isScalar = false) (element : reading q = some (op, form.element)) (i : Nat) :
    ∃ argavis1 info1 argavis2 info2 expr, Stage types params start right op q form i arg1 arg2 info
      argavis1 info1 argavis2 info2 expr := by
  obtain ⟨argavis1, info1, first, holds1, extends1, last1, shp1, known1, typed1⟩ :=
    first_selected args int ready.holds i
  obtain ⟨argavis2, info2, second, holds2, extends2, last2, shp2, monadic, known2⟩ :=
    second_selected args int vector holds1
      (fun shape => by
        obtain ⟨shp, found, typed⟩ := ready.shape shape
        exact ⟨shp, shp1 ▸ found, extends1.hasBase typed⟩) i
  have typed2 := fun ok => extends2.hasBase (typed1 ok)
  cases argavis2 with
  | none =>
      have V := monadic.mpr rfl
      subst V
      refine ⟨argavis1, info1, none, info2, .prf1 q argavis1, ⟨first, second, rfl⟩, holds1, holds2,
        extends1, extends2, last2.trans last1, shp1, shp2.trans shp1, known1, ?_, fun ok => ?_⟩
      · simpa [Expr.uses] using extends2.knows known1
      · exact .prf1 element (typed2 ok)
  | some a =>
      have dyadic : form ≠ .V := fun V => by cases monadic.mp V
      have scalars : form.element = .SxS := by
        cases form <;> first | rfl | exact absurd rfl dyadic | cases vector
      refine ⟨argavis1, info1, some a, info2, .prf2 q argavis1 a,
        ⟨first, second, by simp [elementExpr, dyadic]⟩, holds1, holds2, extends1, extends2,
        last2.trans last1, shp1, shp2.trans shp1, known1, ?_, fun ok => ?_⟩
      · simp only [Expr.uses, List.mem_cons, List.not_mem_nil, or_false, forall_eq_or_imp,
          forall_eq]
        exact ⟨extends2.knows known1, known2 a rfl⟩
      · exact .prf2 a (scalars ▸ element) (typed2 ok)

theorem afterOp_emits (types : Avis → NType) (params : List Avis) (op : Op) (expr : Expr)
    (info : Info) :
    ∃ new ids, Emits info (afterOp op expr info) new ids expr ∧
      ids = info.fresh :: (if op.isGuard then [info.fresh + 1] else []) ∧
      HasBase types params (afterOp op expr info) info.fresh .int ∧
      (op.isGuard = true → HasBase types params (afterOp op expr info) (info.fresh + 1) .bool) := by
  unfold afterOp
  cases guard : op.isGuard with
  | false =>
      exact ⟨_, _, emits_introduce .int [] expr info, rfl, has_introduced .., by simp⟩
  | true =>
      refine ⟨[⟨info.fresh + 1, .bool, []⟩, ⟨info.fresh, .int, []⟩], _,
        ⟨rfl, rfl, .swap .., by simp, ?_, ?_⟩, rfl, ?_, fun _ => ?_⟩
      · simp only [List.mem_cons, List.not_mem_nil, or_false, forall_eq_or_imp, forall_eq]
        exact ⟨⟨Nat.le_refl _, Nat.lt_add_of_pos_right Nat.two_pos⟩, Nat.le_succ _,
          Nat.lt_succ_self _⟩
      · exact Nat.le_add_right _ 2
      · exact Or.inr ⟨⟨info.fresh, .int, []⟩, by simp [makeAvis, assign], rfl, rfl⟩
      · exact Or.inr ⟨⟨info.fresh + 1, .bool, []⟩, by simp [makeAvis, assign], rfl, rfl⟩

theorem Holds.afterOp {info : Info} (holds : Holds types params start right info) {expr : Expr}
    (uses : ∀ x ∈ expr.uses, Knows params info x)
    (typed : right → ExprBases (HasBase types params info) expr (op.bases .int))
    (int : right → op.resultBase .int = .int) :
    Holds types params start right (afterOp op expr info) := by
  obtain ⟨new, ids, emits, rfl, first, second⟩ :=
    afterOp_emits types params op expr info
  refine holds.emits emits uses fun ok => ⟨op.bases .int, ?_, ?_⟩
  · exact (typed ok).mono fun _ _ => emits.extends.hasBase
  · rw [Op.bases, int ok]
    cases guard : op.isGuard with
    | false => exact .cons first .nil
    | true => exact .cons first (.cons (second guard) .nil)

theorem typed_and {has : Avis → SimpleType → Prop} {x : Avis} (y : Avis) (bool : has x .bool) :
    ExprBases has (.prf2 .andSxS x y) [.bool] := by
  have read : reading .andSxS = some (.and, .SxS) := rfl
  exact .prf2 y read bool

theorem afterOp_kept (op : Op) (expr : Expr) (info : Info) :
    (afterOp op expr info).lastp1pavis = info.lastp1pavis ∧
      (afterOp op expr info).shpavis = info.shpavis := by
  unfold afterOp
  split <;> exact ⟨rfl, rfl⟩

/-- One more element. -/
theorem Ready.unrollElem {info : Info} {elems : List Avis}
    (ready : Ready types params start right op form info elems)
    (args : Args form types base n params arg1 arg2) (int : right → base = .int)
    (result : right → op.resultBase .int = .int) (read : reading p = some (op, form))
    (vector : form.isScalar = false) (normal : normalizePrf p = some q)
    (element : reading q = some (op, form.element)) (i : Nat) :
    ∃ argavis1 info1 argavis2 info2 expr info',
      Stage types params start right op q form i arg1 arg2 info argavis1 info1 argavis2 info2
        expr ∧
      afterFold op (info2.fresh + 1) (afterOp op expr info2) = some info' ∧
      unrollElem p arg1 arg2 i (info, elems) = some (info', info2.fresh :: elems) ∧
      Ready types params start right op form info' (info2.fresh :: elems) ∧
      Extends (afterOp op expr info2) info' := by
  obtain ⟨argavis1, info1, argavis2, info2, expr, stage⟩ :=
    ready.stage args int vector element i
  have unrolled := unroll_elem_selected read vector normal stage.toSelected elems
  have holds3 := stage.holds2.afterOp stage.uses stage.typed result
  obtain ⟨new, ids, emits, -, res, pred⟩ := afterOp_emits types params op expr info2
  have extends3 := (stage.extends1.trans stage.extends2).trans emits.extends
  obtain ⟨last3, shp3⟩ := afterOp_kept op expr info2
  have shape3 : form = .VxA → ∃ shp, (afterOp op expr info2).shpavis = some shp ∧
      HasBase types params (afterOp op expr info2) shp .int := by
    intro shape
    obtain ⟨shp, found, has⟩ := ready.shape shape
    exact ⟨shp, (shp3.trans stage.shp2).trans found, extends3.hasBase has⟩
  cases guard : op.isGuard with
  | false =>
      have fold : afterFold op (info2.fresh + 1) (afterOp op expr info2) =
          some (afterOp op expr info2) := by simp [afterFold, guard]
      rw [fold] at unrolled
      refine ⟨argavis1, info1, argavis2, info2, expr, _, stage, fold, unrolled,
        ⟨holds3, ?_, by simp [guard], shape3⟩, .refl _⟩
      intro x mem
      rcases List.mem_cons.mp mem with rfl | old
      · exact res.knows
      · exact extends3.knows (ready.elems x old)
  | true =>
      obtain ⟨last, found, bool⟩ := ready.guard guard
      have fold : afterFold op (info2.fresh + 1) (afterOp op expr info2) =
          some { introduce .bool [] (.prf2 .andSxS last (info2.fresh + 1)) (afterOp op expr info2)
            with lastp1pavis := some (afterOp op expr info2).fresh } := by
        simp [afterFold, guard, last3, stage.last2, found]
      rw [fold] at unrolled
      have emits4 := emits_introduce .bool [] (.prf2 .andSxS last (info2.fresh + 1))
        (afterOp op expr info2)
      have holds4 := holds3.introduce .bool [] (.prf2 .andSxS last (info2.fresh + 1))
        (by
          simp only [Expr.uses, List.mem_cons, List.not_mem_nil, or_false, forall_eq_or_imp,
            forall_eq]
          exact ⟨extends3.knows bool.knows, (pred guard).knows⟩)
        (fun _ => typed_and _ (extends3.hasBase bool))
      refine ⟨argavis1, info1, argavis2, info2, expr, _, stage, fold, unrolled,
        ⟨⟨holds4.1, holds4.2, holds4.3, holds4.4, holds4.5, holds4.6⟩, ?_, ?_, ?_⟩,
        ⟨emits4.extends.1, emits4.extends.2, emits4.extends.3⟩⟩
      · intro x mem
        rcases List.mem_cons.mp mem with rfl | old
        · exact emits4.extends.knows res.knows
        · exact emits4.extends.knows (extends3.knows (ready.elems x old))
      · exact fun _ => ⟨_, rfl, has_introduced types params .bool []
          (.prf2 .andSxS last (info2.fresh + 1)) (afterOp op expr info2)⟩
      · intro shape
        obtain ⟨shp, found, has⟩ := shape3 shape
        exact ⟨shp, found, emits4.extends.hasBase has⟩

/-- All elements: the loop does not fail, and keeps what its first round emits. -/
theorem unroll_loop {info0 : Info} (ready : Ready types params start right op form info0 [])
    (args : Args form types base n params arg1 arg2) (int : right → base = .int)
    (result : right → op.resultBase .int = .int) (read : reading p = some (op, form))
    (vector : form.isScalar = false) (normal : normalizePrf p = some q)
    (element : reading q = some (op, form.element)) (len : Nat) :
    ∃ info elems, unrollLoop p arg1 arg2 len (info0, []) = some (info, elems) ∧
      Ready types params start right op form info elems ∧
      ∀ s, 0 < len → PrfUnrolling.unrollElem p arg1 arg2 0 (info0, []) = some s →
        Extends s.1 info := by
  induction len with
  | zero => exact ⟨info0, [], rfl, ready, fun _ some_ => absurd some_ (Nat.lt_irrefl 0)⟩
  | succ len ih =>
      obtain ⟨info, elems, looped, ready', first⟩ := ih
      obtain ⟨argavis1, info1, argavis2, info2, expr, info', stage, -, unrolled, ready'', extends3⟩ :=
        ready'.unrollElem args int result read vector normal element len
      have step : unrollLoop p arg1 arg2 (len + 1) (info0, []) =
          some (info', info2.fresh :: elems) := by
        simp [unrollLoop, looped, unrolled]
      refine ⟨info', _, step, ready'', fun s _ done => ?_⟩
      cases len with
      | zero =>
          cases looped
          cases done.symm.trans unrolled
          exact .refl _
      | succ len =>
          obtain ⟨_, _, emits, -⟩ := afterOp_emits types params op expr info2
          exact (first s (Nat.succ_pos len) done).trans
            ((stage.extends1.trans stage.extends2).trans (emits.extends.trans extends3))

/-- What the chain starts with: nothing, true, or true and the shape of an array. -/
def noInfo (fresh : Avis) : Info :=
  ⟨[], [], none, none, fresh⟩

def trueInfo (fresh : Avis) : Info :=
  ⟨[⟨fresh, .bool, []⟩], [⟨[fresh], .bool true⟩], some fresh, none, fresh + 1⟩

def shapeInfo (a : Avis) (dim : Nat) (fresh : Avis) : Info :=
  ⟨[⟨fresh + 1, .bool, []⟩, ⟨fresh, .int, [dim]⟩],
    [⟨[fresh], .prf1 .shapeA a⟩, ⟨[fresh + 1], .bool true⟩], some (fresh + 1), some fresh, fresh + 2⟩

inductive Starts (op : Op) (form : Form) (n : Nat) (arg2 : Option Avis) (fresh : Avis) :
    Info → Prop where
  | none : op.isGuard = false → form ≠ .VxA → Starts op form n arg2 fresh (noInfo fresh)
  | guard : op.isGuard = true → form ≠ .VxA → Starts op form n arg2 fresh (trueInfo fresh)
  | shape {a : Avis} : form = .VxA → arg2 = some a →
      Starts op form n arg2 fresh (shapeInfo a n fresh)

theorem true_scalar_starts (args : Args form types base n params arg1 arg2)
    (read : reading p = some (op, form)) (vector : form.isScalar = false) (fresh : Avis) :
    ∃ info0, makeTrueScalar p arg2 (arg2.bind (types · |>.dim)) (noInfo fresh) = some info0 ∧
      Starts op form n arg2 fresh info0 := by
  rw [true_scalar read vector]
  by_cases VxA : form = .VxA
  · rw [if_pos VxA]
    subst VxA
    have fit := args.fit.2
    cases arg2 with
    | none => cases fit
    | some a =>
        refine ⟨shapeInfo a n fresh, ?_, .shape rfl rfl⟩
        simp [makeTrueScalar, fit.2, makeTrue, makeAvis, assign, noInfo, shapeInfo]
  · rw [if_neg VxA]
    cases guard : op.isGuard with
    | true => exact ⟨trueInfo fresh, rfl, .guard guard VxA⟩
    | false => exact ⟨noInfo fresh, rfl, .none guard VxA⟩

theorem Starts.ready (args : Args form types base n params arg1 arg2) {fresh : Avis}
    {info0 : Info} (starts : Starts op form n arg2 fresh info0) :
    Ready types params fresh right op form info0 [] := by
  have empty : Holds types params fresh right (noInfo fresh) :=
    ⟨trivial, .refl _, .nil, by simp [noInfo], Nat.le_refl _, by simp [noInfo]⟩
  cases starts with
  | none guard shape =>
      exact ⟨empty, by simp, by simp [guard], fun yes => absurd yes shape⟩
  | guard guard shape =>
      have holds := empty.introduce .bool [] (.bool true) (by simp [Expr.uses]) fun _ => .bool true
      refine ⟨⟨holds.1, holds.2, holds.3, holds.4, holds.5, holds.6⟩, by simp, fun _ => ?_,
        fun yes => absurd yes shape⟩
      exact ⟨fresh, rfl, has_introduced types params .bool [] (.bool true) (noInfo fresh)⟩
  | shape VxA second =>
      rename_i a
      have bool : HasBase types params (shapeInfo a n fresh) (fresh + 1) .bool :=
        Or.inr ⟨⟨fresh + 1, .bool, []⟩, by simp [shapeInfo], rfl, rfl⟩
      have int : HasBase types params (shapeInfo a n fresh) fresh .int :=
        Or.inr ⟨⟨fresh, .int, [n]⟩, by simp [shapeInfo], rfl, rfl⟩
      refine ⟨⟨?_, .refl _, by simp [shapeInfo], ?_, Nat.le_add_right _ 2, fun _ => ?_⟩, by simp,
        fun _ => ⟨_, rfl, bool⟩, fun _ => ⟨_, rfl, int⟩⟩
      · simp [shapeInfo, Ordered, Expr.uses, args.second a second]
      · simp only [shapeInfo, List.mem_cons, List.not_mem_nil, or_false, forall_eq_or_imp, forall_eq]
        exact ⟨⟨Nat.le_succ _, Nat.lt_succ_self _⟩, Nat.le_refl _,
          Nat.lt_add_of_pos_right Nat.two_pos⟩
      · simp only [shapeInfo, List.mem_cons, List.not_mem_nil, or_false, forall_eq_or_imp, forall_eq]
        exact ⟨⟨[.int], .shape a, .cons int .nil⟩, ⟨[.bool], .bool true, .cons bool .nil⟩⟩

end Stages

end Sac2c.PrfUnrolling
