import Sac2c.AssociativeLaw
import Sac2c.Totals

/-!
What straight-line code leaves behind, the total of collected operands, and the
total, marks and variants of the trees they are combined in.
-/

namespace Sac2c.AssociativeLaw

open ArrayValues Totals

variable {Index : Type} {env : Env Index}

section Code

variable {assign : Assign Index} {assigns : List (Assign Index)} {a : Avis}

theorem Assign.exec_lhs (assign : Assign Index) (env : Env Index) :
    assign.exec env assign.lhs = assign.rhs.eval env :=
  Function.update_self ..

theorem Assign.exec_of_ne (differ : a ≠ assign.lhs) : assign.exec env a = env a :=
  Function.update_of_ne differ _ env

theorem exec_append (first second : List (Assign Index)) (env : Env Index) :
    exec (first ++ second) env = exec second (exec first env) :=
  List.foldl_append

theorem exec_other (outside : ∀ assign ∈ assigns, assign.lhs ≠ a) : exec assigns env a = env a := by
  induction assigns generalizing env with
  | nil => rfl
  | cons assign assigns ih =>
      have differ : a ≠ assign.lhs := (outside assign (List.mem_cons_self ..)).symm
      apply (ih fun later member => outside later (List.mem_cons_of_mem assign member)).trans
      exact Assign.exec_of_ne differ

theorem fits_append (first second : List (Assign Index)) (env : Env Index) :
    Fits (first ++ second) env ↔ Fits first env ∧ Fits second (exec first env) := by
  induction first generalizing env with
  | nil => exact (and_iff_right trivial).symm
  | cons assign first ih =>
      rw [List.cons_append, Fits, Fits, ih, and_assoc]
      rfl

theorem Rhs.eval_congr {rhs : Rhs Index} {env' : Env Index}
    (agree : ∀ arg ∈ rhs.args, env' arg = env arg) : rhs.eval env' = rhs.eval env := by
  cases rhs <;> simp_all [args, eval]

theorem Rhs.fits_congr {rhs : Rhs Index} {env' : Env Index}
    (agree : ∀ arg ∈ rhs.args, env' arg = env arg) : rhs.Fits env' ↔ rhs.Fits env := by
  cases rhs <;> simp_all [args, Rhs.Fits]

/-- Environments that agree below a bound agree there after an assignment within it. -/
theorem Assign.exec_congr {now : Env Index} {n : Avis} (agree : ∀ a < n, now a = env a)
    (below : ∀ arg ∈ assign.rhs.args, arg < n) :
    ∀ a < n, assign.exec now a = assign.exec env a := by
  intro a bound
  by_cases same : a = assign.lhs
  · subst same
    rw [Assign.exec_lhs, Assign.exec_lhs]
    exact Rhs.eval_congr fun arg member => agree arg (below arg member)
  · rw [Assign.exec_of_ne same, Assign.exec_of_ne same]
    exact agree a bound

/-- Later assignments leave the arguments and the result alone. -/
theorem SSA.head_kept (ssa : SSA (assign :: assigns)) :
    (∀ arg ∈ assign.rhs.args, exec (assign :: assigns) env arg = env arg) ∧
      exec (assign :: assigns) env assign.lhs = assign.rhs.eval env := by
  obtain ⟨unused, later, _⟩ := ssa
  constructor
  · intro arg member
    have apart : ∀ next ∈ assigns, next.lhs ≠ arg := by
      rintro next within rfl
      exact (later next within).2 member
    apply (exec_other apart).trans
    exact Assign.exec_of_ne (ne_of_mem_of_not_mem member unused)
  · apply (exec_other fun next within => (later next within).1).trans
    exact assign.exec_lhs env

/-- In the end each assignment is an equation between what the identifiers hold. -/
theorem SSA.settled (ssa : SSA assigns) (member : assign ∈ assigns) :
    exec assigns env assign.lhs = assign.rhs.eval (exec assigns env) := by
  induction assigns generalizing env with
  | nil => cases member
  | cons first assigns ih =>
      rcases List.mem_cons.mp member with same | member
      · subst same
        obtain ⟨args, result⟩ := ssa.head_kept
        rw [result, Rhs.eval_congr args]
      · exact ih ssa.2.2 member

theorem SSA.fits (ssa : SSA assigns) (fits : Fits assigns env) (member : assign ∈ assigns) :
    assign.rhs.Fits (exec assigns env) := by
  induction assigns generalizing env with
  | nil => cases member
  | cons first assigns ih =>
      rcases List.mem_cons.mp member with same | member
      · subst same
        exact (Rhs.fits_congr ssa.head_kept.1).mpr fits.1
      · exact ih ssa.2.2 fits.2 member

theorem SSA.of_append {first second : List (Assign Index)} (ssa : SSA (first ++ second)) :
    SSA first := by
  induction first with
  | nil => trivial
  | cons assign first ih =>
      refine ⟨ssa.1, ?_, ih ssa.2.2⟩
      intro later member
      exact ssa.2.1 later (List.mem_append_left second member)

end Code

namespace Prf

variable {prf rhs : Prf}

/-- The primitive functions whose variant is chosen anew. -/
def isArith (prf : Prf) : Bool := prf.isPrfAdd || prf.isPrfMul

theorem compatiblePrf_op (compatible : prf.compatiblePrf rhs = true) : rhs.op = prf.op := by
  obtain ⟨op, variant⟩ := prf
  obtain ⟨op', variant'⟩ := rhs
  cases op <;> cases op' <;> simp_all [compatiblePrf, normalizePrf]

theorem compatiblePrf_eq (other : prf.isArith = false) (compatible : prf.compatiblePrf rhs = true) :
    rhs = prf := by
  obtain ⟨op, variant⟩ := prf
  obtain ⟨op', variant'⟩ := rhs
  cases op <;> cases op' <;>
    simp_all [compatiblePrf, normalizePrf, isArith, isPrfAdd, isPrfMul]

theorem compatiblePrf_arith (arith : prf.isArith = true)
    (compatible : prf.compatiblePrf rhs = true) : rhs.isArith = true := by
  simpa only [isArith, isPrfAdd, isPrfMul, compatiblePrf_op compatible] using arith

theorem getPrf_op (e1 e2 : Operand) : (prf.getPrf e1 e2).op = prf.op := by
  obtain ⟨op, variant⟩ := prf
  cases op <;> rfl

theorem getPrf_arith (arith : prf.isArith = true) (e1 e2 : Operand) :
    (prf.getPrf e1 e2).variant = .ofScl e1.isSclPrf e2.isSclPrf := by
  obtain ⟨op, variant⟩ := prf
  cases op <;> first | rfl | cases arith

theorem getPrf_other (other : prf.isArith = false) (e1 e2 : Operand) : prf.getPrf e1 e2 = prf := by
  obtain ⟨op, variant⟩ := prf
  cases op <;> first | rfl | cases other

theorem isArgScl_arith (arith : prf.isArith = true) :
    prf.isArg1Scl = prf.variant.scl1 ∧ prf.isArg2Scl = prf.variant.scl2 := by
  obtain ⟨op, variant⟩ := prf
  cases op <;> first | exact ⟨rfl, rfl⟩ | cases arith

end Prf

section Collection

variable {prf : Prf} {defined : Defined} {scope : List (Assign Index)} {a : Avis} {s : Bool}

/-- What the operands hold. -/
def held (env : Env Index) (exprs : List Operand) : List (Value Index) :=
  exprs.map fun e => env e.avis

theorem held_append (exprs exprs' : List Operand) :
    held env (exprs ++ exprs') = held env exprs ++ held env exprs' :=
  List.map_append

/-- Operands are collected through copies and compatible primitive functions. -/
theorem collectExprs_induct {motive : Avis → Bool → List Operand → Prop}
    (leaf : ∀ a s, motive a s [⟨a, s⟩])
    (follow : ∀ a avis s exprs, ⟨a, .id avis⟩ ∈ scope → motive avis s exprs → motive a s exprs)
    (join : ∀ a rhs arg1 arg2 s left right, ⟨a, .prf rhs arg1 arg2⟩ ∈ scope →
      prf.compatiblePrf rhs = true → motive arg1 rhs.isArg1Scl left →
      motive arg2 rhs.isArg2Scl right → motive a s (left ++ right)) :
    motive a s (collectExprs prf defined scope a s) := by
  induction scope generalizing a s with
  | nil => exact leaf a s
  | cons assign scope ih =>
      have rest (a : Avis) (s : Bool) : motive a s (collectExprs prf defined scope a s) := by
        apply ih
        · intro a avis s exprs member
          exact follow a avis s exprs (List.mem_cons_of_mem assign member)
        · intro a rhs arg1 arg2 s left right member
          exact join a rhs arg1 arg2 s left right (List.mem_cons_of_mem assign member)
      obtain ⟨lhs, rhs⟩ := assign
      rw [collectExprs]
      split
      next same =>
        subst same
        split
        · cases rhs with
          | id avis => exact follow lhs avis s _ (List.mem_cons_self ..) (rest avis s)
          | prf rhs arg1 arg2 =>
              dsimp only
              split
              next compatible =>
                exact join lhs rhs arg1 arg2 s _ _ (List.mem_cons_self ..) compatible
                  (rest arg1 _) (rest arg2 _)
              next => exact leaf lhs s
          | const _ | inv _ _ => exact leaf lhs s
        · exact leaf lhs s
      next => exact rest a s

/-- Collection follows equations, so it keeps the total. -/
theorem collectExprs_total
    (settled : ∀ assign ∈ scope, env assign.lhs = assign.rhs.eval env) :
    total prf.op.values (held env (collectExprs prf defined scope a s)) = some (env a) := by
  apply collectExprs_induct
    (motive := fun a _ exprs => total prf.op.values (held env exprs) = some (env a))
  · intro a s
    rfl
  · intro a avis s exprs member known
    exact known.trans (congrArg some (settled _ member).symm)
  · intro a rhs arg1 arg2 s left right member compatible first second
    rw [held_append, total_append, first, second, settled _ member,
      Rhs.eval, Prf.compatiblePrf_op compatible]
    rfl

theorem collectExprs_below {tmpVar : Avis} (bounded : Below tmpVar scope) (below : a < tmpVar) :
    ∀ e ∈ collectExprs prf defined scope a s, e.avis < tmpVar := by
  apply collectExprs_induct
    (motive := fun a _ exprs => a < tmpVar → ∀ e ∈ exprs, e.avis < tmpVar)
  · intro a s below e member
    rwa [List.mem_singleton.mp member]
  · intro a avis s exprs member known _
    exact known ((bounded _ member).2 avis (List.mem_cons_self ..))
  · intro a rhs arg1 arg2 s left right member _ first second _ e within
    rcases List.mem_append.mp within with within | within
    · exact first ((bounded _ member).2 arg1 (List.mem_cons_self ..)) e within
    · exact second ((bounded _ member).2 arg2 (List.mem_cons_of_mem _ (List.mem_cons_self ..))) e
        within
  · exact below

/-- For additions and multiplications the marks say what is a scalar. -/
theorem collectExprs_marked (arith : prf.isArith = true)
    (settled : ∀ assign ∈ scope, env assign.lhs = assign.rhs.eval env)
    (fits : ∀ assign ∈ scope, assign.rhs.Fits env) (marked : s = (env a).isScl) :
    ∀ e ∈ collectExprs prf defined scope a s, e.isSclPrf = (env e.avis).isScl := by
  apply collectExprs_induct (motive := fun a s exprs => s = (env a).isScl →
    ∀ e ∈ exprs, e.isSclPrf = (env e.avis).isScl)
  · intro a s marked e member
    rwa [List.mem_singleton.mp member]
  · intro a avis s exprs member known marked
    exact known (marked.trans (congrArg Value.isScl (settled _ member)))
  · intro a rhs arg1 arg2 s left right member compatible first second _ e within
    obtain ⟨scl1, scl2⟩ := Prf.isArgScl_arith (Prf.compatiblePrf_arith arith compatible)
    obtain ⟨rank1, rank2⟩ := Variant.ofScl_iff.mp (fits _ member)
    rcases List.mem_append.mp within with within | within
    · exact first (scl1.trans rank1) e within
    · exact second (scl2.trans rank2) e within
  · exact marked

/-- Where every variant is for two arguments of one rank, the operands are of that rank. -/
theorem collectExprs_same {scl : Bool} (other : prf.isArith = false)
    (same : prf.variant = .ofScl scl scl)
    (settled : ∀ assign ∈ scope, env assign.lhs = assign.rhs.eval env)
    (fits : ∀ assign ∈ scope, assign.rhs.Fits env) (rank : (env a).isScl = scl) :
    ∀ e ∈ collectExprs prf defined scope a s, (env e.avis).isScl = scl := by
  apply collectExprs_induct (motive := fun a _ exprs => (env a).isScl = scl →
    ∀ e ∈ exprs, (env e.avis).isScl = scl)
  · intro a s rank e member
    rwa [List.mem_singleton.mp member]
  · intro a avis s exprs member known rank
    exact known ((congrArg Value.isScl (settled _ member)).symm.trans rank)
  · intro a rhs arg1 arg2 s left right member compatible first second _ e within
    rw [Prf.compatiblePrf_eq other compatible] at member
    obtain ⟨rank1, rank2⟩ := Variant.ofScl_inj.mp (same.symm.trans (fits _ member))
    rcases List.mem_append.mp within with within | within
    · exact first rank1.symm e within
    · exact second rank2.symm e within
  · exact rank

end Collection

section Variants

/-- The variant fits when an operand is combined with the next ones. -/
def Chain (variant : Variant) : Bool → List Bool → Prop
  | _, [] => True
  | s1, s2 :: ranks => variant = .ofScl s1 s2 ∧ Chain variant (s1 && s2) ranks

/-- The variant fits throughout the tree of operands of these ranks. -/
def FitsTree (variant : Variant) : List Bool → Prop
  | [] => True
  | s :: ranks => Chain variant s ranks

theorem merged_isScl (op : Op) (vs : List (Value Index)) :
    (merged op.values vs).map Value.isScl = merged and (vs.map Value.isScl) := by
  cases vs with
  | nil => rfl
  | cons v vs =>
      have fold : (vs.foldl op.values v).isScl = (vs.map Value.isScl).foldl and v.isScl := by
        induction vs generalizing v with
        | nil => rfl
        | cons w vs ih => rw [List.foldl_cons, ih, op.values_isScl]; rfl
      exact congrArg (fun s => [s]) fold

end Variants

section Trees

variable {prf : Prf} {pre pre' pre'' : Pre Index} {e e1 e2 : Operand} {exprs : List Operand}
  {v v1 v2 : Value Index} {vs : List (Value Index)}

/-- The environment once the assignments are made. -/
def Pre.exec (pre : Pre Index) (env : Env Index) : Env Index :=
  AssociativeLaw.exec pre.preassign.reverse env

def Pre.Fits (pre : Pre Index) (env : Env Index) : Prop :=
  AssociativeLaw.Fits pre.preassign.reverse env

/-- What has been assigned before stays, and variants chosen anew keep fitting. -/
structure Grows (env : Env Index) (prf : Prf) (pre pre' : Pre Index) : Prop where
  later : pre.tmpVar ≤ pre'.tmpVar
  keeps : ∀ a < pre.tmpVar, pre'.exec env a = pre.exec env a
  fits : prf.isArith = true → pre.Fits env → pre'.Fits env

theorem Grows.refl (pre : Pre Index) : Grows env prf pre pre :=
  ⟨Nat.le_refl _, fun _ _ => rfl, fun _ fits => fits⟩

theorem Grows.trans (first : Grows env prf pre pre') (second : Grows env prf pre' pre'') :
    Grows env prf pre pre'' where
  later := Nat.le_trans first.later second.later
  keeps a below :=
    (second.keeps a (Nat.lt_of_lt_of_le below first.later)).trans (first.keeps a below)
  fits arith fits := second.fits arith (first.fits arith fits)

/-- The operands hold these values. -/
structure Holds (env : Env Index) (prf : Prf) (pre : Pre Index) (exprs : List Operand)
    (vs : List (Value Index)) : Prop where
  below : ∀ e ∈ exprs, e.avis < pre.tmpVar
  values : held (pre.exec env) exprs = vs
  marked : prf.isArith = true → exprs.map Operand.isSclPrf = vs.map Value.isScl

theorem Holds.nil : Holds env prf pre [] [] := ⟨by simp, rfl, fun _ => rfl⟩

theorem Holds.later (holds : Holds env prf pre exprs vs) (grows : Grows env prf pre pre') :
    Holds env prf pre' exprs vs where
  below e member := Nat.lt_of_lt_of_le (holds.below e member) grows.later
  values := by
    rw [← holds.values]
    exact List.map_congr_left fun e member => grows.keeps e.avis (holds.below e member)
  marked := holds.marked

theorem holds_cons : Holds env prf pre (e :: exprs) (v :: vs) ↔
    Holds env prf pre [e] [v] ∧ Holds env prf pre exprs vs := by
  constructor
  · rintro ⟨below, values, marked⟩
    simp only [held, List.map_cons, List.cons.injEq] at values marked
    obtain ⟨here, below⟩ := List.forall_mem_cons.mp below
    refine ⟨⟨by simpa using here, by simp [held, values.1], fun arith => ?_⟩,
      ⟨below, values.2, fun arith => (marked arith).2⟩⟩
    rw [List.map_singleton, List.map_singleton, (marked arith).1]
  · rintro ⟨first, rest⟩
    refine ⟨?_, ?_, fun arith => ?_⟩
    · exact List.forall_mem_cons.mpr ⟨first.below e (List.mem_cons_self ..), rest.below⟩
    · exact congrArg₂ List.append first.values rest.values
    · exact congrArg₂ List.append (first.marked arith) (rest.marked arith)

theorem Holds.append {exprs' : List Operand} {vs' : List (Value Index)}
    (first : Holds env prf pre exprs vs) (second : Holds env prf pre exprs' vs') :
    Holds env prf pre (exprs ++ exprs') (vs ++ vs') where
  below e member := (List.mem_append.mp member).elim (first.below e) (second.below e)
  values := by rw [held_append, first.values, second.values]
  marked arith := by
    rw [List.map_append, List.map_append, first.marked arith, second.marked arith]

/-- A new identifier holds the combination. -/
theorem combineExprs2Prf_exec (pre : Pre Index) :
    (combineExprs2Prf prf e1 e2 pre).2.exec env = Function.update (pre.exec env) pre.tmpVar
      (prf.op.values (pre.exec env e1.avis) (pre.exec env e2.avis)) := by
  simp only [combineExprs2Prf, Pre.exec, List.reverse_cons, exec_append]
  rw [← prf.getPrf_op e1 e2]
  rfl

theorem combineExprs2Prf_fits (pre : Pre Index) :
    (combineExprs2Prf prf e1 e2 pre).2.Fits env ↔ pre.Fits env ∧ (prf.getPrf e1 e2).variant =
      .ofScl (pre.exec env e1.avis).isScl (pre.exec env e2.avis).isScl := by
  simp only [combineExprs2Prf, Pre.Fits, List.reverse_cons, fits_append]
  exact and_congr_right fun _ => and_iff_left trivial

theorem combineExprs2Prf_spec (first : Holds env prf pre [e1] [v1])
    (second : Holds env prf pre [e2] [v2]) :
    Grows env prf pre (combineExprs2Prf prf e1 e2 pre).2 ∧
      Holds env prf (combineExprs2Prf prf e1 e2 pre).2 [(combineExprs2Prf prf e1 e2 pre).1]
        [prf.op.values v1 v2] := by
  have value1 : pre.exec env e1.avis = v1 := List.singleton_inj.mp first.values
  have value2 : pre.exec env e2.avis = v2 := List.singleton_inj.mp second.values
  refine ⟨⟨Nat.le_succ _, ?_, ?_⟩, ⟨?_, ?_, ?_⟩⟩
  · intro a below
    rw [combineExprs2Prf_exec]
    exact Function.update_of_ne (Nat.ne_of_lt below) _ _
  · intro arith fits
    have mark1 : e1.isSclPrf = v1.isScl := List.singleton_inj.mp (first.marked arith)
    have mark2 : e2.isSclPrf = v2.isScl := List.singleton_inj.mp (second.marked arith)
    rw [combineExprs2Prf_fits, Prf.getPrf_arith arith, value1, value2, mark1, mark2]
    exact ⟨fits, rfl⟩
  · intro e member
    rw [List.mem_singleton.mp member]
    exact Nat.lt_succ_self _
  · rw [held, List.map_singleton, combineExprs2Prf_exec, value1, value2]
    exact congrArg (fun v => [v]) (Function.update_self ..)
  · intro arith
    have mark1 : e1.isSclPrf = v1.isScl := List.singleton_inj.mp (first.marked arith)
    have mark2 : e2.isSclPrf = v2.isScl := List.singleton_inj.mp (second.marked arith)
    rw [List.map_singleton, List.map_singleton, prf.op.values_isScl, ← mark1, ← mark2]
    rfl

theorem combineHead_spec (holds : Holds env prf pre (e :: exprs) (v :: vs)) :
    Grows env prf pre (combineHead prf e exprs pre).2 ∧
      Holds env prf (combineHead prf e exprs pre).2 [(combineHead prf e exprs pre).1]
        [vs.foldl prf.op.values v] := by
  induction exprs generalizing e v vs pre with
  | nil =>
      obtain ⟨first, rest⟩ := holds_cons.mp holds
      cases rest.values
      exact ⟨Grows.refl pre, first⟩
  | cons e2 exprs ih =>
      obtain ⟨first, rest⟩ := holds_cons.mp holds
      cases vs with
      | nil => cases rest.values
      | cons v2 vs =>
          obtain ⟨second, rest⟩ := holds_cons.mp rest
          obtain ⟨grows, combined⟩ := combineExprs2Prf_spec first second
          obtain ⟨grows', result⟩ := ih (holds_cons.mpr ⟨combined, rest.later grows⟩)
          exact ⟨grows.trans grows', result⟩

/-- A tree holds the total of its operands. -/
theorem exprs2PrfTree_spec (holds : Holds env prf pre exprs vs) :
    Grows env prf pre (exprs2PrfTree prf exprs pre).2 ∧
      Holds env prf (exprs2PrfTree prf exprs pre).2 (exprs2PrfTree prf exprs pre).1.toList
        (merged prf.op.values vs) := by
  cases exprs with
  | nil =>
      cases holds.values
      exact ⟨Grows.refl pre, Holds.nil⟩
  | cons e exprs =>
      cases vs with
      | nil => cases holds.values
      | cons v vs => exact combineHead_spec holds

theorem TCcombineExprs_eq (first : Option Operand) (exprs : List Operand) :
    TCcombineExprs first exprs = first.toList ++ exprs := by
  cases first <;> rfl

/-- The operands of pairs of inverses. -/
def pairExprs (inverses : List (Operand × Operand)) : List Operand :=
  inverses.flatMap fun pair => [pair.1, pair.2]

theorem combineInverses_spec {inverses : List (Operand × Operand)} {ws : List (Value Index)}
    (pairs : Holds env prf pre (pairExprs inverses) ws) (holds : Holds env prf pre exprs vs) :
    Grows env prf pre (combineInverses prf inverses exprs pre).2 ∧
      ∃ vs', total prf.op.values vs' = total prf.op.values (ws ++ vs) ∧
        Holds env prf (combineInverses prf inverses exprs pre).2
          (combineInverses prf inverses exprs pre).1 vs' := by
  induction inverses generalizing pre exprs vs ws with
  | nil =>
      cases pairs.values
      exact ⟨Grows.refl pre, vs, rfl, holds⟩
  | cons pair inverses ih =>
      match ws, pairs.values with
      | w1 :: w2 :: ws, _ =>
          obtain ⟨left, rest⟩ := holds_cons.mp pairs
          obtain ⟨right, rest⟩ := holds_cons.mp rest
          obtain ⟨grows, tree⟩ := exprs2PrfTree_spec (holds_cons.mpr ⟨left, right⟩)
          have joined := tree.append (holds.later grows)
          rw [← TCcombineExprs_eq] at joined
          obtain ⟨grows', vs', same, result⟩ := ih (rest.later grows) joined
          refine ⟨grows.trans grows', vs', ?_, result⟩
          rw [same]
          -- the tree of the pair stands for its operands, which come first
          have moved : (ws ++ ([w1, w2] ++ vs)).Perm (w1 :: w2 :: ws ++ vs) := by
            rw [← List.append_assoc]
            exact List.perm_append_comm.append_right vs
          rw [← total_perm prf.op.values moved]
          apply total_append_congr prf.op.values rfl
          exact total_append_congr prf.op.values (total_merged ..) rfl

/-- Where the variant is kept it has to fit by itself. -/
theorem combineHead_fits (other : prf.isArith = false)
    (holds : Holds env prf pre (e :: exprs) (v :: vs)) :
    (combineHead prf e exprs pre).2.Fits env ↔
      pre.Fits env ∧ Chain prf.variant v.isScl (vs.map Value.isScl) := by
  induction exprs generalizing e v vs pre with
  | nil =>
      cases (holds_cons.mp holds).2.values
      exact (and_iff_left trivial).symm
  | cons e2 exprs ih =>
      obtain ⟨first, rest⟩ := holds_cons.mp holds
      cases vs with
      | nil => cases rest.values
      | cons v2 vs =>
          obtain ⟨second, rest⟩ := holds_cons.mp rest
          obtain ⟨grows, combined⟩ := combineExprs2Prf_spec first second
          have value1 : pre.exec env e.avis = v := List.singleton_inj.mp first.values
          have value2 : pre.exec env e2.avis = v2 := List.singleton_inj.mp second.values
          rw [List.map_cons, Chain, ← prf.op.values_isScl, ← and_assoc]
          apply (ih (holds_cons.mpr ⟨combined, rest.later grows⟩)).trans
          rw [combineExprs2Prf_fits, Prf.getPrf_other other, value1, value2]

theorem exprs2PrfTree_fits (other : prf.isArith = false) (holds : Holds env prf pre exprs vs) :
    (exprs2PrfTree prf exprs pre).2.Fits env ↔
      pre.Fits env ∧ FitsTree prf.variant (vs.map Value.isScl) := by
  cases exprs with
  | nil =>
      cases holds.values
      exact (and_iff_left trivial).symm
  | cons e exprs =>
      cases vs with
      | nil => cases holds.values
      | cons v vs => exact combineHead_fits other holds

end Trees

end Sac2c.AssociativeLaw
