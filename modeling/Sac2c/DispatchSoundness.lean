import Mathlib.Algebra.Ring.Int.Defs
import Mathlib.Algebra.Order.Group.Int
import Mathlib.Data.List.Induction
import Sac2c.FunDispatch

/-!
Whether a call is only bound to an instance that accepts its arguments. The
first part says in terms of types which instance a dispatch settles on; the
second which pairs of argument and parameter are misjudged on the way.
-/

namespace Sac2c.DispatchSoundness

open NewTypes FunDispatch

section Pairs
variable {Val : Type} [BEq Val] (users : UserTypes)

/-- A pair that counts as if the parameter accepted the argument, although the
argument type is not a subtype of it: two scalars of which only one has a known
value or both have different ones; a scalar for a parameter that is no scalar,
other than AUD; or an AUD argument for an AUDGZ parameter. -/
def Misjudged (arg param : ArrayType Val) : Prop :=
  eqScalar users arg.getScalar param.getScalar = true ∧
    ((isScalar arg = true ∧ isScalar param = true ∧ leTypes users arg param = false) ∨
      (isScalar arg = true ∧ isScalar param = false ∧ ∀ base, param ≠ .aud base) ∨
      ∃ base base2, arg = .aud base ∧ param = .audgz base2)

/-- The parameter does not count as more special than the argument. -/
def Accepts (arg param : ArrayType Val) : Prop :=
  leTypes users arg param = true ∨ Misjudged users arg param

/-- The place of a type in the hierarchy of shape restrictions. -/
def generality : ArrayType Val → Int
  | .akv _ _ => 0
  | .aks _ _ => 1
  | .akd _ _ _ _ => 2
  | .audgz _ => 3
  | .aud _ => 4

/-- What an accepting parameter adds to `downs`: nothing for a known shape, else
the distance in the hierarchy, downwards; but upwards for a scalar argument. -/
def lift (arg param : ArrayType Val) : Int :=
  if isScalar arg then
    if isScalar param then 0 else if isAkv arg then 2 else 1
  else if generality param ≤ 1 then 0 else min 0 (generality arg - generality param)

/-- Only AUD is above a scalar without being a scalar. -/
theorem above_scalar {arg param : ArrayType Val} (scalar : isScalar arg = true)
    (other : isScalar param = false) (below : leTypes users arg param = true) :
    ∃ base, param = .aud base := by
  rw [le_types_iff] at below
  obtain ⟨_, admits⟩ := below
  have zero : arg.getDim = some 0 := by simpa [isScalar] using scalar
  have unknown : param.getDim = none := by
    cases known : param.getDim with
    | none => rfl
    | some dim =>
        have same := admits_dim admits known
        rw [zero] at same
        cases same
        simp [isScalar, known] at other
  cases param with
  | akv base const => simp [ArrayType.getDim] at unknown
  | aks base shape => simp [ArrayType.getDim] at unknown
  | akd base dots shape some => simp [ArrayType.getDim] at unknown
  | audgz base =>
      rcases admits with ⟨dim, known, positive⟩ | ⟨_, same⟩
      · rw [zero] at known
        cases known
        exact absurd positive (Nat.lt_irrefl 0)
      · subst same
        simp [ArrayType.getDim] at zero
  | aud base => exact ⟨base, rfl⟩

theorem param_weight_ups (arg param : ArrayType Val) (weight : Int × Int)
    (legal : paramWeight users arg param = some weight) : 0 ≤ weight.1 := by
  have ups : 0 ≤ upsOf param arg := by
    cases param <;> cases arg <;> simp [upsOf]
  unfold paramWeight at legal
  split_ifs at legal
  · simp only [Option.some.injEq] at legal
    simp [← legal]
  · simp only [Option.some.injEq] at legal
    simp [← legal]
  · simp only [Option.some.injEq] at legal
    simp [← legal]
  · cases compared : cmpTypes users param arg <;> simp only [compared] at legal <;>
      simp only [Option.some.injEq, reduceCtorEq] at legal <;> simp [← legal, ups]

/-- The result of a comparison tells which of the types is the more general one. -/
theorem cmp_generality (t1 t2 : ArrayType Val) :
    match cmpSameBase t1 t2 with
    | .eq => generality t1 = generality t2
    | .lt => generality t1 < generality t2
    | .gt => generality t2 < generality t1
    | .hcs => True
    | .dis => False := by
  cases t1 <;> cases t2 <;> simp only [cmpSameBase] <;> (try split_ifs) <;> simp [generality]

theorem lift_eq {arg param : ArrayType Val} (array : isScalar arg = false)
    (equal : cmpSameBase arg param = .eq) : lift arg param = 0 := by
  have level := cmp_generality arg param
  simp only [equal] at level
  simp [lift, array, level]

theorem lift_lt {arg param : ArrayType Val} (array : isScalar arg = false)
    (below : cmpSameBase arg param = .lt) : lift arg param = - downsOf param arg := by
  have level := cmp_generality arg param
  simp only [below] at level
  unfold lift
  rw [array]
  cases arg <;> cases param <;> first | rfl | simp [generality] at level

theorem ups_gt {arg param : ArrayType Val} (above : cmpSameBase arg param = .gt) :
    upsOf param arg = 0 ↔ ∃ base base2, arg = .aud base ∧ param = .audgz base2 := by
  have level := cmp_generality arg param
  simp only [above] at level
  cases arg <;> cases param <;> first | simp [upsOf]; done | simp [generality] at level

/-- Which pairs add nothing to `ups`, and what they add to `downs`. -/
theorem param_weight_iff [PartialEquivBEq Val] (arg param : ArrayType Val) (down : Int) :
    paramWeight users arg param = some (0, down) ↔
      Accepts users arg param ∧ down = lift arg param := by
  by_cases same : eqScalar users arg.getScalar param.getScalar = true
  · by_cases scalar : isScalar arg = true
    · by_cases other : isScalar param = true
      · have accepts : Accepts users arg param := by
          cases le : leTypes users arg param with
          | true => exact Or.inl le
          | false => exact Or.inr ⟨same, Or.inl ⟨scalar, other, le⟩⟩
        simp only [paramWeight, lift, same, scalar, other, accepts, ↓reduceIte, Option.some.injEq,
          Prod.mk.injEq, true_and]
        exact eq_comm
      · simp only [Bool.not_eq_true] at other
        have accepts : Accepts users arg param := by
          cases le : leTypes users arg param with
          | true => exact Or.inl le
          | false =>
              refine Or.inr ⟨same, Or.inr (Or.inl ⟨scalar, other, ?_⟩)⟩
              intro base aud
              subst aud
              have admits : leTypes users arg (.aud base) = true :=
                (le_types_iff users arg _).mpr ⟨same, trivial⟩
              rw [admits] at le
              cases le
        simp only [paramWeight, lift, same, scalar, other, accepts, ↓reduceIte, Option.some.injEq,
          Prod.mk.injEq, true_and, Bool.false_eq_true]
        exact eq_comm
    · simp only [Bool.not_eq_true] at scalar
      have symm := eq_scalar_symm users param.getScalar arg.getScalar
      rw [same] at symm
      simp only [paramWeight, same, scalar, ↓reduceIte, Bool.false_eq_true, cmpTypes, symm,
        cmp_same_base_flip arg param, Accepts, Misjudged, leTypes, false_and, false_or, true_and]
      cases compared : cmpSameBase arg param with
      | eq =>
          rw [lift_eq scalar compared]
          simp [CtRes.flip, eq_comm]
      | lt =>
          rw [lift_lt scalar compared]
          simp [CtRes.flip, eq_comm]
      -- an argument above its parameter adds nothing only if the types are [*] and [+]
      | gt =>
          have ups := ups_gt compared
          simp only [CtRes.flip, Option.some.injEq, Prod.mk.injEq, ups]
          constructor
          · rintro ⟨special, zero⟩
            obtain ⟨base, base2, isAud, isAudgz⟩ := special
            subst isAud isAudgz
            exact ⟨Or.inr ⟨base, base2, rfl, rfl⟩, by rw [← zero]; rfl⟩
          · rintro ⟨below | special, zero⟩
            · simp at below
            · obtain ⟨base, base2, isAud, isAudgz⟩ := special
              subst isAud isAudgz
              exact ⟨⟨base, base2, rfl, rfl⟩, zero.symm⟩
      | hcs =>
          simp only [CtRes.flip]
          constructor
          · intro impossible
            cases impossible
          · rintro ⟨below | ⟨base, base2, isAud, isAudgz⟩, _⟩
            · simp at below
            · subst isAud isAudgz
              simp [cmpSameBase] at compared
      | dis =>
          have level := cmp_generality arg param
          simp [compared] at level
  · simp only [Bool.not_eq_true] at same
    simp [paramWeight, Accepts, Misjudged, leTypes, cmpTypes, same]

theorem accumulate_ups (args params : List (ArrayType Val)) (ups downs : Int)
    (weight : Int × Int) (legal : accumulate users args params ups downs = some weight) :
    ups ≤ weight.1 := by
  induction args generalizing params ups downs with
  | nil =>
      simp only [accumulate, Option.some.injEq] at legal
      rw [← legal]
  | cons arg args ih =>
      cases params with
      | nil =>
          simp only [accumulate, Option.some.injEq] at legal
          rw [← legal]
      | cons param params =>
          cases here : paramWeight users arg param with
          | none => simp [accumulate, here] at legal
          | some first =>
              simp only [accumulate, here] at legal
              have rest := ih params _ _ legal
              have positive := param_weight_ups users arg param first here
              omega

def totalLift (args params : List (ArrayType Val)) : Int :=
  (List.zipWith lift args params).sum

/-- An instance ends with no `ups` exactly if all its parameters accept. -/
theorem accumulate_iff [PartialEquivBEq Val] (args params : List (ArrayType Val))
    (same : params.length = args.length) (ups downs total : Int) :
    accumulate users args params ups downs = some (ups, total) ↔
      List.Forall₂ (Accepts users) args params ∧ total = downs + totalLift args params := by
  induction args generalizing params downs with
  | nil =>
      have empty : params = [] := List.length_eq_zero_iff.mp same
      subst empty
      simp [accumulate, totalLift, eq_comm]
  | cons arg args ih =>
      cases params with
      | nil => simp at same
      | cons param params =>
          simp only [List.length_cons, Nat.add_right_cancel_iff] at same
          have head := param_weight_iff users arg param
          simp only [List.forall₂_cons, totalLift, List.zipWith_cons_cons, List.sum_cons]
          constructor
          · intro legal
            cases here : paramWeight users arg param with
            | none => simp [accumulate, here] at legal
            | some first =>
                obtain ⟨up, down⟩ := first
                have positive := param_weight_ups users arg param _ here
                simp only [accumulate, here] at legal
                have rest := accumulate_ups users args params _ _ _ legal
                have none : up = 0 := by
                  simp only at rest positive
                  omega
                subst none
                rw [Int.add_zero] at legal
                obtain ⟨accepts, sum⟩ := (ih params same (downs + down)).mp legal
                obtain ⟨accept, lifted⟩ := (head down).mp here
                rw [lifted] at sum
                exact ⟨⟨accept, accepts⟩, by rw [sum, totalLift]; omega⟩
          · rintro ⟨⟨accept, accepts⟩, sum⟩
            have here := (head (lift arg param)).mpr ⟨accept, rfl⟩
            simp only [accumulate, here, Int.add_zero]
            exact (ih params same _).mpr ⟨accepts, by rw [sum, totalLift]; omega⟩

end Pairs

/-- An overloaded function type: its instances have one arity, and the parameter
types of an instance are those of its function definition. -/
structure Overloaded (Val : Type) (arity : Nat) where
  funs : List (FunType Val)
  sameArity : ∀ f ∈ funs, f.params.length = arity
  determined : ∀ f ∈ funs, ∀ g ∈ funs, f.fundef = g.fundef → f.params = g.params

section Choice
variable {Val : Type} [BEq Val] [PartialEquivBEq Val] (users : UserTypes)
  (args : List (ArrayType Val))

/-- No parameter of the instance counts as more special than its argument. -/
def Accepted (f : FunType Val) : Prop :=
  List.Forall₂ (Accepts users) args f.params

/-- The instance counts as an exact match. -/
def Exact (f : FunType Val) : Prop :=
  Accepted users args f ∧ totalLift args f.params = 0

/-- Instances that end with an exact match, or none: the definition they settle
on, and the level that a deriveable instance behind them has to exceed. -/
inductive Settled : List (FunType Val) → Int → Option (Fundef Val) → Prop where
  | none : Settled [] (1 - intMax) none
  | exact (before : List (FunType Val)) (f : FunType Val) :
      Exact users args f → Settled (before ++ [f]) 0 (some f.fundef)

/-- Among instances without an exact match the first one of the greatest level
above `floor` leads. -/
inductive Leads (floor : Int) : List (FunType Val) → Int → Option (Fundef Val) → Prop where
  | none (recent : List (FunType Val)) :
      (∀ g ∈ recent, Accepted users args g → totalLift args g.params ≤ floor) →
      Leads floor recent floor none
  | some (before : List (FunType Val)) (f : FunType Val) (after : List (FunType Val)) :
      Accepted users args f → floor < totalLift args f.params →
      (∀ g ∈ before, Accepted users args g → totalLift args g.params < totalLift args f.params) →
      (∀ g ∈ after, Accepted users args g → totalLift args g.params ≤ totalLift args f.params) →
      Leads floor (before ++ f :: after) (totalLift args f.params) (some f.fundef)

omit [PartialEquivBEq Val] in
theorem leads_level {floor level : Int} {recent : List (FunType Val)}
    {leader : Option (Fundef Val)} (leads : Leads users args floor recent level leader) :
    floor ≤ level ∧ ∀ g ∈ recent, Accepted users args g → totalLift args g.params ≤ level := by
  cases leads with
  | none _ low => exact ⟨Int.le_refl _, low⟩
  | some before f after _ above left right =>
      refine ⟨Int.le_of_lt above, ?_⟩
      intro g member accepted
      rcases List.mem_append.mp member with inBefore | inRest
      · exact Int.le_of_lt (left g inBefore accepted)
      · rcases List.mem_cons.mp inRest with same | inAfter
        · subst same
          exact Int.le_refl _
        · exact right g inAfter accepted

omit [PartialEquivBEq Val] in
/-- An instance that does not lead leaves the leader as it is. -/
theorem leads_snoc {floor level : Int} {recent : List (FunType Val)}
    {leader : Option (Fundef Val)} (leads : Leads users args floor recent level leader)
    (f : FunType Val) (low : Accepted users args f → totalLift args f.params ≤ level) :
    Leads users args floor (recent ++ [f]) level leader := by
  cases leads with
  | none _ below =>
      refine Leads.none _ ?_
      intro g member accepted
      rcases List.mem_append.mp member with old | new
      · exact below g old accepted
      · rw [List.mem_singleton] at new
        subst new
        exact low accepted
  | some before leading after accepted above left right =>
      rw [List.append_assoc, List.cons_append]
      refine Leads.some before leading (after ++ [f]) accepted above left ?_
      intro g member accepts
      rcases List.mem_append.mp member with old | new
      · exact right g old accepts
      · rw [List.mem_singleton] at new
        subst new
        exact low accepts

/-- The choice that the loop makes among the instances, in terms of their types. -/
structure Chooses (funs : List (FunType Val)) (choice : Choice Val) : Prop where
  split : ∃ past recent floor, funs = past ++ recent ∧
    Settled users args past floor choice.definition ∧
    (∀ g ∈ recent, ¬ Exact users args g) ∧
    Leads users args floor recent choice.maxDeriveable choice.deriveable

omit [PartialEquivBEq Val] in
theorem entry_fundef (f : FunType Val) (entry : Entry Val)
    (legal : entryOf users args f = some entry) : entry.fundef = f.fundef := by
  simp only [entryOf, Option.map_eq_some_iff] at legal
  obtain ⟨weight, _, same⟩ := legal
  rw [← same]

theorem entry_iff (f : FunType Val) (same : f.params.length = args.length) (down : Int) :
    entryOf users args f = some ⟨f.fundef, 0, down⟩ ↔
      Accepted users args f ∧ down = totalLift args f.params := by
  have whole := accumulate_iff users args f.params same 0 0 down
  rw [Int.zero_add] at whole
  rw [Accepted, ← whole]
  simp only [entryOf, Option.map_eq_some_iff, Entry.mk.injEq, true_and]
  constructor
  · rintro ⟨⟨up, total⟩, legal, noUps, sum⟩
    simp only at noUps sum
    rw [legal, noUps, sum]
  · intro legal
    exact ⟨(0, down), legal, rfl, rfl⟩

theorem choose_chooses (funs : List (FunType Val))
    (sameArity : ∀ f ∈ funs, f.params.length = args.length) :
    Chooses users args funs (choose (funs.map (entryOf users args))) := by
  induction funs using List.reverseRecOn with
  | nil =>
      exact ⟨[], [], _, rfl, Settled.none, by simp, Leads.none [] (by simp)⟩
  | append_singleton funs f ih =>
      have arity := sameArity f (by simp)
      obtain ⟨past, recent, floor, split, settled, inexact, leads⟩ :=
        (ih fun g member => sameArity g (List.mem_append_left [f] member)).split
      have level := leads_level users args leads
      have weight := entry_iff users args f arity
      rw [List.map_append, List.map_singleton, choose_snoc]
      generalize choose (funs.map (entryOf users args)) = choice at *
      have inexactSnoc (notExact : ¬ Exact users args f) :
          ∀ g ∈ recent ++ [f], ¬ Exact users args g := by
        intro g member
        rcases List.mem_append.mp member with old | new
        · exact inexact g old
        · rw [List.mem_singleton] at new
          subst new
          exact notExact
      -- An instance that is no candidate changes neither the definition nor the leader.
      have passes : ∀ next : Choice Val, next.definition = choice.definition →
          next.maxDeriveable = choice.maxDeriveable → next.deriveable = choice.deriveable →
          (Accepted users args f → totalLift args f.params ≤ choice.maxDeriveable) →
          ¬ Exact users args f → Chooses users args (funs ++ [f]) next := by
        intro next definition maxDeriveable deriveable low notExact
        refine ⟨past, recent ++ [f], floor, by rw [split, List.append_assoc], ?_,
          inexactSnoc notExact, ?_⟩
        · rwa [definition]
        · rw [maxDeriveable, deriveable]
          exact leads_snoc users args leads f low
      cases entry : entryOf users args f with
      | none =>
          have rejected : ¬ Accepted users args f := by
            intro accepted
            have some := (weight _).mpr ⟨accepted, rfl⟩
            rw [entry] at some
            cases some
          exact passes _ rfl rfl rfl (fun accepted => absurd accepted rejected)
            (fun exact => rejected exact.1)
      | some found =>
          obtain ⟨fundef, ups, downs⟩ := found
          have own := entry_fundef users args f _ entry
          simp only at own
          subst own
          by_cases noUps : ups = 0
          · subst noUps
            obtain ⟨accepted, total⟩ := (weight downs).mp entry
            by_cases exact : downs = 0
            · subst exact
              have settled : Settled users args (funs ++ [f]) 0 (some f.fundef) :=
                Settled.exact funs f ⟨accepted, total.symm⟩
              have noLeader : Leads users args 0 [] 0 none := Leads.none [] (by simp)
              refine ⟨funs ++ [f], [], 0, by simp, ?_, by simp, ?_⟩
              · simpa [Choice.enter] using settled
              · simpa [Choice.enter] using noLeader
            · have notExact : ¬ Exact users args f := fun zero => exact (total.trans zero.2)
              by_cases higher : choice.maxDeriveable < downs
              · refine ⟨past, recent ++ [f], floor, by rw [split, List.append_assoc], ?_,
                  inexactSnoc notExact, ?_⟩
                · simpa [Choice.enter, exact, higher] using settled
                · have leading : Leads users args floor (recent ++ [f])
                      (totalLift args f.params) (some f.fundef) := by
                    refine Leads.some recent f [] accepted (by omega) ?_ (by simp)
                    intro g member accepts
                    have below := level.2 g member accepts
                    omega
                  rw [← total] at leading
                  simpa [Choice.enter, exact, higher] using leading
              · refine passes _ ?_ ?_ ?_ (fun _ => by omega) notExact <;>
                  simp [Choice.enter, exact, higher]
          · have rejected : ¬ Accepted users args f := by
              intro accepted
              have some := (weight _).mpr ⟨accepted, rfl⟩
              rw [entry] at some
              simp only [Option.some.injEq, Entry.mk.injEq] at some
              exact noUps some.2.1
            refine passes _ ?_ ?_ ?_ (fun accepted => absurd accepted rejected)
              (fun exact => rejected exact.1) <;>
              simp only [Choice.enter, noUps, ↓reduceIte] <;> split_ifs <;> rfl

omit [PartialEquivBEq Val] in
/-- Nothing behind the last exact match is an exact match, so it is in one place. -/
theorem settled_prefix {past past2 recent recent2 : List (FunType Val)} {floor2 : Int}
    {definition2 : Option (Fundef Val)} (same : past ++ recent = past2 ++ recent2)
    (settled2 : Settled users args past2 floor2 definition2)
    (inexact : ∀ g ∈ recent, ¬ Exact users args g) : past2.length ≤ past.length := by
  cases settled2 with
  | none => simp
  | exact before f exact =>
      by_contra longer
      rcases List.append_eq_append_iff.mp same with ⟨middle, left, right⟩ | ⟨middle, left, right⟩
      · rcases List.eq_nil_or_concat middle with empty | ⟨rest, last, ends⟩
        · subst empty
          rw [List.append_nil] at left
          exact longer (by rw [left])
        · subst ends
          rw [List.concat_eq_append, ← List.append_assoc] at left
          obtain ⟨_, isLast⟩ := List.append_inj' left rfl
          simp only [List.cons.injEq, and_true] at isLast
          subst isLast
          exact inexact f (by rw [right]; simp) exact
      · exact longer (by rw [left]; simp)

omit [PartialEquivBEq Val] in
theorem settled_unique {past past2 recent recent2 : List (FunType Val)} {floor floor2 : Int}
    {definition definition2 : Option (Fundef Val)} (same : past ++ recent = past2 ++ recent2)
    (settled : Settled users args past floor definition)
    (settled2 : Settled users args past2 floor2 definition2)
    (inexact : ∀ g ∈ recent, ¬ Exact users args g)
    (inexact2 : ∀ g ∈ recent2, ¬ Exact users args g) :
    recent = recent2 ∧ floor = floor2 ∧ definition = definition2 := by
  have longer := settled_prefix users args same settled2 inexact
  have shorter := settled_prefix users args same.symm settled inexact2
  obtain ⟨front, back⟩ := List.append_inj same (Nat.le_antisymm shorter longer)
  subst front
  refine ⟨back, ?_⟩
  cases settled with
  | none =>
      generalize empty : ([] : List (FunType Val)) = past at settled2
      cases settled2 with
      | none => exact ⟨rfl, rfl⟩
      | exact before f _ => simp at empty
  | exact before f _ =>
      generalize ends : before ++ [f] = past at settled2
      cases settled2 with
      | none => simp at ends
      | exact before2 f2 _ =>
          obtain ⟨_, isLast⟩ := List.append_inj' ends rfl
          simp only [List.cons.injEq, and_true] at isLast
          exact ⟨rfl, by rw [isLast]⟩

omit [PartialEquivBEq Val] in
theorem leads_unique {floor level level2 : Int} {recent : List (FunType Val)}
    {leader leader2 : Option (Fundef Val)} (leads : Leads users args floor recent level leader)
    (leads2 : Leads users args floor recent level2 leader2) : leader = leader2 := by
  have bound := leads_level users args leads
  have bound2 := leads_level users args leads2
  cases leads with
  | none _ low =>
      cases leads2 with
      | none _ _ => rfl
      | some before f after accepted above _ _ =>
          have under := low f (by simp) accepted
          omega
  | some before f after accepted above left right =>
      generalize whole : before ++ f :: after = recent at leads2
      cases leads2 with
      | none _ low =>
          have under := low f (by rw [← whole]; simp) accepted
          omega
      | some before2 f2 after2 accepted2 above2 left2 right2 =>
          rcases List.append_eq_append_iff.mp whole with
            ⟨middle, front, back⟩ | ⟨middle, front, back⟩
          · cases middle with
            | nil =>
                simp only [List.nil_append, List.cons.injEq] at back
                rw [back.1]
            | cons head rest =>
                simp only [List.cons_append, List.cons.injEq] at back
                have below := left2 f (by rw [front, back.1]; simp) accepted
                have under := right f2 (by rw [back.2]; simp) accepted2
                omega
          · cases middle with
            | nil =>
                simp only [List.nil_append, List.cons.injEq] at back
                rw [back.1]
            | cons head rest =>
                simp only [List.cons_append, List.cons.injEq] at back
                have below := left f2 (by rw [front, back.1]; simp) accepted2
                have under := right2 f (by rw [back.2]; simp) accepted
                omega

/-- The instances that a call is bound to: the last exact match, and the leader
among the instances behind it. -/
def Chosen (funs : List (FunType Val)) (f : FunType Val) : Prop :=
  ∃ past recent floor definition level leader, funs = past ++ recent ∧
    Settled users args past floor definition ∧
    (∀ g ∈ recent, ¬ Exact users args g) ∧
    Leads users args floor recent level leader ∧
    (definition = some f.fundef ∨ leader = some f.fundef)

theorem chosen_iff (funs : List (FunType Val))
    (sameArity : ∀ f ∈ funs, f.params.length = args.length) (f : FunType Val) :
    Chosen users args funs f ↔
      (choose (funs.map (entryOf users args))).definition = some f.fundef ∨
      (choose (funs.map (entryOf users args))).deriveable = some f.fundef := by
  obtain ⟨past, recent, floor, split, settled, inexact, leads⟩ :=
    (choose_chooses users args funs sameArity).split
  constructor
  · rintro ⟨past2, recent2, floor2, definition2, level2, leader2, split2, settled2, inexact2,
      leads2, chosen⟩
    obtain ⟨sameRecent, sameFloor, sameDefinition⟩ :=
      settled_unique users args (split.symm.trans split2) settled settled2 inexact inexact2
    subst sameRecent sameFloor
    rw [sameDefinition, leads_unique users args leads leads2]
    exact chosen
  · intro chosen
    exact ⟨past, recent, floor, _, _, _, split, settled, inexact, leads, chosen⟩

omit [PartialEquivBEq Val] in
/-- A chosen definition is that of an instance whose parameters all accept. -/
theorem chosen_accepted (funs : List (FunType Val)) (f : FunType Val)
    (chosen : Chosen users args funs f) :
    ∃ g ∈ funs, g.fundef = f.fundef ∧ Accepted users args g := by
  obtain ⟨past, recent, floor, definition, level, leader, split, settled, _, leads, bound⟩ := chosen
  rcases bound with isDefinition | isLeader
  · cases settled with
    | none => cases isDefinition
    | exact before g exact =>
        simp only [Option.some.injEq] at isDefinition
        exact ⟨g, by rw [split]; simp, isDefinition, exact.1⟩
  · cases leads with
    | none _ _ => cases isLeader
    | some before g after accepted _ _ _ =>
        simp only [Option.some.injEq] at isLeader
        exact ⟨g, by rw [split]; simp, isLeader, accepted⟩

end Choice

section Soundness
variable {Val : Type} [BEq Val] (users : UserTypes)

theorem misjudged_not_le (arg param : ArrayType Val) (wrong : Misjudged users arg param) :
    leTypes users arg param = false := by
  obtain ⟨_, ⟨_, _, le⟩ | ⟨scalar, array, notAud⟩ | ⟨base, base2, isAud, isAudgz⟩⟩ := wrong
  · exact le
  · cases le : leTypes users arg param with
    | false => rfl
    | true =>
        obtain ⟨base, aud⟩ := above_scalar users scalar array le
        exact absurd aud (notAud base)
  · subst isAud isAudgz
    simp only [leTypes, cmpTypes, cmpSameBase]
    split_ifs
    rfl

/-- A call is only bound to definitions that accept all values of its argument
types. -/
def SoundDispatch {arity : Nat} (overloaded : Overloaded Val arity)
    (args : List (ArrayType Val)) : Prop :=
  ∀ uninitialised res,
    dispatchFunType users uninitialised overloaded.funs args = .ok (some res) →
    ∀ f ∈ overloaded.funs, (res.definition = some f.fundef ∨ res.deriveable = some f.fundef) →
      List.Forall₂ (fun arg param => leTypes users arg param = true) args f.params

/-- No pair of a chosen instance is misjudged. -/
def WellJudged {arity : Nat} (overloaded : Overloaded Val arity)
    (args : List (ArrayType Val)) : Prop :=
  ∀ f ∈ overloaded.funs, Chosen users args overloaded.funs f →
    List.Forall₂ (fun arg param => ¬ Misjudged users arg param) args f.params

/-- A call is bound soundly exactly if no parameter of the instances it is bound
to was misjudged. -/
theorem sound_iff_well_judged [PartialEquivBEq Val] {arity : Nat}
    (overloaded : Overloaded Val arity) (args : List (ArrayType Val))
    (length : args.length = arity) (someArg : 1 ≤ arity) :
    SoundDispatch users overloaded args ↔ WellJudged users overloaded args := by
  have sameArity : ∀ f ∈ overloaded.funs, f.params.length = args.length :=
    fun f member => (overloaded.sameArity f member).trans length.symm
  have chosen := chosen_iff users args overloaded.funs sameArity
  constructor
  · intro sound f member isChosen
    obtain ⟨type, found⟩ :=
      dispatch_found users overloaded.funs args (by omega) sameArity
    have below := sound _ _ found f member ((chosen f).mp isChosen)
    refine below.imp ?_
    intro arg param le wrong
    rw [misjudged_not_le users arg param wrong] at le
    cases le
  · intro judged uninitialised res found f member bound
    obtain ⟨type, same⟩ :=
      dispatch_result users uninitialised overloaded.funs args sameArity res found
    subst same
    have isChosen := (chosen f).mpr bound
    obtain ⟨g, inFuns, sameFundef, accepted⟩ :=
      chosen_accepted users args overloaded.funs f isChosen
    unfold Accepted at accepted
    rw [overloaded.determined g inFuns f member sameFundef] at accepted
    have right := judged f member isChosen
    -- Each pair is accepted and not misjudged, so the parameter is above the argument.
    rw [List.forall₂_iff_get] at accepted right ⊢
    refine ⟨accepted.1, ?_⟩
    intro index inArgs inParams
    rcases accepted.2 index inArgs inParams with le | wrong
    · exact le
    · exact absurd wrong (right.2 index inArgs inParams)

/-- An overloaded function with a single instance of one parameter. -/
def oneInstance (param : ArrayType Int) : Overloaded Int 1 :=
  { funs := [createFuntype [] { id := 0, args := [param] }]
    sameArity := by simp [createFuntype, makeFunType]
    determined := by
      intro f inF g inG _
      rw [List.mem_singleton] at inF inG
      rw [inF, inG] }

/-- A vector of three integers for a parameter of type int[*]. -/
theorem sound_iff_well_judged_vector :
    SoundDispatch noAliases (oneInstance (.aud intScalar)) [.aks intScalar [3]] := by
  refine (sound_iff_well_judged noAliases (oneInstance (.aud intScalar))
    [.aks intScalar [3]] rfl (by decide)).mpr ?_
  intro f member _
  simp only [oneInstance, List.mem_singleton] at member
  subst member
  simp [createFuntype, makeFunType, eliminateAkv, Misjudged, isScalar, ArrayType.getDim]

/-- An integer scalar is bound to an instance for int[+], which only accepts
arrays that are not scalars. -/
theorem scalar_bound_to_audgz :
    ¬ SoundDispatch noAliases (oneInstance (.audgz intScalar)) [.aks intScalar []] := by
  intro sound
  have below := sound none _ rfl _ (List.mem_singleton_self _) (Or.inr rfl)
  simp [createFuntype, makeFunType, eliminateAkv, leTypes, cmpTypes, cmpSameBase] at below
  split_ifs at below <;> simp at below

end Soundness

end Sac2c.DispatchSoundness
