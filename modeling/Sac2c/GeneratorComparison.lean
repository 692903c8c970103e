import Mathlib.Data.Int.Notation
import Mathlib.Data.List.Forall2
import Mathlib.Data.Set.Basic
import Mathlib.Tactic.Common

/-!
With-loops are fused where CompGenSon and RESULT_GEN_PROP of arrayopt/WithloopFusion.c find
their generators equal. Bounds, steps and widths are N_arrays of N_nums and N_ids.
-/

namespace Sac2c.GeneratorComparison

section Model

variable {Name : Type}

/-- An element of a bound, step or width vector. -/
inductive Elem (Name : Type) where
  | num (val : Int)
  | id (name : Name)

/-- gen_property_t. -/
inductive GenProperty where
  | genEqual
  | genEqualVar
  | genConstant
  | genVariable
  | genDiffdim
  deriving DecidableEq

def Elem.isNum : Elem Name → Bool
  | num _ => true
  | id _ => false

/-- N_generator. -/
structure Generator (Name : Type) where
  bound1 : List (Elem Name)
  bound2 : List (Elem Name)
  step : Option (List (Elem Name))
  width : Option (List (Elem Name))

/-- The four vectors of two generators side by side. -/
def Generator.vectors (gen1 gen2 : Generator Name) :
    List (Option (List (Elem Name)) × Option (List (Elem Name))) :=
  [(some gen1.bound1, some gen2.bound1), (some gen1.bound2, some gen2.bound2),
    (gen1.step, gen2.step), (gen1.width, gen2.width)]

variable [DecidableEq Name]

/-- `gen_prob` after one pair of elements. -/
def elemProperty (genProb : GenProperty) : Elem Name → Elem Name → GenProperty
  | .num val1, .num val2 =>
      if val1 ≠ val2 ∧ genProb = .genEqual then .genConstant else genProb
  | .id name1, .id name2 =>
      if name1 = name2 then
        match genProb with
        | .genEqual => .genEqualVar
        | .genConstant => .genVariable
        | genProb => genProb
      else .genVariable
  | _, _ => .genVariable

/-- The loop over both vectors. -/
def compElems : GenProperty → List (Elem Name) → List (Elem Name) → GenProperty
  | genProb, elem1 :: elems1, elem2 :: elems2 =>
      compElems (elemProperty genProb elem1 elem2) elems1 elems2
  | genProb, [], [] => genProb
  | _, _, _ => .genDiffdim

/-- The loop over the vector that is there when the other one is NULL. -/
def compAbsent : GenProperty → List (Elem Name) → GenProperty
  | genProb, [] => genProb
  | genProb, .num _ :: elems => compAbsent (if genProb = .genEqual then .genConstant else genProb) elems
  | _, .id _ :: _ => .genVariable

def compGenSon : Option (List (Elem Name)) → Option (List (Elem Name)) → GenProperty
  | none, none => .genEqual
  | some elems, none => compAbsent .genEqual elems
  | none, some elems => compAbsent .genEqual elems
  | some elems1, some elems2 => compElems .genEqual elems1 elems2

/-- RESULT_GEN_PROP. -/
def resultGenProp (genProb genProbRet : GenProperty) : GenProperty :=
  if genProb = .genEqual then genProbRet
  else if genProbRet = .genVariable then genProbRet
  else if genProb = .genConstant ∧ genProbRet = .genEqualVar then .genVariable
  else if genProb = .genEqualVar ∧ genProbRet = .genConstant then .genVariable
  else genProb

/-- The comparison of two generators, in FindFittingPart and in WLFSgenerator. -/
def compGenerators (pattern gen : Generator Name) : GenProperty :=
  let genProb := compGenSon (some pattern.bound1) (some gen.bound1)
  let genProb := resultGenProp genProb (compGenSon (some pattern.bound2) (some gen.bound2))
  let genProb := resultGenProp genProb (compGenSon pattern.step gen.step)
  resultGenProp genProb (compGenSon pattern.width gen.width)

/-- The part of the list whose generator is taken for equal to the pattern. -/
def findFittingPart {Part : Type} (generator : Part → Generator Name) (pattern : Generator Name) :
    List Part → Option Part
  | [] => none
  | part :: parts =>
      let genProb := compGenerators pattern (generator part)
      if genProb = .genEqual ∨ genProb = .genEqualVar then some part
      else findFittingPart generator pattern parts

end Model

section IndexSets

variable {Name : Type}

def Elem.value (val : Name → Int) : Elem Name → Int
  | num n => n
  | id name => val name

/-- The value in dimension `d`. -/
def valueAt (val : Name → Int) (vector : List (Elem Name)) (d : Nat) : Option Int :=
  (vector[d]?).map (Elem.value val)

/-- A vector that is not there counts as ones. -/
def orOnes (val : Name → Int) (vector : Option (List (Elem Name))) (d : Nat) : Int :=
  match vector with
  | none => 1
  | some vector => (valueAt val vector d).getD 1

namespace Generator

variable (gen : Generator Name) (val : Name → Int)

/-- All vectors have the length of the lower bound. -/
def Fits : Prop :=
  gen.bound2.length = gen.bound1.length ∧
    (∀ step, gen.step = some step → step.length = gen.bound1.length) ∧
    ∀ width, gen.width = some width → width.length = gen.bound1.length

/-- The indices in one dimension. -/
def dimension (d : Nat) : Set Int :=
  {i | (∃ lb, valueAt val gen.bound1 d = some lb ∧ lb ≤ i ∧
        (i - lb) % orOnes val gen.step d < orOnes val gen.width d) ∧
      ∃ ub, valueAt val gen.bound2 d = some ub ∧ i < ub}

/-- The index vectors of a generator; vectors of different lengths have none. -/
def indexSet : Set (List Int) :=
  {iv | gen.Fits ∧ iv.length = gen.bound1.length ∧
    ∀ d i, iv[d]? = some i → i ∈ gen.dimension val d}

end Generator

end IndexSets

section Differences

variable {Name : Type}

/-- Two numbers, or the same identifier. -/
inductive Matches : Elem Name → Elem Name → Prop
  | num (val1 val2 : Int) : Matches (.num val1) (.num val2)
  | id (name : Name) : Matches (.id name) (.id name)

/-- The same numbers up to an identifier, and no difference but of numbers after it. -/
inductive Identified : List (Elem Name) → List (Elem Name) → Prop
  | id {elems1 elems2 : List (Elem Name)} (name : Name) (rest : List.Forall₂ Matches elems1 elems2) :
      Identified (.id name :: elems1) (.id name :: elems2)
  | num {elems1 elems2 : List (Elem Name)} (val : Int) (rest : Identified elems1 elems2) :
      Identified (.num val :: elems1) (.num val :: elems2)

@[simp]
theorem matches_num {val1 val2 : Int} : Matches (.num val1 : Elem Name) (.num val2) := .num val1 val2

@[simp]
theorem matches_id {name1 name2 : Name} : Matches (.id name1) (.id name2) ↔ name1 = name2 := by
  constructor
  · intro matching
    cases matching
    rfl
  · rintro rfl
    exact .id name1

@[simp]
theorem matches_num_id {val : Int} {name : Name} :
    ¬ Matches (.num val) (.id name) ∧ ¬ Matches (.id name) (.num val) := by
  constructor
  · intro matching
    cases matching
  · intro matching
    cases matching

variable {elems1 elems2 : List (Elem Name)}

@[simp]
theorem identified_nil {elems : List (Elem Name)} :
    ¬ Identified [] elems ∧ ¬ Identified elems [] := by
  constructor
  · intro identified
    cases identified
  · intro identified
    cases identified

@[simp]
theorem identified_num {val1 val2 : Int} :
    Identified (.num val1 :: elems1) (.num val2 :: elems2) ↔
      val1 = val2 ∧ Identified elems1 elems2 := by
  constructor
  · intro identified
    cases identified with
    | num _ rest => exact ⟨rfl, rest⟩
  · rintro ⟨rfl, rest⟩
    exact .num val1 rest

@[simp]
theorem identified_id {name1 name2 : Name} :
    Identified (.id name1 :: elems1) (.id name2 :: elems2) ↔
      name1 = name2 ∧ List.Forall₂ Matches elems1 elems2 := by
  constructor
  · intro identified
    cases identified with
    | id _ rest => exact ⟨rfl, rest⟩
  · rintro ⟨rfl, rest⟩
    exact .id name1 rest

@[simp]
theorem identified_num_id {val : Int} {name : Name} :
    ¬ Identified (.num val :: elems1) (.id name :: elems2) ∧
      ¬ Identified (.id name :: elems1) (.num val :: elems2) := by
  constructor
  · intro identified
    cases identified
  · intro identified
    cases identified

/-- The same numbers, or no elements. -/
def SameNumbers : Option (List (Elem Name)) → Option (List (Elem Name)) → Prop
  | none, none => True
  | some elems, none => elems = []
  | none, some elems => elems = []
  | some elems1, some elems2 => elems1 = elems2 ∧ ∀ elem ∈ elems1, elem.isNum

/-- Both vectors are there, as `relation` says. -/
def Both (relation : List (Elem Name) → List (Elem Name) → Prop)
    (vectors : Option (List (Elem Name)) × Option (List (Elem Name))) : Prop :=
  ∃ elems1 elems2, vectors = (some elems1, some elems2) ∧ relation elems1 elems2

/-- Vectors with the same numbers, and then vectors with a common identifier: neither a number
after it nor another length of a later vector is noticed. -/
inductive Agreeing : List (Option (List (Elem Name)) × Option (List (Elem Name))) → Prop
  | nil : Agreeing []
  | numbers {vectors : Option (List (Elem Name)) × Option (List (Elem Name))}
      {rest : List (Option (List (Elem Name)) × Option (List (Elem Name)))}
      (same : SameNumbers vectors.1 vectors.2) (agree : Agreeing rest) : Agreeing (vectors :: rest)
  | identified {vectors : Option (List (Elem Name)) × Option (List (Elem Name))}
      {rest : List (Option (List (Elem Name)) × Option (List (Elem Name)))}
      (same : Both Identified vectors)
      (later : ∀ vectors ∈ rest, SameNumbers vectors.1 vectors.2 ∨ Both Identified vectors ∨
        Both (fun elems1 elems2 => elems1.length ≠ elems2.length) vectors) :
      Agreeing (vectors :: rest)

/-- A vector has different numbers in dimension `d`. -/
def NumbersDiffer (gen1 gen2 : Generator Name) (d : Nat) : Prop :=
  ∃ elems1 elems2 val1 val2, (some elems1, some elems2) ∈ gen1.vectors gen2 ∧
    elems1[d]? = some (.num val1) ∧ elems2[d]? = some (.num val2) ∧ val1 ≠ val2

/-- The vectors agree as far as they are compared, and under some valuation the lengths of only
one generator fit or a dimension with different numbers has different indices. -/
def Overlooked (gen1 gen2 : Generator Name) : Prop :=
  Agreeing (gen1.vectors gen2) ∧
    ∃ val, ((gen1.indexSet val).Nonempty ∨ (gen2.indexSet val).Nonempty) ∧
      (¬ (gen1.Fits ↔ gen2.Fits) ∨
        ∃ d, NumbersDiffer gen1 gen2 d ∧ gen1.dimension val d ≠ gen2.dimension val d)

end Differences

section Verdicts

variable {Name : Type}

theorem comp_absent_constant (elems : List (Elem Name)) :
    compAbsent .genConstant elems = .genConstant ∨ compAbsent .genConstant elems = .genVariable := by
  induction elems with
  | nil => exact .inl rfl
  | cons elem elems ih =>
      cases elem with
      | num val => exact ih
      | id name => exact .inr rfl

theorem comp_absent_cases (elems : List (Elem Name)) :
    (compAbsent .genEqual elems = .genEqual ∧ elems = []) ∨
      ((compAbsent .genEqual elems = .genConstant ∨ compAbsent .genEqual elems = .genVariable) ∧
        elems ≠ []) := by
  cases elems with
  | nil => exact .inl ⟨rfl, rfl⟩
  | cons elem elems =>
      cases elem with
      | num val => exact .inr ⟨comp_absent_constant elems, by simp⟩
      | id name => exact .inr ⟨.inr rfl, by simp⟩

/-- Vectors that are both there, of different lengths. -/
def LengthsDiffer (vectors : Option (List (Elem Name)) × Option (List (Elem Name))) : Prop :=
  Both (fun elems1 elems2 => elems1.length ≠ elems2.length) vectors

theorem both_some {relation : List (Elem Name) → List (Elem Name) → Prop}
    (elems1 elems2 : List (Elem Name)) :
    Both relation (some elems1, some elems2) ↔ relation elems1 elems2 := by
  constructor
  · rintro ⟨_, _, same, related⟩
    cases same
    exact related
  · exact fun related => ⟨_, _, rfl, related⟩

theorem both_none (relation : List (Elem Name) → List (Elem Name) → Prop)
    (vector : Option (List (Elem Name))) :
    ¬ Both relation (none, vector) ∧ ¬ Both relation (vector, none) := by
  constructor
  · rintro ⟨_, _, same, _⟩
    cases same
  · rintro ⟨_, _, same, _⟩
    cases same

variable [DecidableEq Name]

/-- A verdict for which FindFittingPart takes a generator. -/
def Accepted (genProb : GenProperty) : Prop := genProb = .genEqual ∨ genProb = .genEqualVar

/-- A difference that has been noticed is kept. -/
theorem comp_elems_noticed {genProb : GenProperty}
    (noticed : genProb = .genConstant ∨ genProb = .genVariable) (elems1 elems2 : List (Elem Name)) :
    ¬ Accepted (compElems genProb elems1 elems2) := by
  induction elems1 generalizing genProb elems2 with
  | nil =>
      cases elems2 with
      | nil => rcases noticed with rfl | rfl <;> simp [compElems, Accepted]
      | cons elem2 elems2 => simp [compElems, Accepted]
  | cons elem1 elems1 ih =>
      cases elems2 with
      | nil => simp [compElems, Accepted]
      | cons elem2 elems2 =>
          rw [compElems]
          apply ih
          rcases noticed with rfl | rfl <;> cases elem1 <;> cases elem2 <;> simp [elemProperty]

theorem comp_elems_lengths (genProb : GenProperty) {elems1 elems2 : List (Elem Name)}
    (lengths : elems1.length ≠ elems2.length) : compElems genProb elems1 elems2 = .genDiffdim := by
  induction elems1 generalizing genProb elems2 with
  | nil =>
      cases elems2 with
      | nil => exact absurd rfl lengths
      | cons elem2 elems2 => rfl
  | cons elem1 elems1 ih =>
      cases elems2 with
      | nil => rfl
      | cons elem2 elems2 => exact ih _ (by simpa using lengths)

/-- After a common identifier only identifiers are compared. -/
theorem comp_elems_equal_var (elems1 elems2 : List (Elem Name)) :
    Accepted (compElems .genEqualVar elems1 elems2) ↔ List.Forall₂ Matches elems1 elems2 := by
  induction elems1 generalizing elems2 with
  | nil =>
      cases elems2 with
      | nil => simp [compElems, Accepted]
      | cons elem2 elems2 => simp [compElems, Accepted]
  | cons elem1 elems1 ih =>
      cases elems2 with
      | nil => simp [compElems, Accepted]
      | cons elem2 elems2 =>
          rw [compElems, List.forall₂_cons]
          cases elem1 with
          | num val1 =>
              cases elem2 with
              | num val2 => simp [elemProperty, ih]
              | id name2 => simp [elemProperty, comp_elems_noticed]
          | id name1 =>
              cases elem2 with
              | num val2 => simp [elemProperty, comp_elems_noticed]
              | id name2 =>
                  by_cases same : name1 = name2
                  · simp [elemProperty, same, ih]
                  · simp [elemProperty, same, comp_elems_noticed]

theorem comp_elems_equal_var_ne (elems1 elems2 : List (Elem Name)) :
    compElems .genEqualVar elems1 elems2 ≠ .genEqual := by
  induction elems1 generalizing elems2 with
  | nil => cases elems2 <;> simp [compElems]
  | cons elem1 elems1 ih =>
      cases elems2 with
      | nil => simp [compElems]
      | cons elem2 elems2 =>
          rw [compElems]
          have kept : elemProperty .genEqualVar elem1 elem2 = .genEqualVar ∨
              elemProperty .genEqualVar elem1 elem2 = .genVariable := by
            cases elem1 <;> cases elem2 <;> simp [elemProperty, em]
          rcases kept with same | noticed
          · rw [same]
            exact ih elems2
          · rw [noticed]
            intro equal
            exact comp_elems_noticed (.inr rfl) elems1 elems2 (.inl equal)

theorem comp_elems_equal (elems1 elems2 : List (Elem Name)) :
    (compElems .genEqual elems1 elems2 = .genEqual ↔ SameNumbers (some elems1) (some elems2)) ∧
      (compElems .genEqual elems1 elems2 = .genEqualVar ↔ Identified elems1 elems2) := by
  have rejected : ∀ {genProb : GenProperty} {elems1 elems2 : List (Elem Name)},
      genProb = .genConstant ∨ genProb = .genVariable →
        ¬ compElems genProb elems1 elems2 = .genEqual ∧ ¬ compElems genProb elems1 elems2 = .genEqualVar :=
    fun noticed => ⟨fun equal => comp_elems_noticed noticed _ _ (.inl equal),
      fun equalVar => comp_elems_noticed noticed _ _ (.inr equalVar)⟩
  induction elems1 generalizing elems2 with
  | nil =>
      cases elems2 with
      | nil => simp [compElems, SameNumbers]
      | cons elem2 elems2 => simp [compElems, SameNumbers]
  | cons elem1 elems1 ih =>
      cases elems2 with
      | nil => simp [compElems, SameNumbers]
      | cons elem2 elems2 =>
          rw [compElems]
          cases elem1 with
          | num val1 =>
              cases elem2 with
              | num val2 =>
                  by_cases same : val1 = val2
                  · simpa [elemProperty, same, SameNumbers, Elem.isNum] using ih elems2
                  · simp [elemProperty, same, SameNumbers, rejected]
              | id name2 => simp [elemProperty, SameNumbers, rejected]
          | id name1 =>
              cases elem2 with
              | num val2 => simp [elemProperty, SameNumbers, rejected]
              | id name2 =>
                  by_cases same : name1 = name2
                  · have never := comp_elems_equal_var_ne elems1 elems2
                    have matching := comp_elems_equal_var elems1 elems2
                    simp only [Accepted, never, false_or] at matching
                    simp [elemProperty, same, SameNumbers, Elem.isNum, never, matching]
                  · simp [elemProperty, same, SameNumbers, rejected]

theorem elem_property_ne {genProb : GenProperty} (start : genProb ≠ .genDiffdim)
    (elem1 elem2 : Elem Name) : elemProperty genProb elem1 elem2 ≠ .genDiffdim := by
  cases elem1 with
  | num val1 =>
      cases elem2 with
      | num val2 =>
          simp only [elemProperty]
          split
          · simp
          · exact start
      | id name2 => simp [elemProperty]
  | id name1 =>
      cases elem2 with
      | num val2 => simp [elemProperty]
      | id name2 =>
          by_cases same : name1 = name2
          · cases genProb <;> simp [elemProperty, same] at start ⊢
          · simp [elemProperty, same]

theorem comp_elems_diffdim {genProb : GenProperty} (elems1 elems2 : List (Elem Name))
    (start : genProb ≠ .genDiffdim) :
    compElems genProb elems1 elems2 = .genDiffdim ↔ elems1.length ≠ elems2.length := by
  constructor
  · intro diffdim lengths
    induction elems1 generalizing genProb elems2 with
    | nil =>
        cases elems2 with
        | nil => exact start diffdim
        | cons elem2 elems2 => simp at lengths
    | cons elem1 elems1 ih =>
        cases elems2 with
        | nil => simp at lengths
        | cons elem2 elems2 =>
            exact ih elems2 (elem_property_ne start elem1 elem2) diffdim (by simpa using lengths)
  · exact comp_elems_lengths genProb

/-- What the verdict on two vectors says of them. -/
theorem comp_gen_son_verdict
    (vectors : Option (List (Elem Name)) × Option (List (Elem Name))) :
    (compGenSon vectors.1 vectors.2 = .genEqual ↔ SameNumbers vectors.1 vectors.2) ∧
      (compGenSon vectors.1 vectors.2 = .genEqualVar ↔ Both Identified vectors) ∧
      (compGenSon vectors.1 vectors.2 = .genDiffdim ↔ LengthsDiffer vectors) := by
  obtain ⟨vector1, vector2⟩ := vectors
  cases vector1 with
  | none =>
      have absent := fun relation : List (Elem Name) → List (Elem Name) → Prop =>
        (both_none relation vector2).1
      cases vector2 with
      | none => simp [compGenSon, SameNumbers, LengthsDiffer, absent]
      | some elems =>
          rcases comp_absent_cases elems with ⟨equal, empty⟩ | ⟨differ, nonempty⟩
          · subst empty
            simp [compGenSon, SameNumbers, LengthsDiffer, absent, equal]
          · rcases differ with verdict | verdict <;>
              simp [compGenSon, SameNumbers, LengthsDiffer, absent, verdict, nonempty]
  | some elems1 =>
      cases vector2 with
      | none =>
          have absent := fun relation : List (Elem Name) → List (Elem Name) → Prop =>
            (both_none relation (some elems1)).2
          rcases comp_absent_cases elems1 with ⟨equal, empty⟩ | ⟨differ, nonempty⟩
          · subst empty
            simp [compGenSon, SameNumbers, LengthsDiffer, absent, equal]
          · rcases differ with verdict | verdict <;>
              simp [compGenSon, SameNumbers, LengthsDiffer, absent, verdict, nonempty]
      | some elems2 =>
          simp only [LengthsDiffer, both_some]
          exact ⟨(comp_elems_equal elems1 elems2).1, (comp_elems_equal elems1 elems2).2,
            comp_elems_diffdim elems1 elems2 (by simp)⟩

/-- RESULT_GEN_PROP over several vectors. -/
def combined (genProb : GenProperty)
    (vectors : List (Option (List (Elem Name)) × Option (List (Elem Name)))) : GenProperty :=
  vectors.foldl (fun genProb v => resultGenProp genProb (compGenSon v.1 v.2)) genProb

theorem comp_generators_eq (gen1 gen2 : Generator Name) :
    compGenerators gen1 gen2 = combined .genEqual (gen1.vectors gen2) := rfl

theorem result_noticed {genProb : GenProperty} (noticed : ¬ Accepted genProb)
    (genProbRet : GenProperty) : ¬ Accepted (resultGenProp genProb genProbRet) := by
  cases genProb with
  | genEqual => exact absurd (.inl rfl) noticed
  | genEqualVar => exact absurd (.inr rfl) noticed
  | genConstant => cases genProbRet <;> simp [resultGenProp, Accepted]
  | genVariable => cases genProbRet <;> simp [resultGenProp, Accepted]
  | genDiffdim => cases genProbRet <;> simp [resultGenProp, Accepted]

theorem combined_noticed {genProb : GenProperty} (noticed : ¬ Accepted genProb)
    (vectors : List (Option (List (Elem Name)) × Option (List (Elem Name)))) :
    ¬ Accepted (combined genProb vectors) := by
  induction vectors generalizing genProb with
  | nil => exact noticed
  | cons pair vectors ih => exact ih (result_noticed noticed _)

/-- Behind a common identifier a vector is taken unless it has noticed a difference of elements. -/
theorem combined_equal_var
    (vectors : List (Option (List (Elem Name)) × Option (List (Elem Name)))) :
    Accepted (combined .genEqualVar vectors) ↔ ∀ pair ∈ vectors,
      SameNumbers pair.1 pair.2 ∨ Both Identified pair ∨ LengthsDiffer pair := by
  induction vectors with
  | nil => simp [combined, Accepted]
  | cons pair vectors ih =>
      obtain ⟨equal, equalVar, diffdim⟩ := comp_gen_son_verdict pair
      rw [List.forall_mem_cons, ← ih, ← equal, ← equalVar, ← diffdim]
      show Accepted (combined (resultGenProp .genEqualVar (compGenSon pair.1 pair.2)) vectors) ↔ _
      have constant : ¬ Accepted (combined .genVariable vectors) :=
        combined_noticed (by simp [Accepted]) vectors
      cases compGenSon pair.1 pair.2 <;> simp [resultGenProp, constant]

theorem combined_equal
    (vectors : List (Option (List (Elem Name)) × Option (List (Elem Name)))) :
    Accepted (combined .genEqual vectors) ↔ Agreeing vectors := by
  induction vectors with
  | nil => simp [combined, Accepted, Agreeing.nil]
  | cons pair vectors ih =>
      obtain ⟨equal, equalVar, _⟩ := comp_gen_son_verdict pair
      show Accepted (combined (compGenSon pair.1 pair.2) vectors) ↔ _
      constructor
      · intro accepted
        cases verdict : compGenSon pair.1 pair.2 with
        | genEqual =>
            rw [verdict] at accepted
            exact .numbers (equal.mp verdict) (ih.mp accepted)
        | genEqualVar =>
            rw [verdict] at accepted
            exact .identified (equalVar.mp verdict) ((combined_equal_var vectors).mp accepted)
        | genConstant => exact absurd accepted (combined_noticed (by simp [verdict, Accepted]) vectors)
        | genVariable => exact absurd accepted (combined_noticed (by simp [verdict, Accepted]) vectors)
        | genDiffdim => exact absurd accepted (combined_noticed (by simp [verdict, Accepted]) vectors)
      · intro agreeing
        cases agreeing with
        | numbers same agree =>
            rw [equal.mpr same]
            exact ih.mpr agree
        | identified same later =>
            rw [equalVar.mpr same]
            exact (combined_equal_var vectors).mpr later

theorem accepted_iff (gen1 gen2 : Generator Name) :
    Accepted (compGenerators gen1 gen2) ↔ Agreeing (gen1.vectors gen2) := by
  rw [comp_generators_eq]
  exact combined_equal _

theorem find_fitting_part_accepted {Part : Type} (generator : Part → Generator Name)
    (pattern : Generator Name) (parts : List Part) {part : Part}
    (found : findFittingPart generator pattern parts = some part) :
    part ∈ parts ∧ Accepted (compGenerators pattern (generator part)) := by
  induction parts with
  | nil => cases found
  | cons first parts ih =>
      rw [findFittingPart] at found
      split at found
      · rename_i accepted
        cases found
        exact ⟨List.mem_cons_self, accepted⟩
      · exact ⟨List.mem_cons_of_mem _ (ih found).1, (ih found).2⟩

end Verdicts

section Agreement

variable {Name : Type} {gen1 gen2 : Generator Name} {val : Name → Int} {d : Nat}

theorem identified_matches {elems1 elems2 : List (Elem Name)}
    (identified : Identified elems1 elems2) : List.Forall₂ Matches elems1 elems2 := by
  induction identified with
  | id name rest => exact .cons (.id name) rest
  | num n rest ih => exact .cons (.num n n) ih

/-- Elements that match have the same value but for different numbers. -/
theorem matches_value {elems1 elems2 : List (Elem Name)}
    (matching : List.Forall₂ Matches elems1 elems2)
    (same : ∀ val1 val2, elems1[d]? = some (.num val1) → elems2[d]? = some (.num val2) →
      val1 = val2) : valueAt val elems1 d = valueAt val elems2 d := by
  induction matching generalizing d with
  | nil => rfl
  | @cons elem1 elem2 elems1 elems2 first rest ih =>
      cases d with
      | zero =>
          cases first with
          | num val1 val2 => rw [same val1 val2 rfl rfl]; rfl
          | id name => rfl
      | succ d => exact ih same

theorem lists_value {elems1 elems2 : List (Elem Name)}
    (agree : SameNumbers (some elems1) (some elems2) ∨ Both Identified (some elems1, some elems2))
    (same : ∀ val1 val2, elems1[d]? = some (.num val1) → elems2[d]? = some (.num val2) →
      val1 = val2) : valueAt val elems1 d = valueAt val elems2 d := by
  rcases agree with numbers | both
  · rw [numbers.1]
  · exact matches_value (identified_matches ((both_some _ _).mp both)) same

/-- In a dimension without different numbers agreeing vectors have the same value. -/
theorem vectors_value {vector1 vector2 : Option (List (Elem Name))}
    (agree : SameNumbers vector1 vector2 ∨ Both Identified (vector1, vector2))
    (same : ∀ elems1 elems2 val1 val2, vector1 = some elems1 → vector2 = some elems2 →
      elems1[d]? = some (.num val1) → elems2[d]? = some (.num val2) → val1 = val2) :
    orOnes val vector1 d = orOnes val vector2 d := by
  cases vector1 with
  | none =>
      cases vector2 with
      | none => rfl
      | some elems2 =>
          rcases agree with empty | both
          · rw [show elems2 = [] from empty]
            rfl
          · exact absurd both (both_none _ _).1
  | some elems1 =>
      cases vector2 with
      | none =>
          rcases agree with empty | both
          · rw [show elems1 = [] from empty]
            rfl
          · exact absurd both (both_none _ _).2
      | some elems2 =>
          simp only [orOnes]
          rw [lists_value agree fun val1 val2 => same elems1 elems2 val1 val2 rfl rfl]

theorem agreeing_pairs {vectors : List (Option (List (Elem Name)) × Option (List (Elem Name)))}
    (agree : Agreeing vectors) : ∀ pair ∈ vectors,
      SameNumbers pair.1 pair.2 ∨ Both Identified pair ∨ LengthsDiffer pair := by
  induction agree with
  | nil => simp
  | numbers same agree ih => exact List.forall_mem_cons.mpr ⟨.inl same, ih⟩
  | identified same later => exact List.forall_mem_cons.mpr ⟨.inr (.inl same), later⟩

theorem agreeing_rank (agree : Agreeing (gen1.vectors gen2)) :
    gen1.bound1.length = gen2.bound1.length := by
  cases agree with
  | numbers same _ => rw [same.1]
  | identified same _ => exact (identified_matches ((both_some _ _).mp same)).length_eq

theorem vector_fits {gen : Generator Name} (fits : gen.Fits) {elems : List (Elem Name)}
    (vector : some elems = some gen.bound1 ∨ some elems = some gen.bound2 ∨
      some elems = gen.step ∨ some elems = gen.width) : elems.length = gen.bound1.length := by
  rcases vector with first | second | step | width
  · cases first
    rfl
  · cases second
    exact fits.1
  · exact fits.2.1 elems step.symm
  · exact fits.2.2 elems width.symm

theorem vectors_of_mem {elems1 elems2 : Option (List (Elem Name))}
    (mem : (elems1, elems2) ∈ gen1.vectors gen2) :
    (elems1 = some gen1.bound1 ∨ elems1 = some gen1.bound2 ∨ elems1 = gen1.step ∨
        elems1 = gen1.width) ∧
      (elems2 = some gen2.bound1 ∨ elems2 = some gen2.bound2 ∨ elems2 = gen2.step ∨
        elems2 = gen2.width) := by
  simp only [Generator.vectors, List.mem_cons, List.not_mem_nil, or_false, Prod.mk.injEq] at mem
  rcases mem with ⟨rfl, rfl⟩ | ⟨rfl, rfl⟩ | ⟨rfl, rfl⟩ | ⟨rfl, rfl⟩ <;> simp

/-- Where both generators fit, no vector was taken for its length alone. -/
theorem agreeing_fits (agree : Agreeing (gen1.vectors gen2)) (fits1 : gen1.Fits)
    (fits2 : gen2.Fits) {pair : Option (List (Elem Name)) × Option (List (Elem Name))}
    (mem : pair ∈ gen1.vectors gen2) : SameNumbers pair.1 pair.2 ∨ Both Identified pair := by
  rcases agreeing_pairs agree pair mem with same | identified | ⟨elems1, elems2, rfl, lengths⟩
  · exact .inl same
  · exact .inr identified
  · have vectors := vectors_of_mem mem
    rw [vector_fits fits1 vectors.1, vector_fits fits2 vectors.2] at lengths
    exact absurd (agreeing_rank agree) lengths

theorem dimension_eq (agree : Agreeing (gen1.vectors gen2)) (fits1 : gen1.Fits)
    (fits2 : gen2.Fits) (same : ¬ NumbersDiffer gen1 gen2 d) :
    gen1.dimension val d = gen2.dimension val d := by
  have numbers : ∀ vector1 vector2, (vector1, vector2) ∈ gen1.vectors gen2 →
      ∀ elems1 elems2 val1 val2, vector1 = some elems1 → vector2 = some elems2 →
        elems1[d]? = some (.num val1) → elems2[d]? = some (.num val2) → val1 = val2 := by
    intro vector1 vector2 mem elems1 elems2 val1 val2 first second at1 at2
    by_contra differ
    subst first
    subst second
    exact same ⟨elems1, elems2, val1, val2, mem, at1, at2, differ⟩
  have mem1 : (some gen1.bound1, some gen2.bound1) ∈ gen1.vectors gen2 := .head _
  have mem2 : (some gen1.bound2, some gen2.bound2) ∈ gen1.vectors gen2 := .tail _ (.head _)
  have mem3 : (gen1.step, gen2.step) ∈ gen1.vectors gen2 := .tail _ (.tail _ (.head _))
  have mem4 : (gen1.width, gen2.width) ∈ gen1.vectors gen2 :=
    .tail _ (.tail _ (.tail _ (.head _)))
  have bound1 : valueAt val gen1.bound1 d = valueAt val gen2.bound1 d :=
    lists_value (agreeing_fits agree fits1 fits2 mem1) fun val1 val2 =>
      numbers _ _ mem1 _ _ val1 val2 rfl rfl
  have bound2 : valueAt val gen1.bound2 d = valueAt val gen2.bound2 d :=
    lists_value (agreeing_fits agree fits1 fits2 mem2) fun val1 val2 =>
      numbers _ _ mem2 _ _ val1 val2 rfl rfl
  have step : orOnes val gen1.step d = orOnes val gen2.step d :=
    vectors_value (agreeing_fits agree fits1 fits2 mem3) (numbers _ _ mem3)
  have width : orOnes val gen1.width d = orOnes val gen2.width d :=
    vectors_value (agreeing_fits agree fits1 fits2 mem4) (numbers _ _ mem4)
  simp only [Generator.dimension, bound1, bound2, step, width]

end Agreement

section Products

variable {Name : Type} {gen gen1 gen2 : Generator Name} {val : Name → Int} {d : Nat}

/-- An index of a dimension can take its place in an index vector. -/
theorem index_set_replaced {iv : List Int} {i : Int} (mem : iv ∈ gen.indexSet val)
    (inside : i ∈ gen.dimension val d) : iv.set d i ∈ gen.indexSet val := by
  refine ⟨mem.1, by simpa using mem.2.1, ?_⟩
  intro e j entry
  rw [List.getElem?_set] at entry
  split at entry
  · rename_i same
    subst same
    split at entry
    · cases entry
      exact inside
    · cases entry
  · exact mem.2.2 e j entry

/-- Equal index sets that are not empty have the same indices in every dimension. -/
theorem dimension_subset (nonempty : (gen1.indexSet val).Nonempty)
    (same : gen1.indexSet val = gen2.indexSet val) (inside : d < gen1.bound1.length) : gen1.dimension val d ⊆ gen2.dimension val d := by
  intro i mem
  obtain ⟨iv, inSet⟩ := nonempty
  have replaced : iv.set d i ∈ gen2.indexSet val := same ▸ index_set_replaced inSet mem
  have length : iv.length = gen1.bound1.length := inSet.2.1
  exact replaced.2.2 d i (by simp [length, inside])

theorem index_set_eq (rank : gen1.bound1.length = gen2.bound1.length)
    (fits1 : gen1.Fits) (fits2 : gen2.Fits)
    (dimensions : ∀ d, gen1.dimension val d = gen2.dimension val d) :
    gen1.indexSet val = gen2.indexSet val := by
  ext iv
  simp only [Generator.indexSet, Set.mem_ofPred_eq, fits1, fits2, rank, dimensions]

end Products

section Fusion

variable {Name : Type} {gen1 gen2 : Generator Name}

theorem numbers_differ_inside {d : Nat} (fits : gen1.Fits) (differ : NumbersDiffer gen1 gen2 d) :
    d < gen1.bound1.length := by
  obtain ⟨elems1, elems2, val1, val2, mem, entry, _⟩ := differ
  have inside : d < elems1.length := (List.getElem?_eq_some_iff.mp entry).1
  rw [vector_fits fits (vectors_of_mem mem).1] at inside
  exact inside

theorem overlooked_ne (agree : Agreeing (gen1.vectors gen2)) {val : Name → Int}
    (nonempty : (gen1.indexSet val).Nonempty ∨ (gen2.indexSet val).Nonempty)
    (differ : ¬ (gen1.Fits ↔ gen2.Fits) ∨
      ∃ d, NumbersDiffer gen1 gen2 d ∧ gen1.dimension val d ≠ gen2.dimension val d) :
    gen1.indexSet val ≠ gen2.indexSet val := by
  intro same
  have nonempty1 : (gen1.indexSet val).Nonempty := by
    rcases nonempty with first | second
    · exact first
    · exact same ▸ second
  have fits1 : gen1.Fits := nonempty1.elim fun _ mem => mem.1
  have fits2 : gen2.Fits := (same ▸ nonempty1).elim fun _ mem => mem.1
  rcases differ with lengths | ⟨d, numbers, dimensions⟩
  · exact lengths ⟨fun _ => fits2, fun _ => fits1⟩
  · have rank := agreeing_rank agree
    have inside := numbers_differ_inside fits1 numbers
    apply dimensions
    apply Set.Subset.antisymm
    · exact dimension_subset nonempty1 same inside
    · exact dimension_subset (same ▸ nonempty1) same.symm (rank ▸ inside)

theorem not_overlooked_eq (agree : Agreeing (gen1.vectors gen2))
    (seen : ¬ Overlooked gen1 gen2) (val : Name → Int) :
    gen1.indexSet val = gen2.indexSet val := by
  by_cases nonempty : (gen1.indexSet val).Nonempty ∨ (gen2.indexSet val).Nonempty
  · have fits : gen1.Fits ↔ gen2.Fits := by
      by_contra lengths
      exact seen ⟨agree, val, nonempty, .inl lengths⟩
    have fits1 : gen1.Fits := by
      rcases nonempty with ⟨_, mem⟩ | ⟨_, mem⟩
      · exact mem.1
      · exact fits.mpr mem.1
    refine index_set_eq (agreeing_rank agree) fits1 (fits.mp fits1) ?_
    intro d
    by_cases numbers : NumbersDiffer gen1 gen2 d
    · by_contra dimensions
      exact seen ⟨agree, val, nonempty, .inr ⟨d, numbers, dimensions⟩⟩
    · exact dimension_eq agree fits1 (fits.mp fits1) numbers
  · rw [not_or, Set.not_nonempty_iff_eq_empty, Set.not_nonempty_iff_eq_empty] at nonempty
    rw [nonempty.1, nonempty.2]

variable [DecidableEq Name]

/-- Generators that are taken for equal have the same index sets, unless a difference behind a
common identifier is overlooked. -/
theorem comp_generators_sound_iff (gen1 gen2 : Generator Name) :
    (compGenerators gen1 gen2 = .genEqual ∨ compGenerators gen1 gen2 = .genEqualVar →
        ∀ val, gen1.indexSet val = gen2.indexSet val) ↔
      ¬ Overlooked gen1 gen2 := by
  constructor
  · rintro sound ⟨agree, val, nonempty, differ⟩
    have accepted := (accepted_iff gen1 gen2).mpr agree
    exact overlooked_ne agree nonempty differ (sound accepted val)
  · intro seen accepted val
    exact not_overlooked_eq ((accepted_iff gen1 gen2).mp accepted) seen val

/-- `([0, 5] <= iv < [n, 9])` and `([0, 5] <= iv < [n, 7])` are taken for equal. -/
theorem different_bounds_accepted :
    compGenerators (⟨[.num 0, .num 5], [.id "n", .num 9], none, none⟩ : Generator String)
        ⟨[.num 0, .num 5], [.id "n", .num 7], none, none⟩ = .genEqualVar ∧
      (⟨[.num 0, .num 5], [.id "n", .num 9], none, none⟩ : Generator String).indexSet (fun _ => 1) ≠
        (⟨[.num 0, .num 5], [.id "n", .num 7], none, none⟩ : Generator String).indexSet
          (fun _ => 1) := by
  refine ⟨by decide, ?_⟩
  intro same
  have index : [0, 8] ∈ (⟨[.num 0, .num 5], [.id "n", .num 9], none, none⟩ :
      Generator String).indexSet fun _ => 1 := by
    refine ⟨⟨rfl, by simp, by simp⟩, rfl, ?_⟩
    intro d i entry
    match d with
    | 0 =>
        cases entry
        exact ⟨⟨0, rfl, by decide, by decide⟩, 1, rfl, by decide⟩
    | 1 =>
        cases entry
        exact ⟨⟨5, rfl, by decide, by decide⟩, 9, rfl, by decide⟩
    | d + 2 => simp at entry
  rw [same] at index
  obtain ⟨ub, bound, below⟩ := (index.2.2 1 8 rfl).2
  cases bound
  revert below
  decide

end Fusion

end Sac2c.GeneratorComparison
