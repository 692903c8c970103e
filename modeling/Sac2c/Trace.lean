import Mathlib.Data.List.Basic

/-!
Finite runs of a labelled step relation. A label names the party that moves or
the request it serves; nothing here depends on what a state is. The rules carry
an invariant, a termination measure and the existence of a finished run from one
step to a whole run.
-/

namespace Sac2c.Trace

universe u v
variable {State : Type u} {Label : Type v}

inductive Run (step : State → Label → State → Prop) : State → List Label → State → Prop where
  | refl (state) : Run step state [] state
  | next {before middle after : State} {label : Label} {labels : List Label} :
      step before label middle → Run step middle labels after →
      Run step before (label :: labels) after

/-- A property kept by each single step holds at the end of every run. -/
theorem Run.invariant {step : State → Label → State → Prop} (holds : State → Prop)
    (kept : ∀ before label after, holds before → step before label after → holds after)
    {before after : State} {labels : List Label} (run : Run step before labels after)
    (start : holds before) : holds after := by
  induction run with
  | refl => exact start
  | next moved _ ih => exact ih (kept _ _ _ start moved)

/-- A measure that falls with each step bounds the length of every run. -/
theorem Run.length_le {step : State → Label → State → Prop} (holds : State → Prop)
    (measure : State → Nat)
    (kept : ∀ before label after, holds before → step before label after → holds after)
    (falls : ∀ before label after, holds before → step before label after →
      measure after < measure before)
    {before after : State} {labels : List Label} (run : Run step before labels after)
    (start : holds before) : labels.length + measure after ≤ measure before := by
  induction run with
  | refl => simp
  | next moved _ ih =>
      have tail := ih (kept _ _ _ start moved)
      have drop := falls _ _ _ start moved
      simp only [List.length_cons]
      omega

/-- If every unfinished state can move and steps cannot go on for ever, some
run ends in a finished state. -/
theorem exists_finished {step : State → Label → State → Prop} (holds finished : State → Prop)
    (measure : State → Nat)
    (kept : ∀ before label after, holds before → step before label after → holds after)
    (falls : ∀ before label after, holds before → step before label after →
      measure after < measure before)
    (moves : ∀ state, holds state → ¬ finished state → ∃ label after, step state label after)
    (before : State) (start : holds before) :
    ∃ labels after, Run step before labels after ∧ finished after := by
  by_cases done : finished before
  · exact ⟨[], before, Run.refl before, done⟩
  · obtain ⟨label, middle, moved⟩ := moves before start done
    have drop := falls before label middle start moved
    obtain ⟨labels, after, run, last⟩ := exists_finished holds finished measure kept falls moves
      middle (kept before label middle start moved)
    exact ⟨label :: labels, after, Run.next moved run, last⟩
termination_by measure before

section Fuel

variable {Value : Type u}

/-- A result is as promised. Without one, the fuel was too little or the program
has ended. -/
def Outcome (promised : Value → Prop) (enough ended : Prop) : Option Value → Prop
  | some value => promised value
  | none => enough → ended

theorem Outcome.imp {promised weaker : Value → Prop} {enough more ended failed : Prop}
    {result : Option Value} (outcome : Outcome promised enough ended result)
    (weakens : ∀ value, promised value → weaker value) (less : more → enough)
    (ends : ended → failed) : Outcome weaker more failed result := by
  cases result with
  | none => exact fun given => ends (outcome (less given))
  | some value => exact weakens value outcome

end Fuel

end Sac2c.Trace
