import Mathlib.Logic.Relation

/-!
What the transitive closure of a relation becomes when one pair is added, and the
rule for a for loop that reads its bound again before each round.
-/

namespace Sac2c.Closures

section Pairs
variable {α : Type}

/-- A relation together with what the pair of `a` and `b` adds to it if it is
transitive. -/
def Extend (rel : α → α → Prop) (a b x y : α) : Prop :=
  rel x y ∨ ((x = a ∨ rel x a) ∧ (y = b ∨ rel b y))

theorem extend_trans {rel : α → α → Prop} (trans : ∀ x y z, rel x y → rel y z → rel x z)
    {a b x y z : α} (first : Extend rel a b x y) (second : Extend rel a b y z) :
    Extend rel a b x z := by
  rcases first with old | ⟨below, above⟩
  · rcases second with next | ⟨belowY, aboveZ⟩
    · exact Or.inl (trans x y z old next)
    · refine Or.inr ⟨Or.inr ?_, aboveZ⟩
      rcases belowY with rfl | next
      · exact old
      · exact trans x y a old next
  · rcases second with next | ⟨_, aboveZ⟩
    · refine Or.inr ⟨below, Or.inr ?_⟩
      rcases above with rfl | old
      · exact next
      · exact trans b y z old next
    · exact Or.inr ⟨below, aboveZ⟩

/-- Nothing is added by a pair that is there already. -/
theorem extend_of_mem {rel : α → α → Prop} (trans : ∀ x y z, rel x y → rel y z → rel x z)
    {a b : α} (known : rel a b) (x y : α) : Extend rel a b x y ↔ rel x y := by
  refine ⟨?_, Or.inl⟩
  rintro (old | ⟨below, above⟩)
  · exact old
  · have reach : rel x b := by
      rcases below with rfl | old
      · exact known
      · exact trans x a b old known
    rcases above with rfl | old
    · exact reach
    · exact trans x b y reach old

theorem trans_gen_insert (pairs : α → α → Prop) (a b x y : α) :
    Relation.TransGen (fun u v => pairs u v ∨ (u = a ∧ v = b)) x y ↔
      Extend (Relation.TransGen pairs) a b x y := by
  have old : ∀ {u v}, Relation.TransGen pairs u v →
      Relation.TransGen (fun u v => pairs u v ∨ (u = a ∧ v = b)) u v :=
    Relation.TransGen.mono (fun _ _ => Or.inl) _ _
  constructor
  · intro path
    induction path with
    | single pair =>
        rcases pair with pair | ⟨rfl, rfl⟩
        · exact Or.inl (.single pair)
        · exact Or.inr ⟨Or.inl rfl, Or.inl rfl⟩
    | tail _ pair ih =>
        apply extend_trans (fun _ _ _ => Relation.TransGen.trans) ih
        rcases pair with pair | ⟨rfl, rfl⟩
        · exact Or.inl (.single pair)
        · exact Or.inr ⟨Or.inl rfl, Or.inl rfl⟩
  · rintro (path | ⟨below, above⟩)
    · exact old path
    · have toB : Relation.TransGen (fun u v => pairs u v ∨ (u = a ∧ v = b)) x b := by
        rcases below with rfl | path
        · exact .single (Or.inr ⟨rfl, rfl⟩)
        · exact .tail (old path) (Or.inr ⟨rfl, rfl⟩)
      rcases above with rfl | path
      · exact toB
      · exact toB.trans (old path)

/-- A relation is extended in four stages: by the pair itself, by what is above
`b`, by what is below `a`, and by the pairs of these. -/
theorem extend_stages {rel first second third last : α → α → Prop} {a b : α}
    (pair : ∀ x y, first x y ↔ rel x y ∨ (x = a ∧ y = b))
    (above : ∀ x y, second x y ↔ first x y ∨ (x = a ∧ first b y))
    (below : ∀ x y, third x y ↔ second x y ∨ (second x a ∧ y = b))
    (rest : ∀ x y, last x y ↔ third x y ∨ (third x a ∧ third b y)) (x y : α) :
    last x y ↔ Extend rel a b x y := by
  simp only [rest, below, above, pair, Extend]
  constructor
  · rintro (_ | _) <;> grind
  · rintro (_ | ⟨_ | _, _ | _⟩) <;> grind

end Pairs

section Loops
variable {State : Type}

/-- A for loop from `i` on. It is none if it needs more than `rounds` rounds, or
if one of its rounds is none. -/
def forLoop (bound : State → Nat) (body : Nat → State → Option State) :
    Nat → Nat → State → Option State
  | 0, i, s => if i < bound s then none else some s
  | rounds + 1, i, s =>
      if i < bound s then (body i s).bind (forLoop bound body rounds (i + 1)) else some s

/-- A loop whose rounds do not move its bound ends, with what each round keeps. -/
theorem for_loop_spec (bound : State → Nat) (body : Nat → State → Option State)
    (Inv : Nat → State → Prop) (limit : Nat) (fixed : ∀ i s, Inv i s → bound s = limit)
    (step : ∀ i s, i < limit → Inv i s → ∃ next, body i s = some next ∧ Inv (i + 1) next)
    (rounds i : Nat) (s : State) (start : Inv i s) (enough : i + rounds = limit) :
    ∃ last, forLoop bound body rounds i s = some last ∧ Inv limit last := by
  induction rounds generalizing i s with
  | zero =>
      -- no round is left, and the invariant says that none is needed
      have stop : ¬ i < bound s := by
        rw [fixed i s start]
        omega
      obtain rfl : i = limit := enough
      exact ⟨s, if_neg stop, start⟩
  | succ rounds ih =>
      have more : i < limit := by omega
      obtain ⟨next, taken, kept⟩ := step i s more start
      obtain ⟨last, ends, final⟩ := ih (i + 1) next kept (by omega)
      refine ⟨last, ?_, final⟩
      rw [forLoop, if_pos (by rw [fixed i s start]; exact more), taken]
      exact ends

end Loops

end Sac2c.Closures
