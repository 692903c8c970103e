import Mathlib.Data.List.Basic

/-!
Deleting elements from a list while two nested loops compare every pair of it.
A verdict on an earlier and a later element says which of them has to go, if
any; the inner loop ends when its own element goes. What is deleted is below
something that stays, and the survivors are pairwise undecided.
-/

namespace Sac2c.Prune

universe u
variable {α : Type u}

inductive Verdict where
  | keepBoth
  | dropEarlier
  | dropLater
deriving DecidableEq, Repr

/-- The inner loop: whether its own element stays, and what stays behind it. -/
def scanRest (verdict : α → α → Verdict) (item : α) : List α → Bool × List α
  | [] => (true, [])
  | later :: rest =>
      match verdict item later with
      | .keepBoth =>
          let scanned := scanRest verdict item rest
          (scanned.1, later :: scanned.2)
      | .dropLater => scanRest verdict item rest
      | .dropEarlier => (false, later :: rest)

def pruneFuel (verdict : α → α → Verdict) : Nat → List α → List α
  | 0, _ => []
  | _ + 1, [] => []
  | fuel + 1, item :: rest =>
      let scanned := scanRest verdict item rest
      if scanned.1 then item :: pruneFuel verdict fuel scanned.2
      else pruneFuel verdict fuel scanned.2

def prune (verdict : α → α → Verdict) (items : List α) : List α :=
  pruneFuel verdict items.length items

theorem scan_sublist (verdict : α → α → Verdict) (item : α) (rest : List α) :
    List.Sublist (scanRest verdict item rest).2 rest := by
  induction rest with
  | nil => exact List.Sublist.refl []
  | cons later rest ih =>
      cases decided : verdict item later with
      | keepBoth =>
          simp only [scanRest, decided]
          exact ih.cons_cons later
      | dropLater =>
          simp only [scanRest, decided]
          exact ih.cons later
      | dropEarlier =>
          simp only [scanRest, decided]
          exact List.Sublist.refl _

theorem scan_dropped (verdict : α → α → Verdict) (item : α) (rest : List α) (later : α)
    (member : later ∈ rest) (gone : later ∉ (scanRest verdict item rest).2) :
    verdict item later = .dropLater := by
  induction rest with
  | nil => simp at member
  | cons head rest ih =>
      cases decided : verdict item head with
      | keepBoth =>
          simp only [scanRest, decided, List.mem_cons, not_or] at gone
          rcases List.mem_cons.mp member with same | tail
          · exact absurd same gone.1
          · exact ih tail gone.2
      | dropLater =>
          simp only [scanRest, decided] at gone
          rcases List.mem_cons.mp member with same | tail
          · subst same
            exact decided
          · exact ih tail gone
      | dropEarlier =>
          simp only [scanRest, decided] at gone
          exact absurd member gone

theorem scan_survives (verdict : α → α → Verdict) (item : α) (rest : List α)
    (survives : (scanRest verdict item rest).1 = true) :
    ∀ later ∈ (scanRest verdict item rest).2, verdict item later = .keepBoth := by
  induction rest with
  | nil => simp [scanRest]
  | cons head rest ih =>
      cases decided : verdict item head with
      | keepBoth =>
          simp only [scanRest, decided] at survives ⊢
          intro later member
          rcases List.mem_cons.mp member with same | tail
          · subst same
            exact decided
          · exact ih survives later tail
      | dropLater =>
          simp only [scanRest, decided] at survives ⊢
          exact ih survives
      | dropEarlier => simp [scanRest, decided] at survives

theorem scan_beaten (verdict : α → α → Verdict) (item : α) (rest : List α)
    (beaten : (scanRest verdict item rest).1 = false) :
    ∃ later ∈ (scanRest verdict item rest).2, verdict item later = .dropEarlier := by
  induction rest with
  | nil => simp [scanRest] at beaten
  | cons head rest ih =>
      cases decided : verdict item head with
      | keepBoth =>
          simp only [scanRest, decided] at beaten ⊢
          obtain ⟨later, member, wins⟩ := ih beaten
          exact ⟨later, List.mem_cons_of_mem head member, wins⟩
      | dropLater =>
          simp only [scanRest, decided] at beaten ⊢
          exact ih beaten
      | dropEarlier =>
          simp only [scanRest, decided]
          exact ⟨head, List.mem_cons_self, decided⟩

theorem prune_fuel_sublist (verdict : α → α → Verdict) (fuel : Nat) (items : List α) :
    List.Sublist (pruneFuel verdict fuel items) items := by
  induction fuel generalizing items with
  | zero => simp [pruneFuel]
  | succ fuel ih =>
      cases items with
      | nil => simp [pruneFuel]
      | cons item rest =>
          have scanned := scan_sublist verdict item rest
          have tail := (ih (scanRest verdict item rest).2).trans scanned
          simp only [pruneFuel]
          split_ifs
          · exact tail.cons_cons item
          · exact tail.cons item

theorem prune_fuel_covered (verdict : α → α → Verdict) (below : α → α → Prop)
    (trans : ∀ {a b c}, below a b → below b c → below a c)
    (later : ∀ a b, verdict a b = .dropLater → below a b)
    (earlier : ∀ a b, verdict a b = .dropEarlier → below b a)
    (fuel : Nat) (items : List α) (enough : items.length ≤ fuel) :
    ∀ item ∈ items, item ∈ pruneFuel verdict fuel items ∨
      ∃ survivor ∈ pruneFuel verdict fuel items, below survivor item := by
  induction fuel generalizing items with
  | zero =>
      have empty : items = [] := List.length_eq_zero_iff.mp (Nat.le_zero.mp enough)
      simp [empty]
  | succ fuel ih =>
      cases items with
      | nil => simp
      | cons first rest =>
          have shorter := (scan_sublist verdict first rest).length_le
          have tail := ih (scanRest verdict first rest).2
            (by simp only [List.length_cons] at enough; omega)
          have dropped := scan_dropped verdict first rest
          by_cases survives : (scanRest verdict first rest).1 = true
          · simp only [pruneFuel, survives, ↓reduceIte]
            intro item member
            rcases List.mem_cons.mp member with same | inRest
            · exact Or.inl (List.mem_cons.mpr (Or.inl same))
            · by_cases stays : item ∈ (scanRest verdict first rest).2
              · rcases tail item stays with kept | ⟨survivor, kept, lower⟩
                · exact Or.inl (List.mem_cons_of_mem first kept)
                · exact Or.inr ⟨survivor, List.mem_cons_of_mem first kept, lower⟩
              · exact Or.inr ⟨first, List.mem_cons_self, later _ _ (dropped item inRest stays)⟩
          · simp only [Bool.not_eq_true] at survives
            obtain ⟨winner, inRest, wins⟩ := scan_beaten verdict first rest survives
            -- The element that beat `first` is still there, so something below it survives.
            have covered : ∃ survivor ∈ pruneFuel verdict fuel (scanRest verdict first rest).2,
                below survivor first := by
              rcases tail winner inRest with kept | ⟨survivor, kept, lower⟩
              · exact ⟨winner, kept, earlier _ _ wins⟩
              · exact ⟨survivor, kept, trans lower (earlier _ _ wins)⟩
            simp only [pruneFuel, survives, Bool.false_eq_true, ↓reduceIte]
            intro item member
            rcases List.mem_cons.mp member with same | inItems
            · subst same
              exact Or.inr covered
            · by_cases stays : item ∈ (scanRest verdict first rest).2
              · exact tail item stays
              · obtain ⟨survivor, kept, lower⟩ := covered
                exact Or.inr ⟨survivor, kept,
                  trans lower (later _ _ (dropped item inItems stays))⟩

theorem prune_fuel_undecided (verdict : α → α → Verdict) (fuel : Nat) (items : List α) :
    (pruneFuel verdict fuel items).Pairwise fun a b => verdict a b = .keepBoth := by
  induction fuel generalizing items with
  | zero => exact List.Pairwise.nil
  | succ fuel ih =>
      cases items with
      | nil => exact List.Pairwise.nil
      | cons item rest =>
          simp only [pruneFuel]
          split_ifs with survives
          · refine List.Pairwise.cons ?_ (ih _)
            intro other member
            exact scan_survives verdict item rest survives other
              ((prune_fuel_sublist verdict fuel _).subset member)
          · exact ih _

theorem prune_sublist (verdict : α → α → Verdict) (items : List α) :
    List.Sublist (prune verdict items) items :=
  prune_fuel_sublist verdict items.length items

/-- Nothing is lost: what goes is below something that stays. -/
theorem prune_covered (verdict : α → α → Verdict) (below : α → α → Prop)
    (trans : ∀ {a b c}, below a b → below b c → below a c)
    (later : ∀ a b, verdict a b = .dropLater → below a b)
    (earlier : ∀ a b, verdict a b = .dropEarlier → below b a) (items : List α) :
    ∀ item ∈ items, item ∈ prune verdict items ∨
      ∃ survivor ∈ prune verdict items, below survivor item :=
  prune_fuel_covered verdict below trans later earlier items.length items (Nat.le_refl _)

theorem prune_undecided (verdict : α → α → Verdict) (items : List α) :
    (prune verdict items).Pairwise fun a b => verdict a b = .keepBoth :=
  prune_fuel_undecided verdict items.length items

theorem prune_undecided_pair (verdict : α → α → Verdict) (items : List α) {a b : α}
    (inA : a ∈ prune verdict items) (inB : b ∈ prune verdict items) (apart : a ≠ b) :
    verdict a b = .keepBoth ∨ verdict b a = .keepBoth := by
  have undecided := prune_undecided verdict items
  generalize prune verdict items = stays at *
  induction undecided with
  | nil => cases inA
  | cons head _ ih =>
      rcases List.mem_cons.mp inA with isA | tailA
      · rcases List.mem_cons.mp inB with isB | tailB
        · exact absurd (isA.trans isB.symm) apart
        · exact Or.inl (isA ▸ head b tailB)
      · rcases List.mem_cons.mp inB with isB | tailB
        · exact Or.inr (isB ▸ head a tailA)
        · exact ih tailA tailB

section Renaming
variable {β : Type u} {f : α → β} {verdict : α → α → Verdict} {verdict2 : β → β → Verdict}

theorem scan_map (same : ∀ a b, verdict2 (f a) (f b) = verdict a b) (item : α) (rest : List α) :
    scanRest verdict2 (f item) (rest.map f) =
      ((scanRest verdict item rest).1, (scanRest verdict item rest).2.map f) := by
  induction rest with
  | nil => rfl
  | cons later rest ih =>
      rw [List.map_cons, scanRest, scanRest, same]
      cases verdict item later with
      | keepBoth => simp only [ih, List.map_cons]
      | dropLater => exact ih
      | dropEarlier => rfl

theorem prune_fuel_map (same : ∀ a b, verdict2 (f a) (f b) = verdict a b) (fuel : Nat)
    (items : List α) : pruneFuel verdict2 fuel (items.map f) = (pruneFuel verdict fuel items).map f := by
  induction fuel generalizing items with
  | zero => rfl
  | succ fuel ih =>
      cases items with
      | nil => rfl
      | cons item rest =>
          simp only [List.map_cons, pruneFuel, scan_map same, ih]
          split <;> rfl

/-- Pruning does not look at the elements themselves. -/
theorem prune_map (same : ∀ a b, verdict2 (f a) (f b) = verdict a b) (items : List α) :
    prune verdict2 (items.map f) = (prune verdict items).map f := by
  rw [prune, List.length_map, prune_fuel_map same, prune]

end Renaming

end Sac2c.Prune
