import Mathlib.Data.List.Nodup
import Sac2c.SsiStore

/-!
The lists of the constraint store of typecheck/ssi.c: SSInewRel keeps the
relation between the variables transitively closed. Its loops extend lists while
they walk over lists, but a list that a loop walks over already has what the loop
would add to it.
-/

namespace Sac2c.SsiRelation

open NewTypes TypeOrder LubOfTypes Closures SsiStore

section Lists
variable {Val : Type}

/-- The variable `y` is among the bigs of `x`. -/
def Above (s : Store Val) (x y : Nat) : Prop := y ∈ (s x).big

/-- The lists have no duplicates, and each is the inverse of the other. -/
structure Linked (s : Store Val) : Prop where
  bigNodup : ∀ v, (s v).big.Nodup
  smallNodup : ∀ v, (s v).small.Nodup
  inverse : ∀ x y, y ∈ (s x).big ↔ x ∈ (s y).small

def SameBounds (s next : Store Val) : Prop :=
  ∀ v, (next v).max = (s v).max ∧ (next v).min = (s v).min

def SameLists (s next : Store Val) : Prop :=
  ∀ v, (next v).big = (s v).big ∧ (next v).small = (s v).small

theorem same_bounds_refl (s : Store Val) : SameBounds s s := fun _ => ⟨rfl, rfl⟩

theorem same_bounds_trans {s middle next : Store Val} (first : SameBounds s middle)
    (second : SameBounds middle next) : SameBounds s next := fun v =>
  ⟨(second v).1.trans (first v).1, (second v).2.trans (first v).2⟩

theorem same_lists_refl (s : Store Val) : SameLists s s := fun _ => ⟨rfl, rfl⟩

theorem same_lists_trans {s middle next : Store Val} (first : SameLists s middle)
    (second : SameLists middle next) : SameLists s next := fun v =>
  ⟨(second v).1.trans (first v).1, (second v).2.trans (first v).2⟩

/-- One pair of AddBigger and AddSmaller, unless it is there already. -/
def connect (x y : Nat) (s : Store Val) : Store Val :=
  if isIn y (s x).big then s else addSmaller y x (addBigger x y s)

theorem add_bigger_smaller (x y : Nat) (s : Store Val) :
    addBigger x y (addSmaller y x s) = addSmaller y x (addBigger x y s) := by
  funext v
  ext <;> simp

theorem connect_bounds (x y : Nat) (s : Store Val) : SameBounds s (connect x y s) := by
  intro v
  unfold connect
  split <;> simp

/-- The list of bigs of a variable that `connect` leaves as it is. -/
theorem connect_big {x y v : Nat} {s : Store Val} (known : v = x → Above s x y) :
    (connect x y s v).big = (s v).big := by
  unfold connect
  split
  · rfl
  · next missing =>
      have other : v ≠ x := fun same => missing ((is_in_iff _ _).mpr (known same))
      simp [other]

theorem connect_small {x y v : Nat} {s : Store Val} (known : v = y → Above s x y) :
    (connect x y s v).small = (s v).small := by
  unfold connect
  split
  · rfl
  · next missing =>
      have other : v ≠ y := fun same => missing ((is_in_iff _ _).mpr (known same))
      simp [other]

theorem connect_above (x y : Nat) (s : Store Val) (u v : Nat) :
    Above (connect x y s) u v ↔ Above s u v ∨ (u = x ∧ v = y) := by
  unfold connect
  split
  · next known =>
      refine ⟨Or.inl, ?_⟩
      rintro (old | ⟨rfl, rfl⟩)
      · exact old
      · exact (is_in_iff _ _).mp known
  · by_cases here : u = x <;> simp [Above, here]

theorem nodup_append_new {list : List Nat} {entry : Nat} (nodup : list.Nodup)
    (missing : entry ∉ list) : (list ++ [entry]).Nodup := by
  rw [← List.concat_eq_append]
  exact nodup.concat missing

theorem connect_linked (x y : Nat) {s : Store Val} (linked : Linked s) :
    Linked (connect x y s) := by
  have smalls : ∀ u v, u ∈ (connect x y s v).small ↔ u ∈ (s v).small ∨ (u = x ∧ v = y) := by
    intro u v
    unfold connect
    split
    · next known =>
        refine ⟨Or.inl, ?_⟩
        rintro (old | ⟨rfl, rfl⟩)
        · exact old
        · exact (linked.inverse _ _).mp ((is_in_iff _ _).mp known)
    · by_cases here : v = y <;> simp [here]
  refine ⟨fun v => ?_, fun v => ?_, fun u v => ?_⟩
  · unfold connect
    split
    · exact linked.bigNodup v
    · next missing =>
        rw [is_in_iff] at missing
        by_cases here : v = x
        · subst here
          have appended := nodup_append_new (linked.bigNodup v) missing
          simpa only [add_smaller_other, add_bigger_big, if_pos] using appended
        · simpa [here] using linked.bigNodup v
  · unfold connect
    split
    · exact linked.smallNodup v
    · next missing =>
        rw [is_in_iff, linked.inverse] at missing
        by_cases here : v = y
        · subst here
          have appended := nodup_append_new (linked.smallNodup v) missing
          simpa only [add_smaller_small, add_bigger_other, if_pos] using appended
        · simpa [here] using linked.smallNodup v
  · rw [smalls, ← linked.inverse]
    exact connect_above x y s u v

/-- A loop of SSInewRel over a list that it does not extend connects one pair for
each entry. `Kept` says what the loop leaves as it is. -/
theorem connect_loop (bound : Store Val → Nat) (body : Nat → Store Val → Option (Store Val))
    (list : List Nat) (pair : Nat → Nat × Nat) (Kept : Store Val → Prop)
    (fixed : ∀ now, Kept now → bound now = list.length)
    (round : ∀ i (inside : i < list.length) now, Linked now → Kept now →
      body i now = some (connect (pair list[i]).1 (pair list[i]).2 now))
    (kept : ∀ entry ∈ list, ∀ now, Linked now → Kept now →
      Kept (connect (pair entry).1 (pair entry).2 now))
    {s : Store Val} (linked : Linked s) (start : Kept s) :
    ∃ next, forLoop bound body list.length 0 s = some next ∧ Linked next ∧ Kept next ∧
      SameBounds s next ∧
      ∀ x y, Above next x y ↔ Above s x y ∨ ∃ entry ∈ list, pair entry = (x, y) := by
  have step : ∀ i now, i < list.length →
      (Linked now ∧ Kept now ∧ SameBounds s now ∧
        ∀ x y, Above now x y ↔ Above s x y ∨ ∃ entry ∈ list.take i, pair entry = (x, y)) →
      ∃ next, body i now = some next ∧ Linked next ∧ Kept next ∧ SameBounds s next ∧
        ∀ x y, Above next x y ↔
          Above s x y ∨ ∃ entry ∈ list.take (i + 1), pair entry = (x, y) := by
    rintro i now inside ⟨linkedNow, keptNow, bounds, above⟩
    refine ⟨_, round i inside now linkedNow keptNow, connect_linked _ _ linkedNow,
      kept _ (List.getElem_mem inside) now linkedNow keptNow, ?_, fun x y => ?_⟩
    · exact same_bounds_trans bounds (connect_bounds (pair list[i]).1 (pair list[i]).2 now)
    · have last : (x = (pair list[i]).1 ∧ y = (pair list[i]).2) ↔ pair list[i] = (x, y) := by
        rw [Prod.ext_iff, eq_comm, @eq_comm _ y]
      rw [connect_above, above, List.take_add_one, List.getElem?_eq_getElem inside,
        Option.toList_some, or_assoc, last]
      simp only [List.mem_append, List.mem_singleton, or_and_right, exists_or, exists_eq_left]
  obtain ⟨next, ends, linkedNext, keptNext, bounds, above⟩ :=
    for_loop_spec bound body _ list.length (fun _ now inv => fixed now inv.2.1) step list.length 0 s
      ⟨linked, start, same_bounds_refl s, by simp⟩ (Nat.zero_add _)
  rw [List.take_length] at above
  exact ⟨next, ends, linkedNext, keptNext, bounds, above⟩

/-- The test and the order of the other two loops make no difference. -/
theorem connect_flipped (x y : Nat) {s : Store Val} (linked : Linked s) :
    (if isIn x (s y).small then s else addBigger x y (addSmaller y x s)) = connect x y s := by
  have test : isIn x (s y).small = isIn y (s x).big := by
    rw [Bool.eq_iff_iff, is_in_iff, is_in_iff]
    exact (linked.inverse x y).symm
  rw [test, add_bigger_smaller]
  rfl

theorem close_bigs_spec (small big : Nat) {s : Store Val} (linked : Linked s) :
    ∃ next, forBigs big (bigsRound small big) s = some next ∧ Linked next ∧ SameBounds s next ∧
      ∀ x y, Above next x y ↔ Above s x y ∨ (x = small ∧ Above s big y) := by
  obtain ⟨next, ends, linkedNext, _, bounds, above⟩ :=
    connect_loop (fun s => (s big).big.length) (bigsRound small big) ((s big).big)
      (fun y => (small, y))
      (fun now => (now big).big = (s big).big)
      (fun now same => by rw [same]) (fun i inside now _ same => by
        have entry : tvarBig now big i = (s big).big[i] := by simp [tvarBig, same, inside]
        rw [bigsRound, entry]
        rfl)
      (fun y inList now _ same => by
        -- what is connected to the owner of the list walked over is already in it
        rw [← same] at inList
        refine (connect_big ?_).trans same
        rintro rfl
        exact inList)
      linked rfl
  refine ⟨next, ends, linkedNext, bounds, fun x y => ?_⟩
  rw [above]
  simp [Above, eq_comm, and_comm]

theorem close_smalls_spec (small big : Nat) {s : Store Val} (linked : Linked s) :
    ∃ next, forSmalls small (smallsRound small big) s = some next ∧ Linked next ∧
      SameBounds s next ∧ ∀ x y, Above next x y ↔ Above s x y ∨ (Above s x small ∧ y = big) := by
  obtain ⟨next, ends, linkedNext, _, bounds, above⟩ :=
    connect_loop (fun s => (s small).small.length) (smallsRound small big) ((s small).small)
      (fun x => (x, big))
      (fun now => (now small).small = (s small).small)
      (fun now same => by rw [same]) (fun i inside now linkedNow same => by
        have entry : tvarSmall now small i = (s small).small[i] := by
          simp [tvarSmall, same, inside]
        rw [smallsRound, entry, connect_flipped _ _ linkedNow])
      (fun x inList now linkedNow same => by
        rw [← same] at inList
        refine (connect_small ?_).trans same
        rintro rfl
        exact (linkedNow.inverse _ _).mpr inList)
      linked rfl
  refine ⟨next, ends, linkedNext, bounds, fun x y => ?_⟩
  rw [above]
  simp [Above, linked.inverse, eq_comm]

/-- The inner loop of the third one keeps what the outer loop walks over, for
`lower` comes from there. -/
theorem close_row_spec (small big lower : Nat) {s : Store Val} (linked : Linked s)
    (below : lower ∈ (s small).small) :
    ∃ next, forBigs big (rowRound big lower) s = some next ∧ Linked next ∧ SameBounds s next ∧
      (next small).small = (s small).small ∧ (next big).big = (s big).big ∧
      ∀ x y, Above next x y ↔ Above s x y ∨ (x = lower ∧ Above s big y) := by
  obtain ⟨next, ends, linkedNext, ⟨smalls, bigs⟩, bounds, above⟩ :=
    connect_loop (fun s => (s big).big.length) (rowRound big lower) ((s big).big)
      (fun y => (lower, y))
      (fun now => (now small).small = (s small).small ∧ (now big).big = (s big).big)
      (fun now same => by rw [same.2]) (fun i inside now linkedNow same => by
        have entry : tvarBig now big i = (s big).big[i] := by simp [tvarBig, same.2, inside]
        rw [rowRound, entry, connect_flipped _ _ linkedNow])
      (fun y inList now linkedNow same => by
        rw [← same.2] at inList
        rw [← same.1] at below
        refine ⟨(connect_small ?_).trans same.1, (connect_big ?_).trans same.2⟩
        · rintro rfl
          exact (linkedNow.inverse _ _).mpr below
        · rintro rfl
          exact inList)
      linked ⟨rfl, rfl⟩
  refine ⟨next, ends, linkedNext, bounds, smalls, bigs, fun x y => ?_⟩
  rw [above]
  simp [Above, eq_comm, and_comm]

theorem close_rest_spec (small big : Nat) {s : Store Val} (linked : Linked s) :
    ∃ next, closeRest small big s = some next ∧ Linked next ∧ SameBounds s next ∧
      ∀ x y, Above next x y ↔ Above s x y ∨ (Above s x small ∧ Above s big y) := by
  have step : ∀ i now, i < (s small).small.length →
      (Linked now ∧ SameBounds s now ∧ (now small).small = (s small).small ∧
        (now big).big = (s big).big ∧
        ∀ x y, Above now x y ↔ Above s x y ∨ (x ∈ (s small).small.take i ∧ Above s big y)) →
      ∃ next, forBigs big (rowRound big (tvarSmall now small i)) now = some next ∧
        Linked next ∧ SameBounds s next ∧ (next small).small = (s small).small ∧
        (next big).big = (s big).big ∧
        ∀ x y, Above next x y ↔
          Above s x y ∨ (x ∈ (s small).small.take (i + 1) ∧ Above s big y) := by
    rintro i now inside ⟨linkedNow, bounds, smalls, bigs, above⟩
    have entry : tvarSmall now small i = (s small).small[i] := by
      simp [tvarSmall, smalls, inside]
    have below : (s small).small[i] ∈ (now small).small := by
      rw [smalls]
      exact List.getElem_mem inside
    rw [entry]
    obtain ⟨next, ends, linkedNext, boundsNext, smallsNext, bigsNext, aboveNext⟩ :=
      close_row_spec small big _ linkedNow below
    refine ⟨next, ends, linkedNext, same_bounds_trans bounds boundsNext,
      smallsNext.trans smalls, bigsNext.trans bigs, fun x y => ?_⟩
    have sameBigs : Above now big y ↔ Above s big y := by rw [Above, Above, bigs]
    rw [aboveNext, above, sameBigs, List.take_add_one, List.getElem?_eq_getElem inside,
      Option.toList_some, List.mem_append, List.mem_singleton, or_assoc, or_and_right]
  obtain ⟨next, ends, linkedNext, bounds, _, _, above⟩ :=
    for_loop_spec (fun s : Store Val => (s small).small.length) _ _ (s small).small.length
      (fun _ now inv => by rw [inv.2.2.1]) step
      (s small).small.length 0 s ⟨linked, same_bounds_refl s, rfl, rfl, by simp⟩ (Nat.zero_add _)
  refine ⟨next, ends, linkedNext, bounds, fun x y => ?_⟩
  rw [above, List.take_length, ← linked.inverse]
  rfl

theorem add_relation_spec (small big : Nat) {s : Store Val} (linked : Linked s)
    (fresh : ¬ Above s small big) :
    ∃ next, addRelation small big s = some next ∧ Linked next ∧ SameBounds s next ∧
      ∀ x y, Above next x y ↔ Extend (Above s) small big x y := by
  have first : addSmaller big small (addBigger small big s) = connect small big s := by
    unfold connect
    rw [if_neg (by rw [is_in_iff]; exact fresh)]
  obtain ⟨second, ends2, linked2, bounds2, above2⟩ :=
    close_bigs_spec small big (connect_linked small big linked)
  obtain ⟨third, ends3, linked3, bounds3, above3⟩ := close_smalls_spec small big linked2
  obtain ⟨last, ends4, linked4, bounds4, above4⟩ := close_rest_spec small big linked3
  refine ⟨last, ?_, linked4, ?_, ?_⟩
  · rw [addRelation, first, ends2, Option.bind_some, ends3, Option.bind_some, ends4]
  · have bounds12 := same_bounds_trans (connect_bounds small big s) bounds2
    exact same_bounds_trans bounds12 (same_bounds_trans bounds3 bounds4)
  · exact extend_stages (connect_above small big s) above2 above3 above4

/-- The lists are linked and the relation is transitively closed. -/
structure Closed (s : Store Val) : Prop where
  linked : Linked s
  trans : ∀ x y z, Above s x y → Above s y z → Above s x z

theorem closed_of_lists {s next : Store Val} (lists : SameLists s next) (closed : Closed s) :
    Closed next := by
  have above : ∀ x y, Above next x y ↔ Above s x y := fun x y => by rw [Above, Above, (lists x).1]
  refine ⟨⟨fun v => ?_, fun v => ?_, fun x y => ?_⟩, fun x y z first second => ?_⟩
  · rw [(lists v).1]
    exact closed.linked.bigNodup v
  · rw [(lists v).2]
    exact closed.linked.smallNodup v
  · rw [(lists x).1, (lists y).2]
    exact closed.linked.inverse x y
  · rw [above] at first second ⊢
    exact closed.trans x y z first second

/-- The pairs of variables that SSInewRel has been called with. -/
def Asserted (calls : List (Constraint Val)) (x y : Nat) : Prop :=
  { small := .alpha x, big := .alpha y } ∈ calls

theorem asserted_append (calls : List (Constraint Val)) (c : Constraint Val) (x y : Nat) :
    Asserted (calls ++ [c]) x y ↔
      Asserted calls x y ∨ c = { small := .alpha x, big := .alpha y } := by
  rw [Asserted, List.mem_append, List.mem_singleton, eq_comm]
  rfl

end Lists

section Relation
variable {Val : Type} [BEq Val]

theorem new_max_at_lists (users : UserTypes) (onSmalls : Store Val → Bool × Store Val)
    (kept : ∀ s, SameLists s (onSmalls s).2) (var : Nat) (cmax : NType Val) (s : Store Val) :
    SameLists s (newMaxAt users onSmalls var cmax s).2 := by
  intro v
  have pushed : ((onSmalls (setMax var cmax s)).2 v).big = (s v).big ∧
      ((onSmalls (setMax var cmax s)).2 v).small = (s v).small := by
    have lists := kept (setMax var cmax s) v
    simpa using lists
  unfold newMaxAt
  split
  · split <;> simp
  · split
    · exact ⟨rfl, rfl⟩
    · split
      · exact pushed
      · split
        · exact pushed
        · exact ⟨rfl, rfl⟩
    · exact ⟨rfl, rfl⟩

theorem new_max_smalls_lists (users : UserTypes) (cmax : NType Val) (smalls : List Nat)
    (s : Store Val) : SameLists s (newMaxSmalls users cmax smalls s).2 := by
  induction smalls generalizing s with
  | nil => exact same_lists_refl s
  | cons small rest ih =>
      have head := new_max_at_lists users (fun s => (true, s)) same_lists_refl small cmax s
      unfold newMaxSmalls
      split
      · next next result =>
          rw [result] at head
          exact same_lists_trans head (ih next)
      · next next result =>
          rw [result] at head
          exact head

theorem new_max_lists (users : UserTypes) (var : Nat) (cmax : Option (NType Val)) (s : Store Val) :
    SameLists s (newMax users var cmax s).2 := by
  cases cmax with
  | none => exact same_lists_refl s
  | some cmax =>
      exact new_max_at_lists users _ (fun s => new_max_smalls_lists users cmax _ s) var cmax s

/-- NewMin leaves the maxima and the lists as they are. -/
theorem new_min_at_frame (users : UserTypes) (onBigs : NType Val → Store Val → Bool × Store Val)
    (kept : ∀ tmp s, SameLists s (onBigs tmp s).2 ∧ ∀ v, ((onBigs tmp s).2 v).max = (s v).max)
    (var : Nat) (cmin : NType Val) (s : Store Val) :
    SameLists s (newMinAt users onBigs var cmin s).2 ∧
      ∀ v, ((newMinAt users onBigs var cmin s).2 v).max = (s v).max := by
  unfold newMinAt
  split
  · exact ⟨same_lists_refl s, fun _ => rfl⟩
  · next tmp _ =>
      split
      · have pushed := kept tmp (setMin var tmp s)
        refine ⟨fun v => ?_, fun v => ?_⟩
        · have lists := pushed.1 v
          simpa using lists
        · have maxes := pushed.2 v
          simpa using maxes
      · exact ⟨same_lists_refl s, fun _ => rfl⟩

theorem new_min_bigs_frame (users : UserTypes) (tmp : NType Val) (bigs : List Nat)
    (s : Store Val) : SameLists s (newMinBigs users tmp bigs s).2 ∧
      ∀ v, ((newMinBigs users tmp bigs s).2 v).max = (s v).max := by
  induction bigs generalizing s with
  | nil => exact ⟨same_lists_refl s, fun _ => rfl⟩
  | cons big rest ih =>
      have head := new_min_at_frame users (fun _ s => (true, s))
        (fun _ s => ⟨same_lists_refl s, fun _ => rfl⟩) big tmp s
      unfold newMinBigs
      split
      · next next result =>
          rw [result] at head
          have tail := ih next
          exact ⟨same_lists_trans head.1 tail.1, fun v => (tail.2 v).trans (head.2 v)⟩
      · next next result =>
          rw [result] at head
          exact head

theorem new_min_frame (users : UserTypes) (var : Nat) (cmin : Option (NType Val)) (s : Store Val) :
    SameLists s (newMin users var cmin s).2 ∧
      ∀ v, ((newMin users var cmin s).2 v).max = (s v).max := by
  cases cmin with
  | none => exact ⟨same_lists_refl s, fun _ => rfl⟩
  | some cmin =>
      exact new_min_at_frame users _ (fun tmp s => new_min_bigs_frame users tmp _ s) var cmin s

theorem new_min_lists (users : UserTypes) (var : Nat) (cmin : Option (NType Val)) (s : Store Val) :
    SameLists s (newMin users var cmin s).2 := (new_min_frame users var cmin s).1

theorem pass_bounds_lists (users : UserTypes) (small big : Nat) (s : Store Val) :
    SameLists s (passBounds users small big s).2 := by
  have head := new_max_lists users small (s big).max s
  unfold passBounds
  split
  · next next result =>
      rw [result] at head
      exact same_lists_trans head (new_min_lists users big (next small).min next)
  · next next result =>
      rw [result] at head
      exact head

/-- SSInewRel on a closed store: its loops end, and unless the relation is there
already the bounds are passed on in the store with the extended relation. -/
theorem new_rel_spec (users : UserTypes) (small big : Nat) {s : Store Val} (closed : Closed s) :
    (Above s small big ∧ newRel users small big s = some (true, s)) ∨
    ∃ related, ¬ Above s small big ∧
      newRel users small big s = some (passBounds users small big related) ∧
      Closed related ∧ SameBounds s related ∧
      ∀ x y, Above related x y ↔ Extend (Above s) small big x y := by
  unfold newRel
  by_cases known : Above s small big
  · have test : isIn small (s big).small = true :=
      (is_in_iff _ _).mpr ((closed.linked.inverse _ _).mp known)
    exact Or.inl ⟨known, if_pos test⟩
  · have test : ¬ isIn small (s big).small = true := by
      rw [is_in_iff, ← closed.linked.inverse]
      exact known
    obtain ⟨related, ends, linked, bounds, above⟩ := add_relation_spec small big closed.linked known
    refine Or.inr ⟨related, known, ?_, ⟨linked, fun x y z first second => ?_⟩, bounds, above⟩
    · rw [if_neg test, ends]
      rfl
    · rw [above] at first second ⊢
      exact extend_trans closed.trans first second

/-- What a call of SSInewTypeRel does to a closed store. -/
inductive Effect (users : UserTypes) (s : Store Val) :
    Constraint Val → Bool → Store Val → Prop where
  | known {small big : Nat} (above : Above s small big) :
      Effect users s { small := .alpha small, big := .alpha big } true s
  | relation {small big : Nat} {related : Store Val} {res : Bool} {next : Store Val}
      (fresh : ¬ Above s small big) (closed : Closed related) (bounds : SameBounds s related)
      (above : ∀ x y, Above related x y ↔ Extend (Above s) small big x y)
      (passed : passBounds users small big related = (res, next)) :
      Effect users s { small := .alpha small, big := .alpha big } res next
  | upper {v : Nat} {t : NType Val} {res : Bool} {next : Store Val}
      (bounded : newMax users v (some t) s = (res, next)) :
      Effect users s { small := .alpha v, big := .type t } res next
  | lower {v : Nat} {t : NType Val} {res : Bool} {next : Store Val}
      (bounded : newMin users v (some t) s = (res, next)) :
      Effect users s { small := .type t, big := .alpha v } res next
  | types {t1 t2 : NType Val} {res : Bool} (compared : leNtypes users t1 t2 = res) :
      Effect users s { small := .type t1, big := .type t2 } res s

theorem effect_of_call {users : UserTypes} {c : Constraint Val} {s next : Store Val} {res : Bool}
    (closed : Closed s) (called : newTypeRel users c s = some (res, next)) :
    Effect users s c res next := by
  obtain ⟨small, big⟩ := c
  cases small with
  | alpha small =>
      cases big with
      | alpha big =>
          rcases new_rel_spec users small big closed with
            ⟨known, result⟩ | ⟨related, fresh, result, closedRelated, bounds, above⟩
          · obtain ⟨rfl, rfl⟩ := Prod.mk.inj (Option.some.inj (result.symm.trans called))
            exact .known known
          · exact .relation fresh closedRelated bounds above
              (Option.some.inj (result.symm.trans called))
      | type big => exact .upper (Option.some.inj called)
  | type small =>
      cases big with
      | alpha big => exact .lower (Option.some.inj called)
      | type big =>
          obtain ⟨compared, rfl⟩ := Prod.mk.inj (Option.some.inj called)
          exact .types compared

theorem new_type_rel_spec (users : UserTypes) (c : Constraint Val) {s : Store Val}
    (closed : Closed s) :
    ∃ res next, newTypeRel users c s = some (res, next) ∧ Closed next ∧
      ∀ x y, Above next x y ↔ match c with
        | { small := .alpha small, big := .alpha big } => Extend (Above s) small big x y
        | _ => Above s x y := by
  have unchanged : ∀ {next : Store Val}, SameLists s next →
      Closed next ∧ ∀ x y, Above next x y ↔ Above s x y := fun lists =>
    ⟨closed_of_lists lists closed, fun x y => by rw [Above, Above, (lists x).1]⟩
  obtain ⟨small, big⟩ := c
  cases small with
  | alpha small =>
      cases big with
      | alpha big =>
          rcases new_rel_spec users small big closed with
            ⟨known, result⟩ | ⟨related, _, result, closedNow, _, above⟩
          · -- a relation that is there already adds nothing to its closure
            exact ⟨_, _, result, closed, fun x y => (extend_of_mem closed.trans known x y).symm⟩
          · have lists := pass_bounds_lists users small big related
            refine ⟨(passBounds users small big related).1, (passBounds users small big related).2,
              result, closed_of_lists lists closedNow, fun x y => ?_⟩
            change _ ↔ Extend (Above s) small big x y
            rw [← above, Above, Above, (lists x).1]
      | type big => exact ⟨_, _, rfl, unchanged (new_max_lists users small (some big) s)⟩
  | type small =>
      cases big with
      | alpha big => exact ⟨_, _, rfl, unchanged (new_min_lists users big (some small) s)⟩
      | type big => exact ⟨_, _, rfl, unchanged (same_lists_refl s)⟩

theorem run_closed (users : UserTypes) {Allowed : Store Val → Constraint Val → Bool → Prop}
    {calls : List (Constraint Val)} {s : Store Val} (run : Run users Allowed calls s) :
    Closed s ∧ ∀ x y, Above s x y ↔ Relation.TransGen (Asserted calls) x y := by
  induction run with
  | start =>
      refine ⟨⟨⟨fun v => List.nodup_nil, fun v => List.nodup_nil, fun x y => ?_⟩,
        fun x y z first _ => absurd first (List.not_mem_nil)⟩, fun x y => ?_⟩
      · simp [freshStore, makeVariable]
      · refine ⟨fun above => absurd above List.not_mem_nil, fun path => ?_⟩
        cases path with
        | single pair => exact absurd pair List.not_mem_nil
        | tail _ pair => exact absurd pair List.not_mem_nil
  | @step calls s next c res _ called _ ih =>
      obtain ⟨closed, above⟩ := ih
      obtain ⟨_, _, result, closedNext, aboveNext⟩ := new_type_rel_spec users c closed
      obtain ⟨rfl, rfl⟩ := Prod.mk.inj (Option.some.inj (called.symm.trans result))
      have asserted : Asserted (calls ++ [c]) =
          fun x y => Asserted calls x y ∨ c = { small := .alpha x, big := .alpha y } :=
        funext fun x => funext fun y => propext (asserted_append calls c x y)
      have closure : Above s = Relation.TransGen (Asserted calls) :=
        funext fun x => funext fun y => propext (above x y)
      refine ⟨closedNext, fun x y => ?_⟩
      rw [aboveNext, asserted, closure]
      obtain ⟨small, big⟩ := c
      cases small with
      | alpha small =>
          cases big with
          | alpha big =>
              -- only a call with two variables adds a pair
              change Extend _ small big x y ↔ _
              rw [← trans_gen_insert]
              simp only [Constraint.mk.injEq, Side.alpha.injEq, eq_comm]
          | type big => simp
      | type small => cases big <;> simp

/-- The lists after any calls of SSInewTypeRel, and that a further call ends. -/
theorem relation_closed (users : UserTypes) (calls : List (Constraint Val)) (s : Store Val)
    (run : Run users (fun _ _ _ => True) calls s) :
    (∀ v, (s v).big.Nodup ∧ (s v).small.Nodup) ∧
    (∀ a b, b ∈ (s a).big ↔ a ∈ (s b).small) ∧
    (∀ a b, isLeVar s a b = true ↔ Relation.TransGen (Asserted calls) a b) ∧
    ∀ small big, ∃ res next, newRel users small big s = some (res, next) := by
  obtain ⟨closed, above⟩ := run_closed users run
  refine ⟨fun v => ⟨closed.linked.bigNodup v, closed.linked.smallNodup v⟩, closed.linked.inverse,
    fun a b => (is_in_iff _ _).trans (above a b), fun small big => ?_⟩
  rcases new_rel_spec users small big closed with ⟨_, result⟩ | ⟨_, _, result, _⟩
  · exact ⟨_, _, result⟩
  · exact ⟨_, _, result⟩

end Relation

/-- SSInewRel( a, b). -/
def newRelCall (a b : Nat) : Constraint Int := { small := .alpha a, big := .alpha b }

/-- Two variables below each other, and one above itself from the beginning. -/
theorem relation_closed_cycle :
    ∃ s : Store Int, (∀ a b, isLeVar s a b = true ↔
      Relation.TransGen (Asserted [newRelCall 0 1, newRelCall 1 0, newRelCall 2 2]) a b) := by
  obtain ⟨s, run⟩ : ∃ s : Store Int, Run noAliases (fun _ _ _ => True)
      [newRelCall 0 1, newRelCall 1 0, newRelCall 2 2] s :=
    ⟨_, .step (.step (.step .start rfl trivial) rfl trivial) rfl trivial⟩
  exact ⟨s, (relation_closed noAliases _ s run).2.2.1⟩

end Sac2c.SsiRelation
