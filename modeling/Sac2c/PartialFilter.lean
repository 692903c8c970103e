import Sac2c.DispatchOrder

/-!
The two loops at the end of DFT_state2dft_res of typecheck/new_types.c, on the arrays that they
delete from. What they leave is what pruning pair by pair leaves. They lose nothing, but a
deriveable partial is compared with a partial in one direction only.
-/

namespace Sac2c.PartialFilter
open NewTypes FunDispatch DispatchOrder

variable {Val : Type}

section Model

/-- The deriveable partials of a dft_res, with `dp2ud`. -/
structure Lists (Val : Type) where
  deriveablePartials : List (Fundef Val)
  dp2ud : List Nat
  numDeriveablePartials : Nat

/-- What the loop over the state leaves for the filter loops. -/
structure Sorted (Val : Type) where
  exactFound : Bool
  deriveablePartials : List (Fundef Val)
  dp2ud : List Nat
  p2ud : List Nat

/-- The entry of an index of the dft_state. -/
def entryAt (state : List (Option (Entry Val))) (k : Nat) : Option (Entry Val) := state[k]?.join

/-- The body of the loop over the state. -/
def Sorted.enter (sorted : Sorted Val) : Option (Entry Val) × Nat → Sorted Val
  | (none, _) => sorted
  | (some entry, k) =>
      if entry.ups = 0 then
        if entry.downs = 0 then
          { sorted with exactFound := true, deriveablePartials := [], dp2ud := [] }
        else sorted
      else
        if entry.downs = 0 then { sorted with p2ud := sorted.p2ud ++ [k] }
        else if sorted.exactFound then sorted
        else
          { sorted with
            deriveablePartials := sorted.deriveablePartials ++ [entry.fundef]
            dp2ud := sorted.dp2ud ++ [k] }

def sortEntries (state : List (Option (Entry Val))) : Sorted Val :=
  state.zipIdx.foldl Sorted.enter ⟨false, [], [], []⟩

/-- The loop of EliminateDeriveablePartial over one of the arrays, from `i` on. -/
def shiftDown {β : Type} : Nat → Nat → List β → List β
  | 0, _, list => list
  | n + 1, i, list =>
      match list[i + 1]? with
      | some x => shiftDown n (i + 1) (list.set i x)
      | none => list

/-- EliminateDeriveablePartial, and the decrement after it. -/
def Lists.eliminate (lists : Lists Val) (pos : Nat) : Lists Val :=
  let moves := lists.numDeriveablePartials - 1 - pos
  { deriveablePartials := shiftDown moves pos lists.deriveablePartials
    dp2ud := shiftDown moves pos lists.dp2ud
    numDeriveablePartials := lists.numDeriveablePartials - 1 }

variable [BEq Val] (users : UserTypes) (state : List (Option (Entry Val)))

/-- The inner loop of the first filter, for some number of rounds at most: `i` and the arrays
behind it. -/
def filterAgainst : Nat → Nat → Nat → Lists Val → Option (Int × Lists Val)
  | 0, _, _, _ => none
  | rounds + 1, i, j, lists =>
      if j < lists.numDeriveablePartials then
        (lists.dp2ud[i]?.bind (entryAt state)).bind fun first =>
          (lists.dp2ud[j]?.bind (entryAt state)).bind fun second =>
            if first.ups = second.ups then
              if second.downs < first.downs then
                if allArgTypesLe users first.fundef.args second.fundef.args then
                  filterAgainst rounds i j (lists.eliminate j)
                else filterAgainst rounds i (j + 1) lists
              else
                if allArgTypesLe users second.fundef.args first.fundef.args then
                  some ((i : Int) - 1, lists.eliminate i)
                else filterAgainst rounds i (j + 1) lists
            else filterAgainst rounds i (j + 1) lists
      else some (i, lists)

/-- The first filter. -/
def filterPairs : Nat → Nat → Lists Val → Option (Lists Val)
  | 0, _, _ => none
  | rounds + 1, i, lists =>
      if i < lists.numDeriveablePartials then
        (filterAgainst users state lists.numDeriveablePartials i (i + 1) lists).bind fun out =>
          filterPairs rounds (out.1 + 1).toNat out.2
      else some lists

/-- The inner loop of the second filter, over the rest of `p2ud`. -/
def filterByPartials : List Nat → Nat → Lists Val → Option (Int × Lists Val)
  | [], i, lists => some (i, lists)
  | p :: p2ud, i, lists =>
      (lists.dp2ud[i]?.bind (entryAt state)).bind fun item =>
        (entryAt state p).bind fun other =>
          if item.ups = other.ups then
            if allArgTypesLe users other.fundef.args item.fundef.args then
              some ((i : Int) - 1, lists.eliminate i)
            else filterByPartials p2ud i lists
          else filterByPartials p2ud i lists

/-- The second filter. -/
def filterShadowed (p2ud : List Nat) : Nat → Nat → Lists Val → Option (Lists Val)
  | 0, _, _ => none
  | rounds + 1, i, lists =>
      if i < lists.numDeriveablePartials then
        (filterByPartials users state p2ud i lists).bind fun out =>
          filterShadowed p2ud rounds (out.1 + 1).toNat out.2
      else some lists

/-- The filter loops of DFT_state2dft_res. -/
def filterLoops : Option (Lists Val) :=
  let sorted := sortEntries state
  let num := sorted.dp2ud.length
  (filterPairs users state (num + 1) 0 ⟨sorted.deriveablePartials, sorted.dp2ud, num⟩).bind
    fun lists =>
      filterShadowed users state sorted.p2ud (lists.numDeriveablePartials + 1) 0 lists

end Model

section Arrays
variable {β γ : Type}

theorem shift_map (f : β → γ) (n i : Nat) (list : List β) :
    shiftDown n i (list.map f) = (shiftDown n i list).map f := by
  induction n generalizing i list with
  | zero => rfl
  | succ n ih =>
      rw [shiftDown, shiftDown, List.getElem?_map]
      cases list[i + 1]? with
      | none => rfl
      | some x =>
          simp only [Option.map_some]
          rw [← List.map_set, ih]

theorem shift_drops (front : List β) (x : β) (back stale : List β) :
    ∃ stale', shiftDown back.length front.length (front ++ x :: (back ++ stale)) =
      front ++ (back ++ stale') := by
  induction back generalizing front x with
  | nil => exact ⟨x :: stale, rfl⟩
  | cons y back ih =>
      have next : (front ++ x :: (y :: back ++ stale))[front.length + 1]? = some y := by simp
      have moved : (front ++ x :: (y :: back ++ stale)).set front.length y =
          (front ++ [y]) ++ y :: (back ++ stale) := by simp
      obtain ⟨stale', shifted⟩ := ih (front ++ [y]) y
      refine ⟨stale', ?_⟩
      rw [List.length_cons, shiftDown]
      simp only [next, moved]
      rw [List.length_append, List.length_singleton] at shifted
      rw [shifted, List.append_assoc, List.singleton_append, List.cons_append]

/-- The indices that the arrays hold, and their instances in parallel. -/
structure Holds (state : List (Option (Entry Val))) (ks : List Nat) (lists : Lists Val) : Prop where
  num : lists.numDeriveablePartials = ks.length
  indices : ∃ stale, lists.dp2ud = ks ++ stale
  parallel : lists.deriveablePartials.map some =
    lists.dp2ud.map fun k => (entryAt state k).map Entry.fundef

/-- The indices of legal instances. -/
def Known (state : List (Option (Entry Val))) (ks : List Nat) : Prop :=
  ∀ k ∈ ks, ∃ entry, entryAt state k = some entry

variable {state : List (Option (Entry Val))} {lists : Lists Val} {front back : List Nat} {k : Nat}

theorem known_sublist {ks ks' : List Nat} (known : Known state ks) (fewer : ks'.Sublist ks) :
    Known state ks' := fun k member => known k (fewer.subset member)

/-- The element behind some others. -/
theorem holds_get (holds : Holds state (front ++ k :: back) lists) :
    lists.dp2ud[front.length]? = some k := by
  obtain ⟨stale, same⟩ := holds.indices
  simp [same]

theorem eliminate_holds (holds : Holds state (front ++ k :: back) lists) :
    Holds state (front ++ back) (lists.eliminate front.length) := by
  have count : lists.numDeriveablePartials - 1 - front.length = back.length := by
    rw [holds.num, List.length_append, List.length_cons]
    omega
  obtain ⟨stale, same⟩ := holds.indices
  obtain ⟨stale', shifted⟩ := shift_drops front k back stale
  rw [Lists.eliminate, count]
  constructor
  · simp only [holds.num, List.length_append, List.length_cons]
    omega
  · refine ⟨stale', ?_⟩
    simp only [same, List.append_assoc, List.cons_append, shifted]
  · simp only [← shift_map, holds.parallel]

end Arrays

section Loops
variable [BEq Val] (users : UserTypes) (state : List (Option (Entry Val)))

/-- The verdict of the first filter on two entries. -/
def verdictOf : Option (Entry Val) → Option (Entry Val) → Prune.Verdict
  | some first, some second => shadowVerdict users first second
  | _, _ => .keepBoth

/-- The verdict on two indices. -/
def verdictAt (first second : Nat) : Prune.Verdict :=
  verdictOf users (entryAt state first) (entryAt state second)

/-- Whether the second filter deletes an index. -/
def shadowedAt (p2ud : List Nat) (k : Nat) : Bool :=
  p2ud.any fun p =>
    match entryAt state k, entryAt state p with
    | some item, some other =>
        item.ups == other.ups && allArgTypesLe users other.fundef.args item.fundef.args
    | _, _ => false

variable {state}

/-- One round of the inner loop of the first filter. -/
theorem against_round {front kept rest : List Nat} {item later : Nat} {lists : Lists Val}
    (known : Known state (front ++ item :: (kept ++ later :: rest)))
    (holds : Holds state (front ++ item :: (kept ++ later :: rest)) lists) (rounds : Nat) :
    filterAgainst users state (rounds + 1) front.length (front.length + 1 + kept.length) lists =
      match verdictAt users state item later with
      | .keepBoth =>
          filterAgainst users state rounds front.length (front.length + 1 + (kept ++ [later]).length)
            lists
      | .dropLater =>
          filterAgainst users state rounds front.length (front.length + 1 + kept.length)
            (lists.eliminate (front.length + 1 + kept.length))
      | .dropEarlier => some ((front.length : Int) - 1, lists.eliminate front.length) := by
  obtain ⟨first, isFirst⟩ := known item (by simp)
  obtain ⟨second, isSecond⟩ := known later (by simp)
  have more : front.length + 1 + kept.length < lists.numDeriveablePartials := by
    rw [holds.num]
    simp
    omega
  have atFirst := holds_get holds
  have atSecond : lists.dp2ud[front.length + 1 + kept.length]? = some later := by
    have whole : front ++ item :: (kept ++ later :: rest) =
        (front ++ item :: kept) ++ later :: rest := by simp
    rw [whole] at holds
    have found := holds_get holds
    rwa [List.length_append, List.length_cons, ← Nat.add_assoc, Nat.add_right_comm] at found
  have next : front.length + 1 + (kept ++ [later]).length = front.length + 1 + kept.length + 1 := by
    simp
    omega
  rw [filterAgainst, if_pos more, atFirst, atSecond, Option.bind_some, Option.bind_some, isFirst,
    isSecond, Option.bind_some, Option.bind_some, verdictAt, isFirst, isSecond, verdictOf,
    shadowVerdict, next]
  split_ifs <;> rfl

/-- The inner loop of the first filter scans what is behind an index. -/
theorem against_scans {front kept rest : List Nat} {item : Nat} {lists : Lists Val} {rounds : Nat}
    (known : Known state (front ++ item :: (kept ++ rest)))
    (holds : Holds state (front ++ item :: (kept ++ rest)) lists) (enough : rest.length < rounds) :
    ∃ lists', filterAgainst users state rounds front.length (front.length + 1 + kept.length) lists =
        some (if (Prune.scanRest (verdictAt users state) item rest).1 then (front.length : Int)
          else front.length - 1, lists') ∧
      Holds state
        (if (Prune.scanRest (verdictAt users state) item rest).1 then
          front ++ item :: (kept ++ (Prune.scanRest (verdictAt users state) item rest).2)
        else front ++ (kept ++ (Prune.scanRest (verdictAt users state) item rest).2)) lists' := by
  -- Induction on what the inner loop has still to compare; `kept` stays behind the item.
  induction rest generalizing kept lists rounds with
  | nil =>
      obtain ⟨rounds, rfl⟩ : ∃ n, rounds = n + 1 := ⟨rounds - 1, by omega⟩
      have last : ¬ front.length + 1 + kept.length < lists.numDeriveablePartials := by
        rw [holds.num]
        simp
        omega
      exact ⟨lists, by rw [filterAgainst, if_neg last]; rfl, holds⟩
  | cons later rest ih =>
      obtain ⟨rounds, rfl⟩ : ∃ n, rounds = n + 1 := ⟨rounds - 1, by omega⟩
      have less : rest.length < rounds := by simpa using enough
      have round := against_round users known holds rounds
      have whole : front ++ item :: (kept ++ later :: rest) =
          (front ++ item :: kept) ++ later :: rest := by simp
      cases decided : verdictAt users state item later with
      | keepBoth =>
          have moved : kept ++ later :: rest = (kept ++ [later]) ++ rest := by simp
          simp only [decided] at round
          rw [moved] at known holds
          obtain ⟨lists', done, holds'⟩ := ih known holds less
          refine ⟨lists', by simpa only [Prune.scanRest, decided] using round.trans done, ?_⟩
          simpa only [Prune.scanRest, decided, List.append_assoc, List.singleton_append] using holds'
      | dropLater =>
          simp only [decided] at round
          have fewer : Known state (front ++ item :: (kept ++ rest)) := known_sublist known
            ((((List.sublist_cons_self later rest).append_left kept).cons_cons item).append_left front)
          rw [whole] at holds
          have deleted := eliminate_holds holds
          have place : (front ++ item :: kept).length = front.length + 1 + kept.length := by
            simp
            omega
          rw [place, List.append_assoc, List.cons_append] at deleted
          obtain ⟨lists', done, holds'⟩ := ih fewer deleted less
          exact ⟨lists', by simpa only [Prune.scanRest, decided] using round.trans done,
            by simpa only [Prune.scanRest, decided] using holds'⟩
      | dropEarlier =>
          simp only [decided] at round
          exact ⟨_, by simpa only [Prune.scanRest, decided, Bool.false_eq_true, if_false] using round,
            by simpa only [Prune.scanRest, decided, Bool.false_eq_true, if_false] using
              eliminate_holds holds⟩

/-- The first filter ends behind the last deriveable partial. -/
theorem pairs_done {front : List Nat} {lists : Lists Val} (holds : Holds state front lists)
    (n : Nat) : filterPairs users state (n + 1) front.length lists = some lists := by
  have last : ¬ front.length < lists.numDeriveablePartials := by
    rw [holds.num]
    exact Nat.lt_irrefl _
  rw [filterPairs, if_neg last]

/-- The first filter prunes the deriveable partials. -/
theorem pairs_pruned {n : Nat} {front items : List Nat} {lists : Lists Val}
    (known : Known state (front ++ items)) (holds : Holds state (front ++ items) lists)
    (enough : items.length ≤ n) :
    ∃ lists', filterPairs users state (n + 1) front.length lists = some lists' ∧
      Holds state (front ++ Prune.pruneFuel (verdictAt users state) n items) lists' := by
  induction n generalizing front items lists with
  | zero =>
      obtain rfl := List.length_eq_zero_iff.mp (Nat.le_zero.mp enough)
      rw [List.append_nil] at holds
      exact ⟨lists, pairs_done users holds 0, (List.append_nil front).symm ▸ holds⟩
  | succ n ih =>
      cases items with
      | nil =>
          rw [List.append_nil] at holds
          exact ⟨lists, pairs_done users holds (n + 1), (List.append_nil front).symm ▸ holds⟩
      | cons item rest =>
          have more : front.length < lists.numDeriveablePartials := by
            rw [holds.num]
            simp
          have rounds : rest.length < lists.numDeriveablePartials := by
            rw [holds.num, List.length_append, List.length_cons]
            omega
          obtain ⟨lists', scanned, holds'⟩ :=
            against_scans users known (show Holds state (front ++ item :: ([] ++ rest)) lists from holds) rounds
          rw [List.length_nil, Nat.add_zero] at scanned
          have shorter := Prune.scan_sublist (verdictAt users state) item rest
          have fewer := Nat.le_trans shorter.length_le (Nat.le_of_succ_le_succ enough)
          rw [filterPairs, if_pos more, scanned, Option.bind_some, Prune.pruneFuel]
          cases survives : (Prune.scanRest (verdictAt users state) item rest).1 with
          | true =>
              simp only [survives, if_true, List.nil_append] at holds' ⊢
              have next : ((front.length : Int) + 1).toNat = (front ++ [item]).length := by simp
              have whole : front ++ item :: (Prune.scanRest (verdictAt users state) item rest).2 =
                  (front ++ [item]) ++ (Prune.scanRest (verdictAt users state) item rest).2 := by simp
              rw [whole] at holds'
              have kept := known_sublist known ((shorter.cons_cons item).append_left front)
              rw [whole] at kept
              obtain ⟨final, done, pruned⟩ := ih kept holds' fewer
              rw [next]
              exact ⟨final, done, by simpa using pruned⟩
          -- The item has been removed, and the next one has its index.
          | false =>
              simp only [survives, Bool.false_eq_true, if_false, List.nil_append] at holds' ⊢
              have next : ((front.length : Int) - 1 + 1).toNat = front.length := by omega
              rw [next]
              exact ih (known_sublist known ((shorter.cons item).append_left front)) holds' fewer

theorem shadowed_cons {p2ud : List Nat} {k p : Nat} {item other : Entry Val}
    (isItem : entryAt state k = some item) (isOther : entryAt state p = some other) :
    shadowedAt users state (p :: p2ud) k =
      ((item.ups == other.ups && allArgTypesLe users other.fundef.args item.fundef.args) ||
        shadowedAt users state p2ud k) := by
  simp [shadowedAt, isItem, isOther]

/-- The inner loop of the second filter looks for a partial that shadows an index. -/
theorem by_partials_decides {front rest : List Nat} {item : Nat} {lists : Lists Val}
    (known : Known state (front ++ item :: rest)) (holds : Holds state (front ++ item :: rest) lists)
    {p2ud : List Nat} (partials : Known state p2ud) :
    filterByPartials users state p2ud front.length lists =
      if shadowedAt users state p2ud item then
        some ((front.length : Int) - 1, lists.eliminate front.length)
      else some ((front.length : Int), lists) := by
  obtain ⟨entry, isItem⟩ := known item (by simp)
  induction p2ud with
  | nil => rfl
  | cons p p2ud ih =>
      obtain ⟨other, isOther⟩ := partials p List.mem_cons_self
      have rest := ih (known_sublist partials (List.sublist_cons_self p p2ud))
      rw [filterByPartials, holds_get holds, Option.bind_some, isItem, Option.bind_some, isOther,
        Option.bind_some, rest, shadowed_cons users isItem isOther]
      by_cases ups : entry.ups = other.ups
      · cases le : allArgTypesLe users other.fundef.args entry.fundef.args <;> simp [ups]
      · simp [ups]

/-- The second filter deletes what some partial shadows. -/
theorem shadowed_filtered {n : Nat} {front items p2ud : List Nat} {lists : Lists Val}
    (known : Known state (front ++ items)) (holds : Holds state (front ++ items) lists)
    (partials : Known state p2ud) (enough : items.length ≤ n) :
    ∃ lists', filterShadowed users state p2ud (n + 1) front.length lists = some lists' ∧
      Holds state (front ++ items.filter fun k => !shadowedAt users state p2ud k) lists' := by
  induction items generalizing n front lists with
  | nil =>
      have last : ¬ front.length < lists.numDeriveablePartials := by
        rw [holds.num]
        simp
      exact ⟨lists, by rw [filterShadowed, if_neg last], holds⟩
  | cons item items ih =>
      obtain ⟨n, rfl⟩ : ∃ m, n = m + 1 := ⟨n - 1, by rw [List.length_cons] at enough; omega⟩
      have fewer : items.length ≤ n := Nat.le_of_succ_le_succ enough
      have more : front.length < lists.numDeriveablePartials := by
        rw [holds.num]
        simp
      have whole : front ++ item :: items = (front ++ [item]) ++ items := by simp
      rw [filterShadowed, if_pos more, by_partials_decides users known holds partials]
      cases shadowed : shadowedAt users state p2ud item with
      | true =>
          have next : ((front.length : Int) - 1 + 1).toNat = front.length := by omega
          rw [if_pos rfl, Option.bind_some, next, List.filter_cons_of_neg (by simp [shadowed])]
          exact ih (known_sublist known ((List.sublist_cons_self item items).append_left front))
            (eliminate_holds holds) fewer
      | false =>
          have next : ((front.length : Int) + 1).toNat = (front ++ [item]).length := by simp
          rw [whole] at known holds
          obtain ⟨final, done, filtered⟩ := ih known holds fewer
          rw [if_neg Bool.false_ne_true, Option.bind_some, next,
            List.filter_cons_of_pos (by simp [shadowed])]
          exact ⟨final, done, by simpa using filtered⟩

end Loops

section States
variable (state : List (Option (Entry Val)))

/-- The indices of the entries of some kind. -/
def indicesOf (kind : Entry Val → Bool) (pairs : List (Option (Entry Val) × Nat)) : List Nat :=
  (pairs.filter fun pair => pair.1.any kind).map Prod.snd

/-- What the loop over the state leaves. -/
theorem sorted_pairs (pairs : List (Option (Entry Val) × Nat)) :
    pairs.foldl Sorted.enter (⟨false, [], [], []⟩ : Sorted Val) =
      { exactFound := pairs.any fun pair => pair.1.any isExact
        deriveablePartials :=
          if pairs.any fun pair => pair.1.any isExact then []
          else (pairs.filter fun pair => pair.1.any isDeriveablePartial).filterMap fun pair =>
            pair.1.map Entry.fundef
        dp2ud :=
          if pairs.any fun pair => pair.1.any isExact then [] else indicesOf isDeriveablePartial pairs
        p2ud := indicesOf isPartial pairs } := by
  induction pairs using List.reverseRecOn with
  | nil => rfl
  | append_singleton pairs pair ih =>
      obtain ⟨entry, k⟩ := pair
      rw [List.foldl_append, ih, List.foldl_cons, List.foldl_nil, List.any_append, indicesOf,
        indicesOf, indicesOf, indicesOf, List.filter_append, List.filter_append]
      generalize pairs.any (fun pair => pair.1.any isExact) = exact
      cases entry with
      | none => simp [Sorted.enter]
      | some entry =>
          by_cases ups : entry.ups = 0
          · by_cases downs : entry.downs = 0
            · simp [Sorted.enter, isExact, isPartial, ups, downs]
            · simp [Sorted.enter, isExact, isPartial, isDeriveablePartial, ups, downs]
          · by_cases downs : entry.downs = 0
            · simp [Sorted.enter, isExact, isPartial, isDeriveablePartial, ups, downs]
            · have isOne : isDeriveablePartial entry = true := by
                simp [isDeriveablePartial, ups, downs]
              cases exact <;> simp [Sorted.enter, isExact, isPartial, ups, downs, isOne]

theorem sort_entries :
    sortEntries state =
      { exactFound := state.zipIdx.any fun pair => pair.1.any isExact
        deriveablePartials :=
          if state.zipIdx.any fun pair => pair.1.any isExact then []
          else (state.zipIdx.filter fun pair => pair.1.any isDeriveablePartial).filterMap fun pair =>
            pair.1.map Entry.fundef
        dp2ud :=
          if state.zipIdx.any fun pair => pair.1.any isExact then []
          else indicesOf isDeriveablePartial state.zipIdx
        p2ud := indicesOf isPartial state.zipIdx } := sorted_pairs state.zipIdx

variable {state}

theorem mem_pairs {pair : Option (Entry Val) × Nat} (member : pair ∈ state.zipIdx) :
    entryAt state pair.2 = pair.1 := by
  rw [entryAt, List.mem_zipIdx_iff_getElem?.mp member]
  rfl

theorem mem_indices {kind : Entry Val → Bool} {k : Nat} :
    k ∈ indicesOf kind state.zipIdx ↔ ∃ entry, entryAt state k = some entry ∧ kind entry = true := by
  rw [indicesOf, List.mem_map]
  constructor
  · rintro ⟨⟨entry, k⟩, member, rfl⟩
    rw [List.mem_filter, Option.any_eq_true] at member
    obtain ⟨member, item, isItem, isOne⟩ := member
    exact ⟨item, (mem_pairs member).trans isItem, isOne⟩
  · rintro ⟨entry, found, isOne⟩
    rw [entryAt, Option.join_eq_some_iff] at found
    refine ⟨(some entry, k), List.mem_filter.mpr ⟨?_, isOne⟩, rfl⟩
    exact List.mk_mem_zipIdx_iff_getElem?.mpr found

/-- The entries of the indices of some kind. -/
theorem indices_looked (kind : Entry Val → Bool) :
    (indicesOf kind state.zipIdx).map (entryAt state) =
      (state.zipIdx.filter fun pair => pair.1.any kind).map Prod.fst := by
  rw [indicesOf, List.map_map]
  exact List.map_congr_left fun pair member => mem_pairs (List.mem_filter.mp member).1

theorem any_exact :
    state.zipIdx.any (fun pair => pair.1.any isExact) = (state.filterMap id).any isExact := by
  have firsts : state.zipIdx.any (fun pair => pair.1.any isExact) =
      (state.zipIdx.map Prod.fst).any fun entry => entry.any isExact := by
    rw [List.any_map]
    rfl
  rw [firsts, List.zipIdx_map_fst, List.any_filterMap]
  rfl

/-- The indices of some kind are those of the legal instances of that kind. -/
theorem indices_entries (kind : Entry Val → Bool) :
    (indicesOf kind state.zipIdx).map (entryAt state) =
      ((state.filterMap id).filter kind).map some := by
  have firsts : (state.zipIdx.filter fun pair => pair.1.any kind).map Prod.fst =
      state.filter fun entry => entry.any kind := by
    conv => rhs; rw [← List.zipIdx_map_fst 0 state, List.filter_map]
    rfl
  rw [indices_looked, firsts]
  clear firsts
  induction state with
  | nil => rfl
  | cons entry state ih =>
      cases entry with
      | none => simpa using ih
      | some entry => cases isOne : kind entry <;> simp [isOne, ih]

/-- The loop over the state fills the arrays in parallel. -/
theorem sorted_holds : Holds state (sortEntries state).dp2ud
    ⟨(sortEntries state).deriveablePartials, (sortEntries state).dp2ud,
      (sortEntries state).dp2ud.length⟩ := by
  refine ⟨rfl, ⟨[], by simp⟩, ?_⟩
  rw [sort_entries]
  cases state.zipIdx.any fun pair => pair.1.any isExact with
  | true => rfl
  | false =>
      have looked : (indicesOf isDeriveablePartial state.zipIdx).map
          (fun k => (entryAt state k).map Entry.fundef) =
            ((indicesOf isDeriveablePartial state.zipIdx).map (entryAt state)).map
              (Option.map Entry.fundef) := by
        rw [List.map_map]
        rfl
      simp only [Bool.false_eq_true, if_false]
      rw [looked, indices_looked]
      generalize state.zipIdx = pairs
      induction pairs with
      | nil => rfl
      | cons pair pairs ih =>
          obtain ⟨entry, k⟩ := pair
          cases entry with
          | none => simpa using ih
          | some entry => cases isOne : isDeriveablePartial entry <;> simpa [isOne] using ih

theorem sorted_known : Known state (sortEntries state).dp2ud ∧ Known state (sortEntries state).p2ud := by
  have kinds : ∀ kind, Known state (indicesOf kind state.zipIdx) := fun kind k member =>
    (mem_indices.mp member).imp fun _ found => found.1
  rw [sort_entries]
  refine ⟨?_, kinds isPartial⟩
  cases state.zipIdx.any fun pair => pair.1.any isExact with
  | true => exact fun k member => nomatch member
  | false => exact kinds isDeriveablePartial

theorem candidates_entries :
    (sortEntries state).dp2ud.map (entryAt state) = (choose state).deriveablePartials.map some := by
  rw [choose_legal, choose_deriveable_partials, ← any_exact, sort_entries]
  cases state.zipIdx.any fun pair => pair.1.any isExact with
  | true => rfl
  | false => exact indices_entries isDeriveablePartial

theorem partials_entries :
    (sortEntries state).p2ud.map (entryAt state) = (choose state).partials.map some := by
  rw [choose_legal, choose_partials, sort_entries]
  exact indices_entries isPartial

end States

section Refinement
variable [BEq Val] (users : UserTypes) (state : List (Option (Entry Val)))

/-- The deriveable partials that the filters leave. -/
def remaining : List Nat :=
  (Prune.prune (verdictAt users state) (sortEntries state).dp2ud).filter fun k =>
    !shadowedAt users state (sortEntries state).p2ud k

theorem filter_loops :
    ∃ lists, filterLoops users state = some lists ∧ Holds state (remaining users state) lists := by
  obtain ⟨known, partials⟩ := @sorted_known _ state
  have start : Holds state ([] ++ (sortEntries state).dp2ud) _ := sorted_holds
  obtain ⟨lists, pruned, holds⟩ := pairs_pruned users known start (Nat.le_refl _)
  have kept : (Prune.prune (verdictAt users state) (sortEntries state).dp2ud).Sublist _ :=
    Prune.prune_sublist _ _
  have middle : Holds state ([] ++ Prune.prune (verdictAt users state) (sortEntries state).dp2ud)
    lists := holds
  obtain ⟨lists', filtered, holds'⟩ := shadowed_filtered users (known_sublist known kept) middle
    partials (Nat.le_refl _)
  refine ⟨lists', ?_, holds'⟩
  rw [filterLoops]
  simp only [List.length_nil] at pruned filtered
  rw [pruned, Option.bind_some, holds.num]
  exact filtered

theorem shadowed_entries (k : Nat) :
    shadowedAt users state (sortEntries state).p2ud k =
      (entryAt state k).any (shadowedBy users (choose state).partials) := by
  cases found : entryAt state k with
  | none => simp [shadowedAt, found]
  | some item =>
      have looked : shadowedAt users state (sortEntries state).p2ud k =
          ((sortEntries state).p2ud.map (entryAt state)).any fun other => other.any fun other =>
            item.ups == other.ups && allArgTypesLe users other.fundef.args item.fundef.args := by
        rw [shadowedAt, List.any_map, found]
        congr 1
        funext p
        rw [Function.comp_apply]
        cases entryAt state p <;> rfl
      rw [looked, partials_entries, List.any_map]
      rfl

/-- What the filters leave, without the indices. -/
theorem remaining_entries :
    (remaining users state).map (entryAt state) =
      ((Prune.prune (shadowVerdict users) (choose state).deriveablePartials).filter fun item =>
        !shadowedBy users (choose state).partials item).map some := by
  have indexed : Prune.prune (verdictOf users) ((sortEntries state).dp2ud.map (entryAt state)) =
      (Prune.prune (verdictAt users state) (sortEntries state).dp2ud).map (entryAt state) :=
    Prune.prune_map (fun _ _ => rfl) _
  have plain : Prune.prune (verdictOf users) ((choose state).deriveablePartials.map some) =
      (Prune.prune (shadowVerdict users) (choose state).deriveablePartials).map some :=
    Prune.prune_map (fun _ _ => rfl) _
  have shadowed : (fun k => !shadowedAt users state (sortEntries state).p2ud k) =
      (fun entry => !entry.any (shadowedBy users (choose state).partials)) ∘ entryAt state := by
    funext k
    rw [Function.comp_apply, shadowed_entries]
  rw [remaining, shadowed, ← List.filter_map, ← indexed, candidates_entries, plain, List.filter_map]
  rfl

/-- The filters leave the deriveable partials of the result. -/
theorem filter_refines (type : Option (List (ArrayType Val))) :
    ∃ lists, filterLoops users state = some lists ∧
      lists.deriveablePartials.take lists.numDeriveablePartials =
        (dftState2dftRes users state type).deriveablePartials := by
  obtain ⟨lists, filtered, holds⟩ := filter_loops users state
  refine ⟨lists, filtered, ?_⟩
  obtain ⟨stale, same⟩ := holds.indices
  apply List.map_injective_iff.mpr fun _ _ => Option.some.inj
  have entries := congrArg (List.map (Option.map Entry.fundef)) (remaining_entries users state)
  rw [List.map_take, holds.parallel, same, holds.num, List.map_append,
    List.take_left' (by rw [List.length_map])]
  rw [List.map_map, List.map_map] at entries
  rw [dftState2dftRes, List.map_map]
  exact entries

end Refinement

section Specification
variable [BEq Val] (users : UserTypes) (state : List (Option (Entry Val)))

/-- All parameter types of an instance are below those of another one. -/
def Below (first second : Entry Val) : Prop :=
  List.Forall₂ (fun t1 t2 => leTypes users t1 t2 = true) first.fundef.args second.fundef.args

/-- An index is below another one with the same `ups`. -/
def Covers (first second : Nat) : Prop :=
  ∃ entry entry2, entryAt state first = some entry ∧ entryAt state second = some entry2 ∧
    entry.ups = entry2.ups ∧ Below users entry entry2

/-- Besides, it has the larger `downs`. -/
def Outranks (first second : Nat) : Prop :=
  ∃ entry entry2, entryAt state first = some entry ∧ entryAt state second = some entry2 ∧
    entry.ups = entry2.ups ∧ entry2.downs < entry.downs ∧ Below users entry entry2

/-- Something that stays is below what has been dropped. -/
def NothingLost (kept : List Nat) : Prop :=
  ∀ k ∈ (sortEntries state).dp2ud, k ∉ kept →
    ∃ k2, (k2 ∈ kept ∨ k2 ∈ (sortEntries state).p2ud) ∧ Covers users state k2 k

/-- What stays is not outranked. -/
def NoneOutranked (kept : List Nat) : Prop :=
  ∀ k ∈ kept, ∀ k2, k2 ∈ kept ∨ k2 ∈ (sortEntries state).p2ud →
    ¬ Outranks users state k k2 ∧ ¬ Outranks users state k2 k

/-- The filters do what they are meant to. -/
def FilterRight : Prop :=
  ∃ lists, filterLoops users state = some lists ∧
    NothingLost users state (lists.dp2ud.take lists.numDeriveablePartials) ∧
    NoneOutranked users state (lists.dp2ud.take lists.numDeriveablePartials)

theorem filter_right_remaining :
    FilterRight users state ↔
      NothingLost users state (remaining users state) ∧
        NoneOutranked users state (remaining users state) := by
  obtain ⟨lists, filtered, holds⟩ := filter_loops users state
  obtain ⟨stale, same⟩ := holds.indices
  have left : lists.dp2ud.take lists.numDeriveablePartials = remaining users state := by
    rw [same, holds.num, List.take_left]
  constructor
  · rintro ⟨lists', filtered', right⟩
    rw [filtered, Option.some.injEq] at filtered'
    rwa [← filtered', left] at right
  · intro right
    exact ⟨lists, filtered, by rwa [left]⟩

end Specification

section Entries
variable {state : List (Option (Entry Val))} {k : Nat}

/-- All instances have the arity of the call. -/
def SameArity (state : List (Option (Entry Val))) (arity : Nat) : Prop :=
  ∀ entry, some entry ∈ state → entry.fundef.args.length = arity

theorem entry_member {entry : Entry Val} (found : entryAt state k = some entry) :
    some entry ∈ state := by
  rw [entryAt, Option.join_eq_some_iff] at found
  exact List.mem_of_getElem? found

theorem member_entry {entry : Entry Val} (member : some entry ∈ state) :
    ∃ k, entryAt state k = some entry := by
  obtain ⟨k, found⟩ := List.mem_iff_getElem?.mp member
  exact ⟨k, by rw [entryAt, found]; rfl⟩

theorem mem_partials :
    k ∈ (sortEntries state).p2ud ↔ ∃ entry, entryAt state k = some entry ∧ isPartial entry = true := by
  rw [sort_entries]
  exact mem_indices

theorem mem_candidates :
    k ∈ (sortEntries state).dp2ud ↔ (∀ entry, some entry ∈ state → isExact entry = false) ∧
      ∃ entry, entryAt state k = some entry ∧ isDeriveablePartial entry = true := by
  have legal : (state.filterMap id).any isExact = true ↔
      ∃ entry, some entry ∈ state ∧ isExact entry = true := by
    rw [List.any_eq_true]
    simp only [List.mem_filterMap, id_eq, exists_eq_right]
  rw [sort_entries]
  simp only [any_exact]
  cases exact : (state.filterMap id).any isExact with
  | true =>
      obtain ⟨entry, member, isOne⟩ := legal.mp exact
      rw [if_pos rfl]
      refine iff_of_false List.not_mem_nil fun both => ?_
      rw [both.1 entry member] at isOne
      cases isOne
  | false =>
      have none : ∀ entry, some entry ∈ state → isExact entry = false := by
        intro entry member
        rw [← Bool.not_eq_true]
        intro isOne
        rw [legal.mpr ⟨entry, member, isOne⟩] at exact
        cases exact
      rw [if_neg Bool.false_ne_true, mem_indices]
      exact (and_iff_right none).symm

end Entries

section Dominance
variable [BEq Val] {users : UserTypes} {state : List (Option (Entry Val))} {arity k k2 k3 : Nat}

theorem all_below {args args2 : List (ArrayType Val)} (same : args.length = args2.length) :
    allArgTypesLe users args args2 = true ↔
      List.Forall₂ (fun t1 t2 => leTypes users t1 t2 = true) args args2 := by
  induction args generalizing args2 with
  | nil =>
      rw [List.length_eq_zero_iff.mp same.symm]
      exact iff_of_true rfl .nil
  | cons arg args ih =>
      cases args2 with
      | nil => cases same
      | cons arg2 args2 =>
          rw [allArgTypesLe, Bool.and_eq_true, List.forall₂_cons, ih (Nat.succ.inj same)]

theorem le_below (arities : SameArity state arity) {entry entry2 : Entry Val}
    (member : some entry ∈ state) (member2 : some entry2 ∈ state) :
    allArgTypesLe users entry.fundef.args entry2.fundef.args = true ↔ Below users entry entry2 :=
  all_below ((arities entry member).trans (arities entry2 member2).symm)

theorem below_trans [PartialEquivBEq Val] {entry entry2 entry3 : Entry Val}
    (upper : Below users entry entry2) (lower : Below users entry2 entry3) :
    Below users entry entry3 := by
  have lengths := upper.length_eq
  have lengths2 := lower.length_eq
  exact (all_below (lengths.trans lengths2)).mp
    (all_arg_types_trans users ((all_below lengths).mpr upper) ((all_below lengths2).mpr lower))

theorem covers_trans [PartialEquivBEq Val] (upper : Covers users state k k2)
    (lower : Covers users state k2 k3) : Covers users state k k3 := by
  obtain ⟨entry, entry2, found, found2, ups, below⟩ := upper
  obtain ⟨entry2', entry3, found2', found3, ups2, below2⟩ := lower
  rw [found2, Option.some.injEq] at found2'
  subst found2'
  exact ⟨entry, entry3, found, found3, ups.trans ups2, below_trans below below2⟩

/-- What the second filter deletes is above a partial with the same `ups`. -/
theorem shadowed_covers (arities : SameArity state arity) :
    shadowedAt users state (sortEntries state).p2ud k = true ↔
      ∃ p ∈ (sortEntries state).p2ud, Covers users state p k := by
  rw [shadowedAt, List.any_eq_true]
  refine exists_congr fun p => and_congr_right fun _ => ?_
  constructor
  · intro shadowed
    split at shadowed
    · next item other isItem isOther =>
        rw [Bool.and_eq_true, beq_iff_eq, le_below arities (entry_member isOther)
          (entry_member isItem)] at shadowed
        exact ⟨other, item, isOther, isItem, shadowed.1.symm, shadowed.2⟩
    · cases shadowed
  · rintro ⟨other, item, isOther, isItem, ups, below⟩
    simp only [isItem, isOther]
    rw [Bool.and_eq_true, beq_iff_eq, le_below arities (entry_member isOther) (entry_member isItem)]
    exact ⟨ups.symm, below⟩

/-- What the first filter prunes, as a relation of indices. -/
def ShadowsAt (users : UserTypes) (state : List (Option (Entry Val))) (first second : Nat) : Prop :=
  ∃ entry entry2, entryAt state first = some entry ∧ entryAt state second = some entry2 ∧
    Shadows users entry entry2

theorem shadows_at_covers (arities : SameArity state arity) (shadows : ShadowsAt users state k k2) :
    Covers users state k k2 := by
  obtain ⟨entry, entry2, found, found2, ups, _, le⟩ := shadows
  exact ⟨entry, entry2, found, found2, ups,
    (le_below arities (entry_member found) (entry_member found2)).mp le⟩

theorem verdict_shadows {verdict : Prune.Verdict} (decided : verdictAt users state k k2 = verdict) :
    (verdict = .dropLater → ShadowsAt users state k k2) ∧
      (verdict = .dropEarlier → ShadowsAt users state k2 k) := by
  subst decided
  rw [verdictAt, verdictOf.eq_def]
  split
  · next entry entry2 found found2 =>
      exact ⟨fun later => ⟨entry, entry2, found, found2, verdict_later users entry entry2 later⟩,
        fun earlier => ⟨entry2, entry, found2, found, verdict_earlier users entry entry2 earlier⟩⟩
  · exact ⟨fun never => (nomatch never), fun never => (nomatch never)⟩

theorem pruned_covered [PartialEquivBEq Val] (member : k ∈ (sortEntries state).dp2ud) :
    k ∈ Prune.prune (verdictAt users state) (sortEntries state).dp2ud ∨
      ∃ survivor ∈ Prune.prune (verdictAt users state) (sortEntries state).dp2ud,
        ShadowsAt users state survivor k := by
  refine Prune.prune_covered (verdictAt users state) (ShadowsAt users state) ?_
    (fun a b later => (verdict_shadows rfl).1 later)
    (fun a b earlier => (verdict_shadows rfl).2 earlier) _ k member
  rintro a b c ⟨entry, entry2, found, found2, upper⟩ ⟨entry2', entry3, found2', found3, lower⟩
  rw [found2, Option.some.injEq] at found2'
  subst found2'
  exact ⟨entry, entry3, found, found3, shadows_trans users upper lower⟩

/-- Nothing is lost. -/
theorem nothing_lost [PartialEquivBEq Val] (arities : SameArity state arity) :
    NothingLost users state (remaining users state) := by
  -- What has been dropped is covered by a survivor of the first filter, or dropped by the second.
  have second : ∀ k ∈ Prune.prune (verdictAt users state) (sortEntries state).dp2ud,
      k ∈ remaining users state ∨ ∃ p ∈ (sortEntries state).p2ud, Covers users state p k := by
    intro k kept
    cases shadowed : shadowedAt users state (sortEntries state).p2ud k with
    | true => exact Or.inr ((shadowed_covers arities).mp shadowed)
    | false => exact Or.inl (List.mem_filter.mpr ⟨kept, by rw [shadowed]; rfl⟩)
  intro k member gone
  rcases pruned_covered member with kept | ⟨survivor, kept, shadows⟩
  · obtain ⟨p, isPartial, covers⟩ := (second k kept).resolve_left gone
    exact ⟨p, Or.inr isPartial, covers⟩
  · have covered := shadows_at_covers arities shadows
    rcases second survivor kept with stays | ⟨p, isPartial, covers⟩
    · exact ⟨survivor, Or.inl stays, covered⟩
    · exact ⟨p, Or.inr isPartial, covers_trans covers covered⟩

end Dominance

section Filter
variable [BEq Val] (users : UserTypes) {state : List (Option (Entry Val))} {arity k k2 p : Nat}

/-- A deriveable partial that lies below a partial with smaller `downs` lies above some partial. -/
def Settled (state : List (Option (Entry Val))) : Prop :=
  ∀ item other, some item ∈ state → some other ∈ state → item.ups ≠ 0 → 0 < item.downs →
    other.downs = 0 → other.ups = item.ups → Below users item other →
      ∃ third, some third ∈ state ∧ third.downs = 0 ∧ third.ups = item.ups ∧ Below users third item

/-- Of two deriveable partials that are left, none outranks the other. -/
theorem pairs_unranked (arities : SameArity state arity) (left : k ∈ remaining users state)
    (left2 : k2 ∈ remaining users state) : ¬ Outranks users state k k2 := by
  rintro ⟨entry, entry2, found, found2, ups, downs, below⟩
  have apart : k ≠ k2 := by
    rintro rfl
    rw [found, Option.some.injEq] at found2
    rw [found2] at downs
    exact Int.lt_irrefl _ downs
  have dominates : Dominates users entry entry2 :=
    ⟨ups, downs, (le_below arities (entry_member found) (entry_member found2)).mpr below⟩
  have never := verdict_dominates users entry entry2 dominates
  rcases Prune.prune_undecided_pair (verdictAt users state) _ (List.mem_filter.mp left).1
    (List.mem_filter.mp left2).1 apart with undecided | undecided
  · rw [verdictAt, found, found2] at undecided
    exact never.1 undecided
  · rw [verdictAt, found, found2] at undecided
    exact never.2 undecided

/-- No partial covers what is left. -/
theorem partials_uncovering (arities : SameArity state arity) (left : k ∈ remaining users state)
    (isPartial : p ∈ (sortEntries state).p2ud) : ¬ Covers users state p k := by
  intro covers
  have shadowed := (shadowed_covers arities).mpr ⟨p, isPartial, covers⟩
  have notShadowed := (List.mem_filter.mp left).2
  rw [shadowed] at notShadowed
  cases notShadowed

/-- A deriveable partial has a survivor of the first filter in its place. -/
theorem survivor_for [PartialEquivBEq Val] (arities : SameArity state arity) {item : Entry Val}
    (isItem : entryAt state k = some item) (member : k ∈ (sortEntries state).dp2ud) :
    ∃ s ∈ Prune.prune (verdictAt users state) (sortEntries state).dp2ud, ∃ lower,
      entryAt state s = some lower ∧ lower.ups = item.ups ∧ item.downs ≤ lower.downs ∧
        (∀ entry, Below users item entry → Below users lower entry) ∧
          ∀ entry, Below users entry lower → Below users entry item := by
  rcases pruned_covered member with kept | ⟨s, kept, lower, entry, found, found2, ups, downs, le⟩
  · exact ⟨k, kept, item, isItem, rfl, Int.le_refl _, fun _ => id, fun _ => id⟩
  · rw [isItem, Option.some.injEq] at found2
    subst found2
    have below := (le_below arities (entry_member found) (entry_member isItem)).mp le
    exact ⟨s, kept, lower, found, ups, downs, fun _ => below_trans below,
      fun _ above => below_trans above below⟩

theorem settled_of_unranked [PartialEquivBEq Val] (arities : SameArity state arity)
    (noExact : ∀ entry, some entry ∈ state → isExact entry = false)
    (unranked : NoneOutranked users state (remaining users state)) : Settled users state := by
  intro item other inState inState2 ups downs none same below
  obtain ⟨k, isItem⟩ := member_entry inState
  obtain ⟨p, isOther⟩ := member_entry inState2
  have candidate : k ∈ (sortEntries state).dp2ud := by
    refine mem_candidates.mpr ⟨noExact, item, isItem, ?_⟩
    simp [isDeriveablePartial, ups, Int.ne_of_gt downs]
  have other_partial : p ∈ (sortEntries state).p2ud := by
    refine mem_partials.mpr ⟨other, isOther, ?_⟩
    simp [isPartial, same, ups, none]
  obtain ⟨s, kept, lower, isLower, lowerUps, lowerDowns, upper, under⟩ :=
    survivor_for users arities isItem candidate
  -- The survivor is below a partial itself, or it stays and would outrank the other.
  cases shadowed : shadowedAt users state (sortEntries state).p2ud s with
  | true =>
      obtain ⟨q, isPartial, third, lower', isThird, isLower', thirdUps, thirdBelow⟩ :=
        (shadowed_covers arities).mp shadowed
      rw [isLower, Option.some.injEq] at isLower'
      subst isLower'
      obtain ⟨third', isThird', kind⟩ := mem_partials.mp isPartial
      rw [isThird, Option.some.injEq] at isThird'
      subst isThird'
      have thirdDowns : third.downs = 0 := by
        simp only [DispatchOrder.isPartial, Bool.and_eq_true, beq_iff_eq] at kind
        exact kind.2
      exact ⟨third, entry_member isThird, thirdDowns, thirdUps.trans lowerUps, under _ thirdBelow⟩
  | false =>
      have left : s ∈ remaining users state := List.mem_filter.mpr ⟨kept, by rw [shadowed]; rfl⟩
      have outranks : Outranks users state s p :=
        ⟨lower, other, isLower, isOther, lowerUps.trans same.symm, by omega, upper other below⟩
      exact absurd outranks (unranked s left p (Or.inr other_partial)).1

theorem unranked_of_settled (arities : SameArity state arity) (settled : Settled users state) :
    NoneOutranked users state (remaining users state) := by
  intro k left k2 other
  rcases other with left2 | isOther
  · exact ⟨pairs_unranked users arities left left2, pairs_unranked users arities left2 left⟩
  · constructor
    · rintro ⟨item, other, isItem, found, ups, downs, below⟩
      obtain ⟨other', found', kind⟩ := mem_partials.mp isOther
      rw [found, Option.some.injEq] at found'
      subst found'
      simp only [isPartial, Bool.and_eq_true, beq_iff_eq, bne_iff_ne] at kind
      obtain ⟨third, inState, thirdDowns, thirdUps, thirdBelow⟩ := settled item other
        (entry_member isItem) (entry_member found) (ups ▸ kind.1) (kind.2 ▸ downs) kind.2 ups.symm below
      obtain ⟨q, isThird⟩ := member_entry inState
      have isPartial : q ∈ (sortEntries state).p2ud := by
        refine mem_partials.mpr ⟨third, isThird, ?_⟩
        simp [isPartial, thirdUps, ups, kind.1, thirdDowns]
      exact partials_uncovering users arities left isPartial
        ⟨third, item, isThird, isItem, thirdUps, thirdBelow⟩
    · rintro ⟨other, item, found, isItem, ups, _, below⟩
      exact partials_uncovering users arities left isOther
        ⟨other, item, found, isItem, ups, below⟩

/-- The filters do what they are meant to if and only if there is an exact match, or every
deriveable partial of positive `downs` below a partial with the same `ups` is above one. -/
theorem filter_right_iff [PartialEquivBEq Val] (arities : SameArity state arity) :
    FilterRight users state ↔
      (∃ entry, some entry ∈ state ∧ entry.ups = 0 ∧ entry.downs = 0) ∨ Settled users state := by
  rw [filter_right_remaining, and_iff_right (nothing_lost arities)]
  constructor
  · intro unranked
    by_contra wrong
    rw [not_or] at wrong
    refine wrong.2 (settled_of_unranked users arities ?_ unranked)
    intro entry member
    rw [← Bool.not_eq_true]
    intro exact
    simp only [isExact, Bool.and_eq_true, beq_iff_eq] at exact
    exact wrong.1 ⟨entry, member, exact⟩
  · rintro (⟨entry, member, ups, downs⟩ | settled)
    · intro k left
      have candidate := (Prune.prune_sublist _ _).subset (List.mem_filter.mp left).1
      have notExact := (mem_candidates.mp candidate).1 entry member
      simp [isExact, ups, downs] at notExact
    · exact unranked_of_settled users arities settled

end Filter

section Dispatch

/-- Three arguments: a scalar, a vector of three elements and some vector. -/
def arguments : List (ArrayType Int) :=
  [.aks intScalar [], .aks intScalar [3], .akd intScalar 1 [] (by decide)]

/-- int[*], int[3], int[5] and int[*], int[.], int[5]. -/
def scalarState : List (Option (Entry Int)) :=
  [instanceOf 0 [.aud intScalar, .aks intScalar [3], .aks intScalar [5]],
    instanceOf 1 [.aud intScalar, .akd intScalar 1 [] (by decide), .aks intScalar [5]]].map
      (entryOf noAliases arguments)

theorem scalar_state : scalarState =
    [some ⟨⟨0, [.aud intScalar, .aks intScalar [3], .aks intScalar [5]]⟩, 1, 1⟩,
      some ⟨⟨1, [.aud intScalar, .akd intScalar 1 [] (by decide), .aks intScalar [5]]⟩, 1, 0⟩] := rfl

theorem scalar_arity : SameArity scalarState 3 := by
  rw [scalar_state]
  intro entry member
  simp only [List.mem_cons, Option.some.injEq, List.not_mem_nil, or_false] at member
  rcases member with rfl | rfl <;> rfl

theorem scalar_state_right_iff :
    FilterRight noAliases scalarState ↔
      (∃ entry, some entry ∈ scalarState ∧ entry.ups = 0 ∧ entry.downs = 0) ∨
        Settled noAliases scalarState := filter_right_iff noAliases scalar_arity

/-- The scalar argument makes the `downs` of the more special instance positive. -/
theorem scalar_state_wrong :
    ¬ ∀ (state : List (Option (Entry Int))) (arity : Nat), SameArity state arity →
      FilterRight noAliases state := by
  intro right
  have unranked := ((filter_right_remaining noAliases scalarState).mp
    (right scalarState 3 scalar_arity)).2
  have left : 0 ∈ remaining noAliases scalarState := by decide
  have other : 1 ∈ (sortEntries scalarState).p2ud := by decide
  refine (unranked 0 left 1 (Or.inr other)).1 ⟨_, _, rfl, rfl, rfl, by decide, ?_⟩
  exact .cons rfl (.cons rfl (.cons rfl .nil))

end Dispatch

end Sac2c.PartialFilter
