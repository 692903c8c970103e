import Sac2c.LutHeaps
import Sac2c.Multimap

/-!
Runs of calls on look-up tables, against lists of pairs.
-/

namespace Sac2c.LookUpTable

variable {Value : Type}

/-- The memory, the look-up tables by their handles, and the static variables. -/
structure State (Value : Type) where
  mem : Memory Value
  luts : List Lut
  store : Option Store

/-- The exported functions; those for pointers and those for strings by the kind of their
item. A search comes with the number of calls that continue it. -/
inductive Call (Value : Type) where
  | generate
  | insert (h : Nat) (oldItem : Item) (newItem : Value)
  | update (h : Nat) (oldItem : Item) (newItem : Value)
  | duplicate (h : Nat)
  | removeContent (h : Nat)
  | search (h : Nat) (oldItem : Item) (nexts : Nat)
  /-- The caller writes to the slot that the last call of a search has returned. -/
  | assign (h : Nat) (oldItem : Item) (nexts : Nat) (newItem : Value)
  | map (h : Nat) (kind : Kind) (fun_ : Value → Item → Value)
  | fold (h : Nat) (kind : Kind)

/-- What a caller sees: the values in slots, and what a fold is called with. -/
inductive Result (Value : Type) where
  | done
  | lut (h : Nat)
  | found (value : Option Value)
  | slots (values : List (Option Value))
  | visits (pairs : Pairs Value)

/-- The hash keys of a kind. -/
def Kind.hashKeys (kind : Kind) : List Nat := List.range' kind.start (kind.stop - kind.start)

/-- `NULL`, or the value in the slot. -/
def readSlot (mem : Memory Value) : Option Pointer → Option (Option Value)
  | none => some none
  | some slot => (mem.loadValue slot).map some

/-- `NULL` is not written to. -/
def writeSlot (mem : Memory Value) (value : Value) : Option Pointer → Option (Memory Value)
  | none => some mem
  | some slot => mem.store (.value value) slot

def call (state : State Value) : Call Value → Option (Result Value × State Value)
  | .generate =>
      let (mem, lut) := lutGenerateLut state.mem
      some (.lut state.luts.length, { state with mem := mem, luts := state.luts ++ [lut] })
  | .insert h oldItem newItem => do
      let lut ← state.luts[h]?
      let (mem, table) ← insertIntoLUT state.mem (lut oldItem.hashKey) oldItem newItem
      let lut := Function.update lut oldItem.hashKey table
      some (.done, { state with mem := mem, luts := state.luts.set h lut })
  | .update h oldItem newItem => do
      let lut ← state.luts[h]?
      let (mem, lut, found) ← updateLUT state.mem lut oldItem newItem
      some (.found found, { state with mem := mem, luts := state.luts.set h lut })
  | .duplicate h => do
      let lut ← state.luts[h]?
      let (mem, newLut) ← lutDuplicateLut state.mem lut
      some (.lut state.luts.length, { state with mem := mem, luts := state.luts ++ [newLut] })
  | .removeContent h => do
      let lut ← state.luts[h]?
      let (mem, lut) ← lutRemoveContentLut state.mem lut
      some (.done, { state with mem := mem, luts := state.luts.set h lut })
  | .search h oldItem nexts => do
      let lut ← state.luts[h]?
      let (slots, store) ← search state.mem lut oldItem nexts
      let values ← slots.mapM (readSlot state.mem)
      some (.slots values, { state with store := some store })
  | .assign h oldItem nexts newItem => do
      let lut ← state.luts[h]?
      let (slots, store) ← search state.mem lut oldItem nexts
      let slot ← slots[nexts]?
      let mem ← writeSlot state.mem newItem slot
      some (.done, { state with mem := mem, store := some store })
  | .map h kind fun_ => do
      let lut ← state.luts[h]?
      let mem ← mapLUT fun_ lut kind.hashKeys state.mem
      some (.done, { state with mem := mem })
  | .fold h kind => do
      let lut ← state.luts[h]?
      let pairs ← foldLUT state.mem (fun pairs value key => pairs ++ [(key, value)]) lut
        kind.hashKeys []
      some (.visits pairs, state)

def runCalls : List (Call Value) → State Value → Option (List (Result Value) × State Value)
  | [], state => some ([], state)
  | first :: calls, state => do
      let (result, state) ← call state first
      let (results, state) ← runCalls calls state
      some (result :: results, state)

/-- Nothing has been allocated. -/
def start : State Value := ⟨⟨fun _ _ => .uninit, fun _ => false, 0⟩, [], none⟩

/-- What the calls are for; they are only made on look-up tables that exist. -/
def meaning (contents : List (Pairs Value)) :
    Call Value → Option (Result Value × List (Pairs Value))
  | .generate => some (.lut contents.length, contents ++ [[]])
  | .insert h oldItem newItem =>
      contents[h]?.map fun pairs => (.done, contents.set h (pairs ++ [(oldItem, newItem)]))
  | .update h oldItem newItem =>
      contents[h]?.map fun pairs =>
        match hits oldItem pairs with
        | [] => (.found none, contents.set h (pairs ++ [(oldItem, newItem)]))
        | old :: _ => (.found (some old), contents.set h (setHit oldItem newItem 0 pairs))
  | .duplicate h => contents[h]?.map fun pairs => (.lut contents.length, contents ++ [pairs])
  | .removeContent h => contents[h]?.map fun _ => (.done, contents.set h [])
  | .search h oldItem nexts =>
      contents[h]?.map fun pairs => (.slots (answers (hits oldItem pairs) (nexts + 1)), contents)
  | .assign h oldItem nexts newItem =>
      contents[h]?.map fun pairs => (.done, contents.set h (setHit oldItem newItem nexts pairs))
  | .map h kind fun_ =>
      contents[h]?.map fun pairs => (.done, contents.set h (pairs.map fun pair =>
        if pair.1.kind = kind then (pair.1, fun_ pair.2 pair.1) else pair))
  | .fold h kind =>
      contents[h]?.map fun pairs =>
        (.visits (pairs.filter (fun pair => pair.1.kind = kind)), contents)

def runMeaning : List (Call Value) → List (Pairs Value) →
    Option (List (Result Value) × List (Pairs Value))
  | [], contents => some ([], contents)
  | first :: calls, contents => do
      let (result, contents) ← meaning contents first
      let (results, contents) ← runMeaning calls contents
      some (result :: results, contents)

/-- A fold may visit the pairs in any order. -/
inductive Agrees : Result Value → Result Value → Prop
  | same (result : Result Value) : Agrees result result
  | visits {pairs pairs' : Pairs Value} (perm : pairs.Perm pairs') :
      Agrees (.visits pairs) (.visits pairs')

/-- A search of `pairs` does not go on far enough behind its last hit to follow the second
link there: the pairs in its table end `pairs.length % lutSize` pairs into a fragment. -/
def SearchEnds (oldItem : Item) (nexts : Nat) (pairs : Pairs Value) : Prop :=
  nexts - (hits oldItem pairs).length +
    (bucket oldItem.hashKey pairs).length % lutSize < 2 * lutSize

instance (oldItem : Item) (nexts : Nat) (pairs : Pairs Value) :
    Decidable (SearchEnds oldItem nexts pairs) :=
  inferInstanceAs (Decidable (_ < _))

def CallEnds (contents : List (Pairs Value)) : Call Value → Prop
  | .search h oldItem nexts => ∀ pairs, contents[h]? = some pairs → SearchEnds oldItem nexts pairs
  | .assign h oldItem nexts _ =>
      ∀ pairs, contents[h]? = some pairs → SearchEnds oldItem nexts pairs
  | _ => True

/-- Each search of a run ends in time. -/
def RunEnds : List (Call Value) → List (Pairs Value) → Prop
  | [], _ => True
  | first :: calls, contents => CallEnds contents first ∧
      ∀ result contents', meaning contents first = some (result, contents') →
        RunEnds calls contents'

section Representation

def tablesOf (luts : List Lut) : Place → Option Table :=
  fun place => if place.2 < hashKeys then luts[place.1]?.map (fun lut => lut place.2) else none

def listsOf (contents : List (Pairs Value)) : Place → Pairs Value :=
  fun place => bucket place.2 (contents[place.1]?.getD [])

/-- The tables in memory hold the pairs of the look-up tables by their hash keys. -/
def Represents (state : State Value) (contents : List (Pairs Value)) : Prop :=
  state.luts.length = contents.length ∧
    ∃ chains, Heap state.mem (tablesOf state.luts) chains (listsOf contents)

variable {luts : List Lut} {contents : List (Pairs Value)} {h : Nat} {lut lut' : Lut}
  {pairs : Pairs Value}

theorem table_at (here : luts[h]? = some lut) {k : Nat} (bound : k < hashKeys) :
    tablesOf luts (h, k) = some (lut k) := by
  rw [tablesOf, if_pos bound, here]
  rfl

theorem list_at (here : contents[h]? = some pairs) (k : Nat) :
    listsOf contents (h, k) = bucket k pairs := by
  rw [listsOf, here]
  rfl

theorem tables_of_set (here : luts[h]? = some lut) :
    tablesOf (luts.set h lut') = putLut (tablesOf luts) h lut' (List.range hashKeys) := by
  have inside := (List.getElem?_eq_some_iff.mp here).1
  funext ⟨h', k⟩
  simp only [tablesOf, putLut, List.mem_range]
  by_cases same : h' = h
  · subst same
    by_cases bound : k < hashKeys <;> simp [bound, inside]
  · simp [List.getElem?_set_ne (Ne.symm same), same]

theorem tables_of_append :
    tablesOf (luts ++ [lut']) = putLut (tablesOf luts) luts.length lut' (List.range hashKeys) := by
  funext ⟨h', k⟩
  simp only [tablesOf, putLut, List.mem_range]
  by_cases same : h' = luts.length
  · subst same
    by_cases bound : k < hashKeys <;> simp [bound]
  · rcases Nat.lt_or_ge h' luts.length with inside | outside
    · simp [List.getElem?_append_left inside, same]
    · have beyond : (luts ++ [lut'])[h']? = none := by
        rw [List.getElem?_eq_none_iff, List.length_append, List.length_singleton]
        omega
      simp [beyond, List.getElem?_eq_none outside, same]

theorem tables_of_update (here : luts[h]? = some lut) {k : Nat} (bound : k < hashKeys)
    (table : Table) : tablesOf (luts.set h (Function.update lut k table)) =
      Function.update (tablesOf luts) (h, k) (some table) := by
  have inside := (List.getElem?_eq_some_iff.mp here).1
  funext ⟨h', k'⟩
  by_cases same : h' = h
  · subst same
    by_cases this : k' = k
    · subst this
      simp [tablesOf, inside, bound]
    · rw [Function.update_of_ne (by simp [this])]
      simp only [tablesOf, List.getElem?_set_self inside, here, Option.map_some,
        Function.update_of_ne this]
  · rw [Function.update_of_ne (by simp [same]), tablesOf, tablesOf,
      List.getElem?_set_ne (Ne.symm same)]

theorem lists_of_set (inside : h < contents.length) (place : Place) :
    listsOf (contents.set h pairs) place =
      if place.1 = h then bucket place.2 pairs else listsOf contents place := by
  by_cases same : place.1 = h
  · rw [if_pos same, listsOf, same, List.getElem?_set_self inside]
    rfl
  · rw [if_neg same, listsOf, List.getElem?_set_ne (Ne.symm same), listsOf]

theorem hash_keys_bound (kind : Kind) {k : Nat} (listed : k ∈ kind.hashKeys) :
    k < hashKeys := by
  rw [Kind.hashKeys, List.mem_range'_1] at listed
  cases kind
  · exact Nat.lt_trans listed.2 (by decide)
  · exact listed.2

theorem lists_of_append (place : Place) :
    listsOf (contents ++ [pairs]) place =
      if place.1 = contents.length then bucket place.2 pairs else listsOf contents place := by
  by_cases same : place.1 = contents.length
  · rw [if_pos same, listsOf, same]
    simp
  · rw [if_neg same, listsOf, listsOf]
    rcases Nat.lt_or_ge place.1 contents.length with inside | outside
    · rw [List.getElem?_append_left inside]
    · have beyond : (contents ++ [pairs])[place.1]? = none := by
        rw [List.getElem?_eq_none_iff, List.length_append, List.length_singleton]
        omega
      rw [beyond, List.getElem?_eq_none outside]

/-- One table changes, and so do the pairs with its hash key. -/
theorem lists_of_update (here : contents[h]? = some pairs) {k : Nat} {list pairs' : Pairs Value}
    (changed : ∀ j, bucket j pairs' = if k = j then list else bucket j pairs) :
    listsOf (contents.set h pairs') = Function.update (listsOf contents) (h, k) list := by
  have inside := (List.getElem?_eq_some_iff.mp here).1
  funext ⟨h', j⟩
  rw [lists_of_set inside]
  by_cases same : h' = h
  · subst same
    rw [if_pos rfl, changed]
    by_cases this : k = j
    · subst this
      rw [if_pos rfl, Function.update_self]
    · rw [if_neg this, Function.update_of_ne (by simp [Ne.symm this]), list_at here]
  · rw [if_neg same, Function.update_of_ne (by simp [same])]

theorem table_bound {place : Place} (there : tablesOf luts place ≠ none) :
    place.2 < hashKeys := by
  by_contra outside
  exact there (if_neg outside)

/-- The whole look-up table changes. -/
theorem lists_of_put (here : contents[h]? = some pairs) {ks : List Nat}
    {new : Nat → Pairs Value} {pairs' : Pairs Value}
    (changed : ∀ j, j < hashKeys →
      bucket j pairs' = if j ∈ ks then new j else bucket j pairs)
    (place : Place) (bound : place.2 < hashKeys) :
    putLists (listsOf contents) h new ks place = listsOf (contents.set h pairs') place := by
  have inside := (List.getElem?_eq_some_iff.mp here).1
  obtain ⟨h', j⟩ := place
  rw [lists_of_set inside, putLists]
  by_cases same : h' = h
  · subst same
    rw [if_pos rfl, changed j bound]
    by_cases listed : j ∈ ks
    · rw [if_pos listed, if_pos ⟨rfl, listed⟩]
    · rw [if_neg listed, if_neg (fun both => listed both.2), list_at here]
  · rw [if_neg same, if_neg (fun both => same both.1)]

/-- The tables for the hash keys of a kind hold the pairs of that kind. -/
theorem kind_of_bucket (kind : Kind) {j : Nat} {pair : Item × Value}
    (member : pair ∈ bucket j pairs) : pair.1.kind = kind ↔ j ∈ kind.hashKeys := by
  have key : pair.1.hashKey = j := by simpa [bucket] using (List.mem_filter.mp member).2
  rw [hash_key_range, key, Kind.hashKeys, List.mem_range'_1]
  have ordered : kind.start ≤ kind.stop := by cases kind <;> decide
  omega

theorem put_lut_put (tables : Place → Option Table) (h : Nat) (lut lut' : Lut) (ks : List Nat) :
    putLut (putLut tables h lut ks) h lut' ks = putLut tables h lut' ks := by
  funext place
  simp only [putLut]
  split <;> rfl

end Representation

section Calls

variable {state : State Value} {contents : List (Pairs Value)} {h : Nat} {pairs : Pairs Value}

theorem Represents.lut_at (represents : Represents state contents)
    (here : contents[h]? = some pairs) : ∃ lut, state.luts[h]? = some lut := by
  have inside := (List.getElem?_eq_some_iff.mp here).1
  exact ⟨_, List.getElem?_eq_getElem (represents.1 ▸ inside)⟩

/-- A call of the source does what a call on the lists means. -/
def Does (state : State Value) (contents : List (Pairs Value)) (made : Call Value) : Prop :=
  ∀ result contents', meaning contents made = some (result, contents') →
    ∃ result' state', call state made = some (result', state') ∧ Agrees result' result ∧
      Represents state' contents'

theorem generate_does (represents : Represents state contents) :
    Does state contents .generate := by
  obtain ⟨size, chains, heap⟩ := represents
  rintro result contents' ⟨rfl, rfl⟩
  obtain ⟨chains', -, all⟩ := generate_lut_eq (h := state.luts.length)
    (fun _ => ⟨.garbage, .garbage, 0⟩) (List.nodup_range (n := hashKeys)) heap
  refine ⟨_, _, rfl, size ▸ Agrees.same _, ?_, chains', ?_⟩
  · simp [size]
  · rw [← tables_of_append] at all
    apply all.congr
    intro place there
    rw [lists_of_append, putLists, size]
    by_cases same : place.1 = contents.length
    · rw [if_pos ⟨same, List.mem_range.mpr (table_bound there)⟩, if_pos same]
      rfl
    · rw [if_neg (fun both => same both.1), if_neg same]

/-- A table of a look-up table, and what is left to show when it changes. -/
theorem Represents.table (represents : Represents state contents)
    (here : contents[h]? = some pairs) {lut : Lut} (there : state.luts[h]? = some lut) {k : Nat}
    (bound : k < hashKeys) :
    ∃ chain, Holds state.mem (lut k) chain (bucket k pairs) ∧
      ∀ mem' table chain' list pairs' store,
        Updated state.mem (InChain chain (bucket k pairs)) mem' table chain' list →
        (∀ j, bucket j pairs' = if k = j then list else bucket j pairs) →
        Represents ⟨mem', state.luts.set h (Function.update lut k table), store⟩
          (contents.set h pairs') := by
  obtain ⟨size, chains, heap⟩ := represents
  have at_k := table_at there bound
  have holds := heap.holds _ _ at_k
  rw [list_at here] at holds
  refine ⟨_, holds, ?_⟩
  intro mem' table chain' list pairs' store updated changed
  rw [← list_at here] at updated
  have stepped := heap.step_own (h, k) (by simp [at_k]) updated
  refine ⟨by simp [size], Function.update chains (h, k) chain', ?_⟩
  rw [tables_of_update there bound, lists_of_update here changed]
  exact stepped

theorem insert_changes (oldItem : Item) (newItem : Value) (pairs : Pairs Value) (j : Nat) :
    bucket j (pairs ++ [(oldItem, newItem)]) = if oldItem.hashKey = j then
      bucket oldItem.hashKey pairs ++ [(oldItem, newItem)] else bucket j pairs := by
  rw [bucket_insert]
  by_cases same : oldItem.hashKey = j
  · rw [if_pos same, if_pos same, same]
  · rw [if_neg same, if_neg same]

theorem set_changes (oldItem : Item) (newItem : Value) (n : Nat) (pairs : Pairs Value)
    (j : Nat) :
    bucket j (setHit oldItem newItem n pairs) = if oldItem.hashKey = j then
      setHit oldItem newItem n (bucket oldItem.hashKey pairs) else bucket j pairs := by
  rw [bucket_set_hit]
  by_cases same : oldItem.hashKey = j
  · rw [if_pos same, if_pos same, same]
  · rw [if_neg same, if_neg same]

theorem insert_does (represents : Represents state contents) (oldItem : Item) (newItem : Value) :
    Does state contents (.insert h oldItem newItem) := by
  intro result contents' means
  obtain ⟨pairs, here, done⟩ := Option.map_eq_some_iff.mp means
  cases done
  obtain ⟨lut, there⟩ := represents.lut_at here
  obtain ⟨chain, holds, changes⟩ := represents.table here there (hash_key_lt oldItem)
  obtain ⟨mem', table', chain', run, updated⟩ := holds.insert oldItem newItem
  refine ⟨.done, ⟨mem', state.luts.set h (Function.update lut oldItem.hashKey table'),
    state.store⟩, ?_, Agrees.same _, ?_⟩
  · simp only [call, there, Option.bind_eq_bind, Option.bind_some, run]
  · exact changes _ _ _ _ _ _ updated (insert_changes oldItem newItem pairs)

/-- The value of the hit with a number is written. -/
theorem Holds.set_hit {mem : Memory Value} {table : Table} {chain : Chain} {oldItem : Item}
    (holds : Holds mem table chain pairs) (newItem : Value) {n i : Nat}
    (found : (positions oldItem 0 pairs)[n]? = some i) :
    mem.store (.value newItem) ((chain.slot i).add 1) = some (mem.writeValue chain i newItem) ∧
      Updated mem (InChain chain pairs) (mem.writeValue chain i newItem) table chain
        (setHit oldItem newItem n pairs) := by
  obtain ⟨key, old, at_i, set⟩ := set_hit_found (List.nil_append pairs).symm newItem found
  rw [List.nil_append] at set
  rw [set]
  exact ⟨holds.store_value (List.getElem?_eq_some_iff.mp at_i).1 newItem, holds.set at_i newItem⟩

theorem update_does (represents : Represents state contents) (oldItem : Item) (newItem : Value) :
    Does state contents (.update h oldItem newItem) := by
  intro result contents' means
  obtain ⟨pairs, here, done⟩ := Option.map_eq_some_iff.mp means
  obtain ⟨lut, there⟩ := represents.lut_at here
  obtain ⟨chain, holds, changes⟩ := represents.table here there (hash_key_lt oldItem)
  have searched := search_init_eq oldItem holds
  have same := positions_hits oldItem
    (List.nil_append (bucket oldItem.hashKey pairs)).symm
  rw [hits_bucket] at same
  rw [List.length_nil] at same
  cases ahead : positions oldItem 0 (bucket oldItem.hashKey pairs) with
  | nil =>
      rw [ahead] at same searched
      rw [List.forall₂_nil_left_iff.mp same] at done
      cases done
      obtain ⟨mem', table', chain', run, updated⟩ := holds.insert oldItem newItem
      refine ⟨.found none, ⟨mem', state.luts.set h (Function.update lut oldItem.hashKey table'),
        state.store⟩, ?_, Agrees.same _, ?_⟩
      · simp only [call, there, Option.bind_eq_bind, Option.bind_some, updateLUT, searchInLUT,
          searched, Chain.found, run]
      · exact changes _ _ _ _ _ _ updated (insert_changes oldItem newItem pairs)
  | cons i others =>
      rw [ahead] at same searched
      obtain ⟨old, values, ⟨key, at_i⟩, -, isHit⟩ := List.forall₂_cons_left_iff.mp same
      rw [isHit] at done
      cases done
      have first : (positions oldItem 0 (bucket oldItem.hashKey pairs))[0]? = some i := by
        rw [ahead]
        rfl
      obtain ⟨stored, updated⟩ := holds.set_hit newItem first
      refine ⟨.found (some old), ⟨state.mem.writeValue chain i newItem, state.luts.set h lut,
        state.store⟩, ?_, Agrees.same _, ?_⟩
      · simp only [call, there, Option.bind_eq_bind, Option.bind_some, updateLUT, searchInLUT,
          searched, Chain.found, holds.load_value at_i, stored]
      · have kept := changes _ _ _ _ _ state.store updated
          (set_changes oldItem newItem 0 pairs)
        rwa [Function.update_eq_self] at kept

theorem duplicate_does (represents : Represents state contents) :
    Does state contents (.duplicate h) := by
  intro result contents' means
  obtain ⟨pairs, here, done⟩ := Option.map_eq_some_iff.mp means
  cases done
  obtain ⟨lut, there⟩ := represents.lut_at here
  obtain ⟨size, chains, heap⟩ := represents
  have inside := (List.getElem?_eq_some_iff.mp there).1
  have differ : h ≠ state.luts.length := Nat.ne_of_lt inside
  obtain ⟨chains₁, -, empty⟩ := generate_lut_eq (h := state.luts.length)
    (fun _ => ⟨.garbage, .garbage, 0⟩) (List.nodup_range (n := hashKeys)) heap
  have source : ∀ k ∈ List.range hashKeys,
      putLut (tablesOf state.luts) state.luts.length (lutGenerateLut state.mem).2
        (List.range hashKeys) (h, k) = some (lut k) ∧
      putLists (listsOf contents) state.luts.length (fun _ => []) (List.range hashKeys) (h, k) =
        bucket k pairs := by
    intro k listed
    rw [putLut, putLists, if_neg (fun both => differ both.1), if_neg (fun both => differ both.1)]
    exact ⟨table_at there (List.mem_range.mp listed), list_at here k⟩
  have target : ∀ k ∈ List.range hashKeys,
      putLut (tablesOf state.luts) state.luts.length (lutGenerateLut state.mem).2
        (List.range hashKeys) (state.luts.length, k) = some ((lutGenerateLut state.mem).2 k) ∧
      putLists (listsOf contents) state.luts.length (fun _ => []) (List.range hashKeys)
        (state.luts.length, k) = [] := by
    intro k listed
    rw [putLut, putLists, if_pos ⟨rfl, listed⟩, if_pos ⟨rfl, listed⟩]
    exact ⟨rfl, rfl⟩
  obtain ⟨mem', lut', chains', run, -, all⟩ := duplicate_lut_eq
    (List.nodup_range (n := hashKeys)) differ empty source target
  refine ⟨.lut state.luts.length, ⟨mem', state.luts ++ [lut'], state.store⟩, ?_, ?_, ?_,
    chains', ?_⟩
  · simp only [call, there, Option.bind_eq_bind, Option.bind_some, lutDuplicateLut]
    rw [lutGenerateLut] at run ⊢
    simp only [run, Option.bind_some]
  · rw [size]
    exact Agrees.same _
  · simp [size]
  · rw [put_lut_put, ← tables_of_append] at all
    apply all.congr
    intro place there
    have listed := List.mem_range.mpr (table_bound there)
    rw [lists_of_append, putLists, putLists, size]
    by_cases same : place.1 = contents.length
    · rw [if_pos ⟨same, listed⟩, if_pos same]
    · rw [if_neg (fun both => same both.1), if_neg (fun both => same both.1), if_neg same]

theorem remove_does (represents : Represents state contents) :
    Does state contents (.removeContent h) := by
  intro result contents' means
  obtain ⟨pairs, here, done⟩ := Option.map_eq_some_iff.mp means
  cases done
  obtain ⟨lut, there⟩ := represents.lut_at here
  obtain ⟨size, chains, heap⟩ := represents
  obtain ⟨mem', lut', chains', run, -, all⟩ := remove_lut_eq (List.nodup_range (n := hashKeys))
    heap (fun k listed => table_at there (List.mem_range.mp listed))
  refine ⟨.done, ⟨mem', state.luts.set h lut', state.store⟩, ?_, Agrees.same _, by simp [size],
    chains', ?_⟩
  · simp only [call, there, Option.bind_eq_bind, Option.bind_some, lutRemoveContentLut, run]
  · rw [← tables_of_set there] at all
    apply all.congr
    intro place present
    apply lists_of_put here _ place (table_bound present)
    intro j bound
    rw [if_pos (List.mem_range.mpr bound)]
    rfl

theorem map_does (represents : Represents state contents) (kind : Kind)
    (fun_ : Value → Item → Value) : Does state contents (.map h kind fun_) := by
  intro result contents' means
  obtain ⟨pairs, here, done⟩ := Option.map_eq_some_iff.mp means
  cases done
  obtain ⟨lut, there⟩ := represents.lut_at here
  obtain ⟨size, chains, heap⟩ := represents
  have mapped : ∀ k ∈ kind.hashKeys,
      (bucket k pairs).map (fun pair => (pair.1, fun_ pair.2 pair.1)) =
        (listsOf contents (h, k)).map (fun pair => (pair.1, fun_ pair.2 pair.1)) := by
    intro k _
    rw [list_at here]
  have distinct : kind.hashKeys.Nodup := List.nodup_range'
  obtain ⟨mem', run, all⟩ := map_lut_eq fun_ distinct heap
    (fun k listed => table_at there (hash_keys_bound kind listed)) mapped
  refine ⟨.done, ⟨mem', state.luts, state.store⟩, ?_, Agrees.same _, by simp [size], chains, ?_⟩
  · simp only [call, there, Option.bind_eq_bind, Option.bind_some, run]
  · apply all.congr
    intro place present
    apply lists_of_put here _ place (table_bound present)
    intro j _
    rw [bucket_map]
    · by_cases listed : j ∈ kind.hashKeys
      · rw [if_pos listed]
        apply List.map_congr_left
        intro pair member
        rw [if_pos ((kind_of_bucket kind member).mpr listed)]
      · rw [if_neg listed]
        conv_rhs => rw [← List.map_id (bucket j pairs)]
        apply List.map_congr_left
        intro pair member
        rw [if_neg (fun same => listed ((kind_of_bucket kind member).mp same)), id_eq]
    · intro pair
      split <;> rfl

theorem fold_does (represents : Represents state contents) (kind : Kind) :
    Does state contents (.fold h kind) := by
  intro result contents' means
  obtain ⟨pairs, here, done⟩ := Option.map_eq_some_iff.mp means
  cases done
  obtain ⟨lut, there⟩ := represents.lut_at here
  have kept := represents
  obtain ⟨size, chains, heap⟩ := represents
  have tables : ∀ k ∈ kind.hashKeys, tablesOf state.luts (h, k) = some (lut k) :=
    fun k listed => table_at there (hash_keys_bound kind listed)
  have run := fold_lut_eq (fun pairs value key => pairs ++ [(key, value)]) heap tables
    ([] : Pairs Value)
  have collected : ∀ visited before : Pairs Value,
      visited.foldl (fun pairs pair => pairs ++ [(pair.1, pair.2)]) before = before ++ visited := by
    intro visited
    induction visited with
    | nil => simp
    | cons pair visited ih =>
        intro before
        rw [List.foldl_cons, ih]
        simp
  rw [collected, List.nil_append] at run
  refine ⟨.visits (kind.hashKeys.flatMap (fun k => listsOf contents (h, k))), state, ?_, ?_, kept⟩
  · simp only [call, there, Option.bind_eq_bind, Option.bind_some, run]
  · apply Agrees.visits
    have distinct : kind.hashKeys.Nodup := List.nodup_range'
    have perm := buckets_perm distinct pairs
    have same : pairs.filter (fun pair => pair.1.kind = kind) =
        pairs.filter (fun pair => pair.1.hashKey ∈ kind.hashKeys) := by
      apply List.filter_congr
      intro pair member
      have listed : pair ∈ bucket pair.1.hashKey pairs := List.mem_filter.mpr ⟨member, by simp⟩
      have range := kind_of_bucket kind listed
      simp [range]
    rw [same]
    simpa only [list_at here] using perm

theorem answers_get {α : Type} (slots : List α) (n : Nat) :
    (answers slots (n + 1))[n]? = some slots[n]? := by
  induction n generalizing slots with
  | zero => cases slots <;> rfl
  | succ n ih =>
      rw [answers, List.getElem?_cons_succ, ih]
      cases slots <;> rfl

theorem read_answers {mem : Memory Value} {table : Table} {chain : Chain}
    (holds : Holds mem table chain pairs) {indices : List Nat} {values : List Value}
    (same : List.Forall₂ (fun i value => ∃ key, pairs[i]? = some (key, value)) indices values)
    (n : Nat) :
    (answers (chain.slots indices) n).mapM (readSlot mem) = some (answers values n) := by
  induction n generalizing indices values with
  | zero => rfl
  | succ n ih =>
      cases same with
      | nil =>
          have rest := ih List.Forall₂.nil
          simp only [Chain.slots, List.map_nil] at rest
          simp [answers, Chain.slots, readSlot, rest]
      | cons hit others =>
          obtain ⟨key, at_i⟩ := hit
          have rest := ih others
          simp only [Chain.slots] at rest
          simp [answers, Chain.slots, readSlot, holds.load_value at_i, rest]

/-- What a search that ends has returned, and that no other search returns. -/
theorem search_call {mem : Memory Value} {lut : Lut} {chain : Chain} {oldItem : Item}
    (holds : Holds mem (lut oldItem.hashKey) chain (bucket oldItem.hashKey pairs))
    (nexts : Nat) :
    (search mem lut oldItem nexts).map Prod.fst =
      if SearchEnds oldItem nexts pairs then
        some (answers (chain.slots (positions oldItem 0 (bucket oldItem.hashKey pairs)))
          (nexts + 1))
      else none := by
  have same := positions_hits oldItem
    (List.nil_append (bucket oldItem.hashKey pairs)).symm
  rw [hits_bucket, List.length_nil] at same
  rw [search_eq holds, same.length_eq]
  rfl

theorem search_does (represents : Represents state contents) (oldItem : Item) (nexts : Nat)
    (ends : CallEnds contents (.search h oldItem nexts)) :
    Does state contents (.search h oldItem nexts) := by
  intro result contents' means
  obtain ⟨pairs, here, done⟩ := Option.map_eq_some_iff.mp means
  cases done
  obtain ⟨lut, there⟩ := represents.lut_at here
  obtain ⟨chain, holds, -⟩ := represents.table here there (hash_key_lt oldItem)
  have searched := search_call holds nexts
  rw [if_pos (ends pairs here)] at searched
  obtain ⟨⟨slots, store⟩, run, rfl⟩ := Option.map_eq_some_iff.mp searched
  have same := positions_hits oldItem
    (List.nil_append (bucket oldItem.hashKey pairs)).symm
  rw [hits_bucket, List.length_nil] at same
  refine ⟨_, ⟨state.mem, state.luts, some store⟩, ?_, Agrees.same _, represents⟩
  simp only [call, there, Option.bind_eq_bind, Option.bind_some, run, read_answers holds same]

theorem assign_does (represents : Represents state contents) (oldItem : Item) (nexts : Nat)
    (newItem : Value) (ends : CallEnds contents (.assign h oldItem nexts newItem)) :
    Does state contents (.assign h oldItem nexts newItem) := by
  intro result contents' means
  obtain ⟨pairs, here, done⟩ := Option.map_eq_some_iff.mp means
  cases done
  obtain ⟨lut, there⟩ := represents.lut_at here
  obtain ⟨chain, holds, changes⟩ := represents.table here there (hash_key_lt oldItem)
  have searched := search_call holds nexts
  rw [if_pos (ends pairs here)] at searched
  obtain ⟨⟨slots, store⟩, run, rfl⟩ := Option.map_eq_some_iff.mp searched
  have luts : state.luts.set h (Function.update lut oldItem.hashKey (lut oldItem.hashKey)) =
      state.luts := by
    obtain ⟨inside, at_h⟩ := List.getElem?_eq_some_iff.mp there
    rw [Function.update_eq_self, ← at_h, List.set_getElem_self]
  have slot := answers_get
    (chain.slots (positions oldItem 0 (bucket oldItem.hashKey pairs))) nexts
  rw [Chain.slots, List.getElem?_map] at slot
  cases hit : (positions oldItem 0 (bucket oldItem.hashKey pairs))[nexts]? with
  | none =>
      rw [hit] at slot
      have kept := changes _ _ _ _ _ (some store) holds.updated
        ((set_hit_none newItem hit) ▸ set_changes oldItem newItem nexts pairs)
      rw [luts] at kept
      refine ⟨.done, ⟨state.mem, state.luts, some store⟩, ?_, Agrees.same _, kept⟩
      simp only [call, there, Option.bind_eq_bind, Option.bind_some, run, Chain.slots, slot,
        Option.map_none, writeSlot]
  | some i =>
      rw [hit] at slot
      obtain ⟨stored, updated⟩ := holds.set_hit newItem hit
      have kept := changes _ _ _ _ _ (some store) updated (set_changes oldItem newItem nexts pairs)
      rw [luts] at kept
      refine ⟨.done, ⟨state.mem.writeValue chain i newItem, state.luts, some store⟩, ?_,
        Agrees.same _, kept⟩
      simp only [call, there, Option.bind_eq_bind, Option.bind_some, run, Chain.slots, slot,
        Option.map_some, writeSlot, stored]

/-- Behind the second link there is nothing the source could return. -/
theorem search_none (represents : Represents state contents) (here : contents[h]? = some pairs)
    {lut : Lut} (there : state.luts[h]? = some lut) {oldItem : Item} {nexts : Nat}
    (fails : ¬ SearchEnds oldItem nexts pairs) :
    search state.mem lut oldItem nexts = none := by
  obtain ⟨chain, holds, -⟩ := represents.table here there (hash_key_lt oldItem)
  have searched := search_call holds nexts
  rw [if_neg fails] at searched
  exact Option.map_eq_none_iff.mp searched

theorem call_fails (represents : Represents state contents) {made : Call Value}
    (fails : ¬ CallEnds contents made) : call state made = none := by
  cases made with
  | search h oldItem nexts =>
      simp only [CallEnds, not_forall] at fails
      obtain ⟨pairs, here, fails⟩ := fails
      obtain ⟨lut, there⟩ := represents.lut_at here
      simp only [call, there, Option.bind_eq_bind, Option.bind_some,
        search_none represents here there fails, Option.bind_none]
  | assign h oldItem nexts newItem =>
      simp only [CallEnds, not_forall] at fails
      obtain ⟨pairs, here, fails⟩ := fails
      obtain ⟨lut, there⟩ := represents.lut_at here
      simp only [call, there, Option.bind_eq_bind, Option.bind_some,
        search_none represents here there fails, Option.bind_none]
  | _ => exact absurd trivial fails

theorem call_does (represents : Represents state contents) {made : Call Value}
    (ends : CallEnds contents made) : Does state contents made := by
  cases made with
  | generate => exact generate_does represents
  | insert h oldItem newItem => exact insert_does represents oldItem newItem
  | update h oldItem newItem => exact update_does represents oldItem newItem
  | duplicate h => exact duplicate_does represents
  | removeContent h => exact remove_does represents
  | search h oldItem nexts => exact search_does represents oldItem nexts ends
  | assign h oldItem nexts newItem => exact assign_does represents oldItem nexts newItem ends
  | map h kind fun_ => exact map_does represents kind fun_
  | fold h kind => exact fold_does represents kind

end Calls

section Runs

theorem represents_start : Represents (start : State Value) [] := by
  refine ⟨rfl, fun _ _ => 0, ?_⟩
  have none : tablesOf [] = fun _ => none := by
    funext place
    simp [tablesOf]
  constructor
  · intro place table there
    simp [start, none] at there
  · intro place other frag there
    simp [start, none] at there

theorem run_iff {calls : List (Call Value)} {state : State Value}
    {contents contents' : List (Pairs Value)} {results : List (Result Value)}
    (represents : Represents state contents)
    (means : runMeaning calls contents = some (results, contents')) :
    (∃ results' state', runCalls calls state = some (results', state') ∧
      List.Forall₂ Agrees results' results ∧ Represents state' contents') ↔
      RunEnds calls contents := by
  induction calls generalizing state contents results with
  | nil =>
      cases means
      exact iff_of_true ⟨[], state, rfl, List.Forall₂.nil, represents⟩ trivial
  | cons first calls ih =>
      rw [runMeaning, Option.bind_eq_bind, Option.bind_eq_some_iff] at means
      obtain ⟨⟨result, middle⟩, step, rest⟩ := means
      dsimp only at rest
      rw [Option.bind_eq_bind, Option.bind_eq_some_iff] at rest
      obtain ⟨⟨others, last⟩, rest, done⟩ := rest
      cases done
      by_cases ends : CallEnds contents first
      · obtain ⟨result', state', run, agrees, after⟩ :=
          call_does represents ends result middle step
        have tail := ih after rest
        constructor
        · rintro ⟨results', final, runs, all, reached⟩
          rw [runCalls, run, Option.bind_eq_bind, Option.bind_some] at runs
          obtain ⟨⟨others', final'⟩, later, same⟩ := Option.bind_eq_some_iff.mp runs
          cases same
          refine ⟨ends, ?_⟩
          intro result'' middle' step'
          cases step.symm.trans step'
          exact tail.mp ⟨others', final, later, (List.forall₂_cons.mp all).2, reached⟩
        · rintro ⟨-, later⟩
          obtain ⟨others', final, runs, all, reached⟩ := tail.mpr (later result middle step)
          refine ⟨result' :: others', final, ?_, List.Forall₂.cons agrees all, reached⟩
          simp only [runCalls, run, Option.bind_eq_bind, Option.bind_some, runs]
      · refine iff_of_false ?_ (fun all => ends all.1)
        rintro ⟨results', final, runs, -⟩
        rw [runCalls, call_fails represents ends] at runs
        cases runs

/-- Look-up tables are multimaps that keep the order of insertion, in every run whose searches
end in time; the calls of any other search read memory that was never written. -/
theorem runs_are_multimaps_iff (calls : List (Call Value)) (results : List (Result Value))
    (contents : List (Pairs Value)) (means : runMeaning calls [] = some (results, contents)) :
    (∃ results' state, runCalls calls start = some (results', state) ∧
      List.Forall₂ Agrees results' results ∧ Represents state contents) ↔
      RunEnds calls [] :=
  run_iff represents_start means

/-- One pair, its hit, and then one call after the other that is to return `NULL`. -/
def searching (nexts : Nat) : List (Call Nat) :=
  [.generate, .insert 0 (.pointer 32) 7, .search 0 (.pointer 32) nexts]

theorem searching_means (nexts : Nat) : runMeaning (searching nexts) [] =
    some ([.lut 0, .done, .slots (answers [7] (nexts + 1))], [[(.pointer 32, 7)]]) := rfl

theorem runs_are_multimaps_searching :
    (∃ results' state, runCalls (searching 9) start = some (results', state) ∧
      List.Forall₂ Agrees results' [.lut 0, .done, .slots (answers [7] 10)] ∧
      Represents state [[(.pointer 32, 7)]]) ↔ RunEnds (searching 9) [] :=
  runs_are_multimaps_iff (searching 9) _ _ (searching_means 9)

/-- The tenth call behind the hit follows a word that was never written. -/
theorem searching_too_far : ¬ ∃ results' state, runCalls (searching 10) start =
      some (results', state) ∧
    List.Forall₂ Agrees results' [.lut 0, .done, .slots (answers [7] 11)] ∧
    Represents state [[(.pointer 32, 7)]] := by
  have undefined : (runCalls (searching 10) start).isSome = false := by decide +kernel
  rintro ⟨results', state, runs, -⟩
  rw [runs] at undefined
  cases undefined

end Runs

end Sac2c.LookUpTable
