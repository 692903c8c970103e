import Mathlib.Data.List.Sort
import Mathlib.Data.Int.Interval
import Mathlib.Data.Finset.Card

/-!
The trie of the lexer, scanparse/trie.c. Each node keeps its children in an array that is
sorted by symbol and searched by bsearch. A trie stands for a dictionary of words that
also tells which words can be continued, which is what the scanning of operators asks.
-/

namespace Sac2c.Tries

section Search

variable {α : Type}

/-- bsearch of the library over the part of the array from l up to u; what it returns is
the place of an element. -/
def bsearch (compar : α → Int) (base : List α) : Nat → Nat → Nat → Option Nat
  | 0, _, _ => none
  | fuel + 1, l, u =>
      if l < u then do
        let idx := (l + u) / 2
        let comparison := compar (← base[idx]?)
        if comparison < 0 then bsearch compar base fuel l idx
        else if 0 < comparison then bsearch compar base fuel (idx + 1) u
        else some idx
      else none

variable {compar : α → Int} {base : List α}

theorem bsearch_some {fuel l u i : Nat} (found : bsearch compar base fuel l u = some i) :
    ∃ e, base[i]? = some e ∧ compar e = 0 := by
  induction fuel generalizing l u with
  | zero => cases found
  | succ fuel ih =>
      simp only [bsearch] at found
      split at found
      · obtain ⟨e, here, found⟩ := Option.bind_eq_some_iff.mp found
        split at found
        · exact ih found
        · split at found
          · exact ih found
          · cases found
            exact ⟨e, here, by omega⟩
      · cases found

/-- In a sorted array nothing is overlooked. -/
theorem bsearch_none (sorted : base.Pairwise fun a b => compar b < compar a) {fuel l u : Nat}
    (enough : u - l ≤ fuel) (inside : u ≤ base.length)
    (missed : bsearch compar base fuel l u = none) {i : Nat} (above : l ≤ i) (below : i < u)
    {e : α} (here : base[i]? = some e) : compar e ≠ 0 := by
  induction fuel generalizing l u with
  | zero => omega
  | succ fuel ih =>
      have order {j k : Nat} {a b : α} (less : j < k) (left : base[j]? = some a)
          (right : base[k]? = some b) : compar b < compar a := by
        obtain ⟨_, rfl⟩ := List.getElem?_eq_some_iff.mp left
        obtain ⟨_, rfl⟩ := List.getElem?_eq_some_iff.mp right
        exact List.pairwise_iff_getElem.mp sorted _ _ _ _ less
      obtain ⟨middle, at_middle⟩ : ∃ m, base[(l + u) / 2]? = some m :=
        ⟨_, List.getElem?_eq_getElem (by omega)⟩
      simp only [bsearch, Option.bind_eq_bind, at_middle, Option.bind_some] at missed
      rw [if_pos (by omega)] at missed
      split at missed
      · by_cases left : i < (l + u) / 2
        · exact ih (by omega) (by omega) missed above left
        · rcases Nat.lt_or_eq_of_le (Nat.le_of_not_lt left) with after | same
          · have := order after at_middle here
            omega
          · rw [← same, at_middle, Option.some.injEq] at here
            rw [← here]
            omega
      · split at missed
        · by_cases right : (l + u) / 2 < i
          · exact ih (by omega) inside missed right below
          · rcases Nat.lt_or_eq_of_le (Nat.le_of_not_lt right) with before | same
            · have := order before here at_middle
              omega
            · rw [same, at_middle, Option.some.injEq] at here
              rw [← here]
              omega
        · cases missed

end Search

section Model

structure Child (T : Type) where
  symb : Int
  last : Int
  next : Option T

/-- A trie, with the children that are counted. -/
inductive Trie where
  | mk (childrenSize : Nat) (children : List (Child Trie))

namespace Trie

def childrenSize : Trie → Nat
  | mk size _ => size

def children : Trie → List (Child Trie)
  | mk _ children => children

@[simp] theorem childrenSize_mk (size : Nat) (children : List (Child Trie)) :
    (mk size children).childrenSize = size := rfl

@[simp] theorem children_mk (size : Nat) (children : List (Child Trie)) :
    (mk size children).children = children := rfl

end Trie

/-- TRIE_NOT_LAST. -/
def notLast : Int := -1

/-- trie_new, with room for TRIE_CHILDREN children. -/
def trieNew : Trie := ⟨4, []⟩

def cmpChildren (c1 c2 : Child Trie) : Int := c1.symb - c2.symb

/-- trie_search_child, which returns the place of the child. -/
def trieSearchChild (trie : Trie) (symb : Int) : Option Nat :=
  let childrenCount := trie.children.length
  if childrenCount = 0 then none
  else bsearch (cmpChildren ⟨symb, 0, none⟩) trie.children childrenCount 0 childrenCount

/-- The children in the order of cmp_children. -/
def qsort (children : List (Child Trie)) : List (Child Trie) :=
  children.insertionSort fun c1 c2 => cmpChildren c1 c2 ≤ 0

/-- trie_add_word. A word is a pointer to char together with its length; the write of a
new child needs its place in the array. The successor is reached through its pointer, so
what is added there is the same before and after the children are sorted. -/
def trieAddWord : Trie → List Int8 → Int → Option Trie
  | _, [], _ => none
  | trie, c :: word, info =>
      match trieSearchChild trie c.toInt with
      | some i => do
          let child ← trie.children[i]?
          if word = [] then
            some ⟨trie.childrenSize, trie.children.set i { child with last := info }⟩
          else do
            let nxt ← trieAddWord (child.next.getD trieNew) word info
            some ⟨trie.childrenSize, trie.children.set i { child with next := some nxt }⟩
      | none => do
          let childrenCount := trie.children.length
          let childrenSize :=
            if trie.childrenSize ≤ childrenCount then trie.childrenSize * 2 % 2 ^ 32
            else trie.childrenSize
          let child ←
            if word = [] then some ⟨c.toInt, info, none⟩
            else (trieAddWord trieNew word info).map fun nxt => ⟨c.toInt, notLast, some nxt⟩
          if childrenCount < childrenSize then
            some ⟨childrenSize, qsort (trie.children ++ [child])⟩
          else none

/-- trie_search; none for the assertion on the length. -/
def trieSearch : Option Trie → List Int8 → Option Int
  | _, [] => none
  | none, _ :: _ => some notLast
  | some trie, c :: word =>
      match trieSearchChild trie c.toInt with
      | none => some notLast
      | some i => do
          let child ← trie.children[i]?
          if word = [] then some child.last else trieSearch child.next word

/-- trie_check_prefix, with what it stores in last and what it returns. -/
def trieCheckPrefix : Option Trie → List Int8 → Option (Int × Option Trie)
  | _, [] => none
  | none, _ :: _ => some (notLast, none)
  | some trie, c :: word =>
      match trieSearchChild trie c.toInt with
      | none => some (notLast, none)
      | some i => do
          let child ← trie.children[i]?
          if word = [] then some (child.last, child.next) else trieCheckPrefix child.next word

theorem search_check (trie : Option Trie) (word : List Int8) :
    trieSearch trie word = (trieCheckPrefix trie word).map Prod.fst := by
  induction word generalizing trie with
  | nil => cases trie <;> rfl
  | cons c word ih =>
      cases trie with
      | none => rfl
      | some trie =>
          simp only [trieSearch, trieCheckPrefix]
          cases trieSearchChild trie c.toInt with
          | none => rfl
          | some i =>
              simp only
              cases trie.children[i]? with
              | none => rfl
              | some child =>
                  simp only [Option.bind_eq_bind, Option.bind_some]
                  split
                  · rfl
                  · exact ih child.next

end Model

section Nodes

/-- What the array of children of a node keeps. -/
structure Node (trie : Trie) : Prop where
  sorted : trie.children.Pairwise fun c1 c2 => c1.symb < c2.symb
  chars : ∀ child ∈ trie.children, -128 ≤ child.symb ∧ child.symb < 128
  room : trie.children.length ≤ trie.childrenSize
  positive : 0 < trie.childrenSize
  small : trie.childrenSize ≤ 512

/-- Every node that is reached from this one keeps its array. -/
inductive Wf : Trie → Prop
  | node {trie : Trie} (here : Node trie)
      (below : ∀ child ∈ trie.children, ∀ next, child.next = some next → Wf next) : Wf trie

theorem wf_here {trie : Trie} : Wf trie → Node trie
  | .node here _ => here

theorem wf_next {trie : Trie} : Wf trie →
    ∀ child ∈ trie.children, ∀ next, child.next = some next → Wf next
  | .node _ below => below

theorem node_new : Node trieNew :=
  ⟨.nil, by simp [trieNew], by decide, by decide, by decide⟩

theorem wf_new : Wf trieNew := .node node_new (by simp [trieNew])

theorem symbols_distinct {children : List (Child Trie)}
    (sorted : children.Pairwise fun c1 c2 => c1.symb < c2.symb) :
    (children.map Child.symb).Nodup := by
  rw [List.nodup_iff_pairwise_ne, List.pairwise_map]
  exact sorted.imp fun less => Int.ne_of_lt less

/-- No two children have one symbol, so there are at most 256 of them. -/
theorem children_few {children : List (Child Trie)}
    (sorted : children.Pairwise fun c1 c2 => c1.symb < c2.symb)
    (chars : ∀ child ∈ children, -128 ≤ child.symb ∧ child.symb < 128) :
    children.length ≤ 256 := by
  have distinct := symbols_distinct sorted
  have inside : (children.map Child.symb).toFinset ⊆ Finset.Ico (-128) 128 := by
    intro symb member
    obtain ⟨child, there, rfl⟩ := List.mem_map.mp (List.mem_toFinset.mp member)
    exact Finset.mem_Ico.mpr (chars child there)
  have few := Finset.card_le_card inside
  have codes : (Finset.Ico (-128 : Int) 128).card = 256 := by simp
  rwa [List.toFinset_card_of_nodup distinct, List.length_map, codes] at few

/-- The child for a symbol. -/
def childFor (trie : Trie) (symb : Int) : Option (Child Trie) :=
  trie.children.find? fun child => child.symb = symb

variable {trie : Trie}

theorem child_for_iff (node : Node trie) {symb : Int} {child : Child Trie} :
    childFor trie symb = some child ↔ child ∈ trie.children ∧ child.symb = symb := by
  constructor
  · intro found
    exact ⟨List.mem_of_find?_eq_some found, by simpa using List.find?_some found⟩
  · rintro ⟨member, rfl⟩
    cases found : childFor trie child.symb with
    | none =>
        have missed := List.find?_eq_none.mp found child member
        simp at missed
    | some other =>
        have symb : other.symb = child.symb := by simpa using List.find?_some found
        rw [List.inj_on_of_nodup_map (symbols_distinct node.sorted)
          (List.mem_of_find?_eq_some found) member symb]

theorem search_child_some {symb : Int} {i : Nat} (node : Node trie)
    (found : trieSearchChild trie symb = some i) :
    ∃ child, trie.children[i]? = some child ∧ childFor trie symb = some child := by
  simp only [trieSearchChild] at found
  split at found
  · cases found
  · obtain ⟨child, here, equal⟩ := bsearch_some found
    refine ⟨child, here, (child_for_iff node).mpr ⟨List.mem_of_getElem? here, ?_⟩⟩
    simp only [cmpChildren] at equal
    omega

/-- The binary search misses no child, as the children are sorted. -/
theorem search_child_none {symb : Int} (node : Node trie)
    (missed : trieSearchChild trie symb = none) : childFor trie symb = none := by
  simp only [childFor, List.find?_eq_none, decide_eq_true_eq]
  intro child member equal
  obtain ⟨i, inside, rfl⟩ := List.getElem_of_mem member
  simp only [trieSearchChild] at missed
  rw [if_neg (by omega)] at missed
  have sorted : trie.children.Pairwise fun c1 c2 =>
      cmpChildren ⟨symb, 0, none⟩ c2 < cmpChildren ⟨symb, 0, none⟩ c1 :=
    node.sorted.imp fun less => by
      simp only [cmpChildren]
      omega
  refine bsearch_none sorted (by omega) (Nat.le_refl _) missed (Nat.zero_le _) inside
    (List.getElem?_eq_getElem inside) ?_
  simp only [cmpChildren]
  omega

/-- What a node tells about a symbol. -/
def entry (trie : Trie) (symb : Int) : Int × Option Trie :=
  match childFor trie symb with
  | none => (notLast, none)
  | some child => (child.last, child.next)

theorem check_cons (node : Node trie) (c : Int8) (word : List Int8) :
    trieCheckPrefix (some trie) (c :: word) =
      if word = [] then some (entry trie c.toInt)
      else trieCheckPrefix (entry trie c.toInt).2 word := by
  simp only [trieCheckPrefix]
  cases found : trieSearchChild trie c.toInt with
  | none =>
      simp only [entry, search_child_none node found]
      split
      · rfl
      · cases word with
        | nil => contradiction
        | cons => rfl
  | some i =>
      obtain ⟨child, here, child_found⟩ := search_child_some node found
      simp [entry, here, child_found]

end Nodes

section Adding

variable {trie trie' : Trie} {child : Child Trie}

/-- The trie has this child for its symbol, and otherwise the children it had. -/
structure Put (trie : Trie) (child : Child Trie) (trie' : Trie) : Prop where
  node : Node trie'
  mem_iff : ∀ other, other ∈ trie'.children ↔
    other = child ∨ other ∈ trie.children ∧ other.symb ≠ child.symb

theorem put_child (node : Node trie) (put : Put trie child trie') (symb : Int) :
    childFor trie' symb = if symb = child.symb then some child else childFor trie symb := by
  split
  · rename_i same
    exact (child_for_iff put.node).mpr ⟨(put.mem_iff child).mpr (.inl rfl), same.symm⟩
  · rename_i different
    refine Option.ext fun other => ?_
    rw [child_for_iff put.node, child_for_iff node, put.mem_iff]
    constructor
    · rintro ⟨rfl | ⟨member, _⟩, found⟩
      · exact absurd found.symm different
      · exact ⟨member, found⟩
    · rintro ⟨member, rfl⟩
      exact ⟨.inr ⟨member, different⟩, rfl⟩

theorem put_entry (node : Node trie) (put : Put trie child trie') (symb : Int) :
    entry trie' symb = if symb = child.symb then (child.last, child.next) else entry trie symb := by
  rw [entry, put_child node put]
  by_cases same : symb = child.symb
  · rw [if_pos same, if_pos same]
  · rw [if_neg same, if_neg same, entry]

theorem put_wf (wf : Wf trie) (put : Put trie child trie')
    (below : ∀ next, child.next = some next → Wf next) : Wf trie' := by
  refine .node put.node fun other member => ?_
  rcases (put.mem_iff other).mp member with rfl | ⟨before, _⟩
  · exact below
  · exact wf_next wf other before

/-- A child that is there is changed in its place. -/
theorem set_put (child : Child Trie) {old : Child Trie} {i : Nat} (node : Node trie)
    (here : trie.children[i]? = some old) (symb : child.symb = old.symb) :
    Put trie child ⟨trie.childrenSize, trie.children.set i child⟩ := by
  obtain ⟨inside, rfl⟩ := List.getElem?_eq_some_iff.mp here
  have symbols : (trie.children.set i child).map Child.symb = trie.children.map Child.symb := by
    rw [List.map_set, symb, ← List.map_set, List.set_getElem_self]
  have sorted : (trie.children.set i child).Pairwise fun c1 c2 => c1.symb < c2.symb := by
    have before := List.pairwise_map.mpr node.sorted
    rw [← symbols] at before
    exact List.pairwise_map.mp before
  have new : child ∈ trie.children.set i child := List.mem_set inside _
  have codes : ∀ other ∈ trie.children.set i child, -128 ≤ other.symb ∧ other.symb < 128 := by
    intro other member
    rcases List.mem_or_eq_of_mem_set member with before | rfl
    · exact node.chars other before
    · rw [symb]
      exact node.chars _ (List.getElem_mem inside)
  refine ⟨⟨sorted, codes, ?_, node.positive, node.small⟩, fun other => ⟨fun member => ?_, ?_⟩⟩
  · simpa using node.room
  · by_cases same : other.symb = child.symb
    · exact .inl (List.inj_on_of_nodup_map (symbols_distinct sorted) member new same)
    · rcases List.mem_or_eq_of_mem_set member with before | rfl
      · exact .inr ⟨before, same⟩
      · exact .inl rfl
  · rintro (rfl | ⟨before, different⟩)
    · exact new
    · obtain ⟨j, there, rfl⟩ := List.getElem_of_mem before
      have apart : i ≠ j := by
        rintro rfl
        exact different symb.symm
      exact List.mem_of_getElem? ((List.getElem?_set_ne apart).trans
        (List.getElem?_eq_getElem there))

instance : Std.Total fun c1 c2 : Child Trie => cmpChildren c1 c2 ≤ 0 :=
  ⟨fun c1 c2 => by
    simp only [cmpChildren]
    omega⟩

instance : IsTrans (Child Trie) fun c1 c2 => cmpChildren c1 c2 ≤ 0 :=
  ⟨fun c1 c2 c3 => by
    simp only [cmpChildren]
    omega⟩

/-- A child for a new symbol is appended, and the children are sorted again. -/
theorem append_put (child : Child Trie) {size : Nat} (node : Node trie) (fresh : childFor trie child.symb = none)
    (char : -128 ≤ child.symb ∧ child.symb < 128)
    (grown : size = if trie.childrenSize ≤ trie.children.length then
      trie.childrenSize * 2 % 2 ^ 32 else trie.childrenSize) :
    trie.children.length < size ∧ Put trie child ⟨size, qsort (trie.children ++ [child])⟩ := by
  have new : ∀ other ∈ trie.children, other.symb ≠ child.symb := by
    simpa [childFor, List.find?_eq_none] using fresh
  have member (other : Child Trie) :
      other ∈ qsort (trie.children ++ [child]) ↔ other ∈ trie.children ∨ other = child := by
    simp [qsort]
  have sorted : (qsort (trie.children ++ [child])).Pairwise fun c1 c2 => c1.symb < c2.symb := by
    have order := List.pairwise_insertionSort (fun c1 c2 : Child Trie => cmpChildren c1 c2 ≤ 0)
      (trie.children ++ [child])
    have distinct : ((qsort (trie.children ++ [child])).map Child.symb).Nodup := by
      rw [qsort, ((List.perm_insertionSort _ _).map _).nodup_iff, List.map_append, List.nodup_append]
      exact ⟨symbols_distinct node.sorted, by simp, by simpa using new⟩
    rw [List.nodup_iff_pairwise_ne, List.pairwise_map] at distinct
    refine (order.and distinct).imp fun {c1 c2} both => ?_
    simp only [cmpChildren] at both
    omega
  have codes : ∀ other ∈ qsort (trie.children ++ [child]),
      -128 ≤ other.symb ∧ other.symb < 128 := by
    intro other there
    rcases (member other).mp there with before | rfl
    · exact node.chars other before
    · exact char
  have length : (qsort (trie.children ++ [child])).length = trie.children.length + 1 := by
    simp [qsort]
  have few := children_few sorted codes
  have room := node.room
  have positive := node.positive
  have small := node.small
  -- the array is doubled only if it is full, with at most 255 children
  have enough : trie.children.length < size ∧ size ≤ 512 := by
    rw [grown]
    split <;> omega
  refine ⟨enough.1, ⟨sorted, codes, ?_, ?_, enough.2⟩, fun other => ?_⟩
  · simp only [Trie.children_mk, Trie.childrenSize_mk, length]
    omega
  · simp only [Trie.childrenSize_mk]
    omega
  · simp only [Trie.children_mk, member]
    constructor
    · rintro (before | rfl)
      · exact .inr ⟨before, new other before⟩
      · exact .inl rfl
    · rintro (rfl | ⟨before, _⟩)
      · exact .inr rfl
      · exact .inl before

/-- What adding a word does at the node where it starts. -/
theorem add_put (node : Node trie) (c : Int8) {word : List Int8} {info : Int} {sub : Trie}
    (below : word ≠ [] →
      trieAddWord ((entry trie c.toInt).2.getD trieNew) word info = some sub) :
    ∃ trie' child, trieAddWord trie (c :: word) info = some trie' ∧ Put trie child trie' ∧
      child.symb = c.toInt ∧ (child.last, child.next) =
        if word = [] then (info, (entry trie c.toInt).2)
        else ((entry trie c.toInt).1, some sub) := by
  have char : -128 ≤ c.toInt ∧ c.toInt < 128 := ⟨c.le_toInt, c.toInt_lt⟩
  simp only [trieAddWord]
  cases found : trieSearchChild trie c.toInt with
  | some i =>
      obtain ⟨old, here, child_found⟩ := search_child_some node found
      have old_symb := ((child_for_iff node).mp child_found).2
      have same : entry trie c.toInt = (old.last, old.next) := by simp [entry, child_found]
      rw [same] at below ⊢
      simp only [here, Option.bind_eq_bind, Option.bind_some]
      by_cases ends : word = []
      · simp only [if_pos ends]
        exact ⟨_, _, rfl, set_put { old with last := info } node here rfl,
          old_symb, rfl⟩
      · simp only [if_neg ends, below ends, Option.bind_some]
        exact ⟨_, _, rfl, set_put { old with next := some sub } node here rfl,
          old_symb, rfl⟩
  | none =>
      have missed := search_child_none node found
      have same : entry trie c.toInt = (notLast, none) := by simp [entry, missed]
      rw [same] at below ⊢
      by_cases ends : word = []
      · obtain ⟨room, put⟩ := append_put ⟨c.toInt, info, none⟩ node missed char rfl
        simp only [if_pos ends, Option.bind_eq_bind, Option.bind_some, if_pos room]
        exact ⟨_, _, rfl, put, rfl, rfl⟩
      · obtain ⟨room, put⟩ :=
          append_put ⟨c.toInt, notLast, some sub⟩ node missed char rfl
        have added := below ends
        simp only [Option.getD_none] at added
        simp only [if_neg ends, added, Option.map_some, Option.bind_eq_bind, Option.bind_some,
          if_pos room]
        exact ⟨_, _, rfl, put, rfl, rfl⟩

end Adding

section Dictionaries

/-- A dictionary: the info of each word, and the words that can be continued. -/
structure Dictionary where
  info : List Int8 → Int
  more : List Int8 → Prop

namespace Dictionary

def empty : Dictionary := ⟨fun _ => notLast, fun _ => False⟩

def add (dict : Dictionary) (word : List Int8) (info : Int) : Dictionary where
  info other := if other = word then info else dict.info other
  more other := dict.more other ∨ ∃ tail ≠ [], word = other ++ tail

theorem add_info (dict : Dictionary) (word : List Int8) (info : Int) (other : List Int8) :
    (dict.add word info).info other = if other = word then info else dict.info other := rfl

theorem add_more (dict : Dictionary) (word : List Int8) (info : Int) (other : List Int8) :
    (dict.add word info).more other ↔
      dict.more other ∨ ∃ tail ≠ [], word = other ++ tail := Iff.rfl

/-- The words behind a first character. -/
def behind (dict : Dictionary) (c : Int8) : Dictionary :=
  ⟨fun word => dict.info (c :: word), fun word => dict.more (c :: word)⟩

end Dictionary

/-- What is found in the trie is what the dictionary has. -/
def Means (trie : Option Trie) (dict : Dictionary) : Prop :=
  ∀ word ≠ [], ∃ next, trieCheckPrefix trie word = some (dict.info word, next) ∧
    (next.isSome = true ↔ dict.more word)

variable {trie : Trie} {dict : Dictionary}

theorem means_new : Means (some trieNew) .empty := by
  intro word nonempty
  cases word with
  | nil => exact absurd rfl nonempty
  | cons c word => exact ⟨none, rfl, by simp [Dictionary.empty]⟩

/-- A sub-trie means what is behind its character. -/
theorem means_behind (node : Node trie) (means : Means (some trie) dict) (c : Int8) :
    Means (entry trie c.toInt).2 (dict.behind c) := by
  intro word nonempty
  obtain ⟨next, checked, more⟩ := means (c :: word) (by simp)
  rw [check_cons node, if_neg nonempty] at checked
  exact ⟨next, checked, more⟩

theorem means_default {trie : Option Trie} (means : Means trie dict) :
    Means (some (trie.getD trieNew)) dict := by
  cases trie with
  | some trie => exact means
  | none =>
      intro word nonempty
      obtain ⟨next, checked, more⟩ := means word nonempty
      cases word with
      | nil => exact absurd rfl nonempty
      | cons c word => exact ⟨next, checked, more⟩

theorem means_entry (node : Node trie) (means : Means (some trie) dict) (c : Int8) :
    (entry trie c.toInt).1 = dict.info [c] ∧
      ((entry trie c.toInt).2.isSome = true ↔ dict.more [c]) := by
  obtain ⟨next, checked, more⟩ := means [c] (by simp)
  rw [check_cons node, if_pos rfl, Option.some.injEq] at checked
  rw [checked]
  exact ⟨rfl, more⟩

theorem means_congr {trie : Option Trie} {dict dict' : Dictionary}
    (same : ∀ word ≠ [], dict.info word = dict'.info word ∧ (dict.more word ↔ dict'.more word))
    (means : Means trie dict) : Means trie dict' := by
  intro word nonempty
  obtain ⟨next, checked, more⟩ := means word nonempty
  obtain ⟨info, continued⟩ := same word nonempty
  exact ⟨next, by rw [checked, info], more.trans continued⟩

theorem means_of_entries (node : Node trie)
    (entries : ∀ c : Int8, (entry trie c.toInt).1 = dict.info [c] ∧
      ((entry trie c.toInt).2.isSome = true ↔ dict.more [c]) ∧
      Means (entry trie c.toInt).2 (dict.behind c)) : Means (some trie) dict := by
  intro word nonempty
  cases word with
  | nil => exact absurd rfl nonempty
  | cons c word =>
      obtain ⟨info, more, below⟩ := entries c
      rw [check_cons node]
      split
      · rename_i ends
        exact ⟨_, by rw [ends, ← info], by rw [more, ends]⟩
      · rename_i longer
        exact below word longer

theorem entry_wf (wf : Wf trie) {symb : Int} {next : Trie} (found : (entry trie symb).2 = some next) :
    Wf next := by
  simp only [entry] at found
  split at found
  · cases found
  · rename_i child here
    exact wf_next wf child ((child_for_iff (wf_here wf)).mp here).1 next found

theorem entry_default_wf (wf : Wf trie) (symb : Int) :
    Wf ((entry trie symb).2.getD trieNew) := by
  cases found : (entry trie symb).2 with
  | none => exact wf_new
  | some next => exact entry_wf wf found

theorem behind_add_same (dict : Dictionary) (c : Int8) (word : List Int8) (info : Int) :
    (dict.add (c :: word) info).behind c = (dict.behind c).add word info := by
  simp [Dictionary.add, Dictionary.behind]

theorem behind_add_other (dict : Dictionary) {c other : Int8} (different : other ≠ c)
    (word : List Int8) (info : Int) :
    (dict.add (c :: word) info).behind other = dict.behind other := by
  simp [Dictionary.add, Dictionary.behind, different, Ne.symm different]

/-- Adding a word adds it to the dictionary, by an induction on the word. -/
theorem add_means {word : List Int8} (wf : Wf trie) (means : Means (some trie) dict)
    (nonempty : word ≠ []) (info : Int) :
    ∃ trie', trieAddWord trie word info = some trie' ∧ Wf trie' ∧
      Means (some trie') (dict.add word info) := by
  induction word generalizing trie dict with
  | nil => exact absurd rfl nonempty
  | cons c word ih =>
      have node := wf_here wf
      have old_entry := means_entry node means c
      have old_behind := means_behind node means c
      obtain ⟨sub, below, sub_wf, sub_means⟩ : ∃ sub, (word ≠ [] →
          trieAddWord ((entry trie c.toInt).2.getD trieNew) word info = some sub) ∧
          (word ≠ [] → Wf sub) ∧
          (word ≠ [] → Means (some sub) ((dict.behind c).add word info)) := by
        by_cases ends : word = []
        · exact ⟨trieNew, absurd ends, absurd ends, absurd ends⟩
        · obtain ⟨sub, added, sub_wf, sub_means⟩ :=
            ih (entry_default_wf wf c.toInt) (means_default old_behind) ends
          exact ⟨sub, fun _ => added, fun _ => sub_wf, fun _ => sub_means⟩
      obtain ⟨trie', child, added, put, symb, fields⟩ := add_put node c below
      have new_entry : entry trie' c.toInt = (child.last, child.next) := by
        rw [put_entry node put, if_pos symb.symm]
      have other_entry {other : Int8} (different : other ≠ c) :
          entry trie' other.toInt = entry trie other.toInt := by
        rw [put_entry node put, symb, if_neg fun same => different (Int8.toInt_inj.mp same)]
      refine ⟨trie', added, put_wf wf put fun next found => ?_,
        means_of_entries put.node fun other => ?_⟩
      · have child_next := congrArg Prod.snd fields
        simp only [found] at child_next
        split at child_next
        · exact entry_wf wf child_next.symm
        · rename_i longer
          cases child_next
          exact sub_wf longer
      · by_cases same : other = c
        · subst other
          rw [new_entry, fields]
          by_cases ends : word = []
          -- the word ends here: only the info of this character is new
          · subst word
            refine ⟨by simp [Dictionary.add], by simp [Dictionary.add, old_entry.2], ?_⟩
            refine means_congr (fun tail longer => ?_) old_behind
            simp [Dictionary.add, Dictionary.behind, longer]
          · rw [if_neg ends, behind_add_same]
            refine ⟨?_, ?_, sub_means ends⟩
            · simp [Dictionary.add, Ne.symm ends, old_entry.1]
            · simp [Dictionary.add, ends]
        · rw [other_entry same, behind_add_other dict same]
          obtain ⟨last, more⟩ := means_entry node means other
          refine ⟨?_, ?_, means_behind node means other⟩
          · simp [Dictionary.add, same, last]
          · simp [Dictionary.add, Ne.symm same, more]

end Dictionaries

section Runs

/-- A word that can be added or searched for. -/
structure Word where
  chars : List Int8
  nonempty : chars ≠ []
  deriving DecidableEq

/-- A sequence of calls of trie_add_word. -/
def addWords (trie : Trie) (adds : List (Word × Int)) : Option Trie :=
  adds.foldlM (fun trie add => trieAddWord trie add.1.chars add.2) trie

/-- The info of the last add of exactly this word. -/
def lastInfo (adds : List (Word × Int)) (word : Word) : Int :=
  match adds.reverse.find? fun add => add.1.chars = word.chars with
  | some add => add.2
  | none => notLast

/-- Some word that is added goes on behind this word. -/
def Extended (adds : List (Word × Int)) (word : Word) : Prop :=
  ∃ add ∈ adds, ∃ tail ≠ [], add.1.chars = word.chars ++ tail

def dictionaryOf (adds : List (Word × Int)) : Dictionary :=
  adds.foldl (fun dict add => dict.add add.1.chars add.2) .empty

theorem dictionary_info (adds : List (Word × Int)) (word : Word) :
    (dictionaryOf adds).info word.chars = lastInfo adds word := by
  induction adds using List.reverseRecOn with
  | nil => rfl
  | append_singleton adds add ih =>
      simp only [dictionaryOf, List.foldl_append, List.foldl_cons, List.foldl_nil] at ih ⊢
      rw [Dictionary.add_info]
      by_cases same : word.chars = add.1.chars
      · simp [lastInfo, same]
      · simp [lastInfo, same, Ne.symm same, ih]

theorem dictionary_more (adds : List (Word × Int)) (word : Word) :
    (dictionaryOf adds).more word.chars ↔ Extended adds word := by
  induction adds using List.reverseRecOn with
  | nil => simp [dictionaryOf, Dictionary.empty, Extended]
  | append_singleton adds add ih =>
      simp only [dictionaryOf, List.foldl_append, List.foldl_cons, List.foldl_nil] at ih ⊢
      rw [Dictionary.add_more, ih]
      simp only [Extended, List.mem_append, List.mem_singleton]
      constructor
      · rintro (⟨before, member, longer⟩ | longer)
        · exact ⟨before, .inl member, longer⟩
        · exact ⟨add, .inr rfl, longer⟩
      · rintro ⟨before, member | rfl, longer⟩
        · exact .inl ⟨before, member, longer⟩
        · exact .inr longer

theorem run_means (adds : List (Word × Int)) {trie : Trie} {dict : Dictionary} (wf : Wf trie)
    (means : Means (some trie) dict) :
    ∃ trie', addWords trie adds = some trie' ∧ Wf trie' ∧
      Means (some trie') (adds.foldl (fun dict add => dict.add add.1.chars add.2) dict) := by
  induction adds generalizing trie dict with
  | nil => exact ⟨trie, rfl, wf, means⟩
  | cons add adds ih =>
      obtain ⟨next, added, next_wf, next_means⟩ := add_means wf means add.1.nonempty add.2
      obtain ⟨trie', run, result⟩ := ih next_wf next_means
      refine ⟨trie', ?_, result⟩
      simp only [addWords, List.foldlM_cons, added, Option.bind_eq_bind, Option.bind_some]
      exact run

/-- The trie after any sequence of adds is the dictionary of the words added, and the
children of each of its nodes are sorted and without duplicates. -/
theorem add_words (adds : List (Word × Int)) :
    ∃ trie, addWords trieNew adds = some trie ∧ Wf trie ∧ ∀ word : Word,
      trieSearch (some trie) word.chars = some (lastInfo adds word) ∧
      ∃ next, trieCheckPrefix (some trie) word.chars = some (lastInfo adds word, next) ∧
        (next.isSome = true ↔ Extended adds word) := by
  obtain ⟨trie, run, wf, means⟩ := run_means adds wf_new means_new
  refine ⟨trie, run, wf, fun word => ?_⟩
  obtain ⟨next, checked, more⟩ := means word.chars word.nonempty
  have info := dictionary_info adds word
  rw [dictionaryOf] at info
  rw [info] at checked
  refine ⟨?_, next, checked, more.trans (dictionary_more adds word)⟩
  rw [search_check, checked]
  rfl

example :
    ((addWords trieNew [(⟨[43, 43], by decide⟩, 2), (⟨[43], by decide⟩, 1)]).bind fun trie =>
      (trieCheckPrefix (some trie) [43]).map fun result => (result.1, result.2.isSome)) =
    some (1, true) := by
  decide

end Runs

end Sac2c.Tries
