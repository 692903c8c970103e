import Sac2c.LutSearch
import Mathlib.Data.List.Perm.Basic
import Mathlib.Data.List.Forall2
import Mathlib.Data.List.Nodup

/-!
What a look-up table is for: pairs in the order in which they were inserted,
found by their keys. A collision table holds those with one hash key.
-/

namespace Sac2c.LookUpTable

variable {Value : Type}

/-- The values under a key. -/
def hits (oldItem : Item) (pairs : Pairs Value) : List Value :=
  (pairs.filter (fun pair => isEqual pair.1 oldItem)).map Prod.snd

/-- The value of the `n`-th pair with a key is replaced. -/
def setHit (oldItem : Item) (value : Value) : Nat → Pairs Value → Pairs Value
  | _, [] => []
  | 0, pair :: pairs =>
      if isEqual pair.1 oldItem then (pair.1, value) :: pairs
      else pair :: setHit oldItem value 0 pairs
  | n + 1, pair :: pairs =>
      if isEqual pair.1 oldItem then pair :: setHit oldItem value n pairs
      else pair :: setHit oldItem value (n + 1) pairs

/-- The pairs of a collision table. -/
def bucket (k : Nat) (pairs : Pairs Value) : Pairs Value :=
  pairs.filter (fun pair => pair.1.hashKey = k)

section Keys

theorem is_equal_iff (data1 data2 : Item) : isEqual data1 data2 = true ↔ data1 = data2 :=
  beq_iff_eq

/-- The hash keys of the kinds do not overlap. -/
theorem hash_key_range (item : Item) (kind : Kind) :
    item.kind = kind ↔ kind.start ≤ item.hashKey ∧ item.hashKey < kind.stop := by
  cases item with
  | pointer address =>
      have small : getHashKeyPointer address < hashKeysPointer := by
        rw [getHashKeyPointer, UInt64.toNat_and]
        exact Nat.lt_of_le_of_lt Nat.and_le_right (by decide)
      cases kind with
      | p => simp [Item.kind, Item.hashKey, Kind.start, Kind.stop, small]
      | s => simpa [Item.kind, Item.hashKey, Kind.start] using fun above => absurd above (by omega)
  | string chars =>
      have range : hashKeysPointer ≤ getHashKeyString chars ∧
          getHashKeyString chars < hashKeys := by
        have := Nat.mod_lt (chars.foldl (fun hashKey (char : Int8) =>
          hashKey + char.toInt64.toUInt64) 0).toNat (by decide : 0 < hashKeysString)
        rw [getHashKeyString, hashKeys]
        omega
      cases kind with
      | p => simp [Item.kind, Item.hashKey, Kind.stop, range]
      | s => simp [Item.kind, Item.hashKey, Kind.start, Kind.stop, range]

theorem hash_key_lt (item : Item) : item.hashKey < hashKeys := by
  have range := (hash_key_range item item.kind).mp rfl
  cases kind : item.kind with
  | p =>
      rw [kind] at range
      exact Nat.lt_of_lt_of_le range.2 (by decide)
  | s =>
      rw [kind] at range
      exact range.2

end Keys

section Buckets

variable {oldItem : Item} {pairs : Pairs Value}

theorem hits_bucket (oldItem : Item) (pairs : Pairs Value) :
    hits oldItem (bucket oldItem.hashKey pairs) = hits oldItem pairs := by
  rw [hits, hits, bucket, List.filter_filter]
  congr 1
  apply List.filter_congr
  intro pair _
  by_cases equal : isEqual pair.1 oldItem = true
  · have same := (is_equal_iff _ _).mp equal
    simp [same]
  · simp [equal]

theorem bucket_insert (k : Nat) (new : Item × Value) (pairs : Pairs Value) :
    bucket k (pairs ++ [new]) =
      if new.1.hashKey = k then bucket k pairs ++ [new] else bucket k pairs := by
  rw [bucket, List.filter_append, List.filter_singleton]
  split <;> simp_all [bucket]

theorem bucket_set_hit (k n : Nat) (value : Value) (pairs : Pairs Value) :
    bucket k (setHit oldItem value n pairs) =
      if oldItem.hashKey = k then setHit oldItem value n (bucket k pairs) else bucket k pairs := by
  induction pairs generalizing n with
  | nil => simp [setHit, bucket]
  | cons pair pairs ih =>
      have bucket_cons : ∀ (pair : Item × Value) (rest : Pairs Value), bucket k (pair :: rest) =
          if pair.1.hashKey = k then pair :: bucket k rest else bucket k rest := by
        intro pair rest
        rw [bucket, List.filter_cons]
        simp [bucket]
      obtain ⟨key, old⟩ := pair
      by_cases equal : isEqual key oldItem = true
      · cases (is_equal_iff _ _).mp equal
        cases n <;> by_cases here : oldItem.hashKey = k <;>
          simp [setHit, equal, bucket_cons, here, ih]
      · cases n <;> by_cases here : oldItem.hashKey = k <;>
          by_cases there : key.hashKey = k <;>
          simp [setHit, equal, bucket_cons, here, there, ih]

theorem bucket_map (k : Nat) {change : Item × Value → Item × Value}
    (keys : ∀ pair, (change pair).1 = pair.1) (pairs : Pairs Value) :
    bucket k (pairs.map change) = (bucket k pairs).map change := by
  rw [bucket, List.filter_map, bucket]
  congr 2
  funext pair
  simp [keys]

/-- The tables for some hash keys hold each pair with one of these once. -/
theorem buckets_perm {ks : List Nat} (distinct : ks.Nodup) (pairs : Pairs Value) :
    (ks.flatMap (fun k => bucket k pairs)).Perm
      (pairs.filter (fun pair => pair.1.hashKey ∈ ks)) := by
  induction ks with
  | nil => simp
  | cons k ks ih =>
      obtain ⟨unlisted, distinct⟩ := List.nodup_cons.mp distinct
      have divided := List.filter_append_perm (fun pair => decide (pair.1.hashKey = k))
        (pairs.filter (fun pair => pair.1.hashKey ∈ k :: ks))
      rw [List.filter_filter, List.filter_filter] at divided
      have head : bucket k pairs = pairs.filter (fun pair =>
          decide (pair.1.hashKey = k) && decide (pair.1.hashKey ∈ k :: ks)) := by
        apply List.filter_congr
        intro pair _
        by_cases here : pair.1.hashKey = k <;> simp [here]
      have tail : pairs.filter (fun pair => pair.1.hashKey ∈ ks) = pairs.filter (fun pair =>
          !decide (pair.1.hashKey = k) && decide (pair.1.hashKey ∈ k :: ks)) := by
        apply List.filter_congr
        intro pair _
        by_cases here : pair.1.hashKey = k <;> simp [here, unlisted]
      rw [← head, ← tail] at divided
      rw [List.flatMap_cons]
      exact ((ih distinct).append_left _).trans divided

end Buckets

section Positions

variable {oldItem : Item}

/-- The positions of a search are those of the hits. -/
theorem positions_hits (oldItem : Item) {pairs front back : Pairs Value}
    (split : pairs = front ++ back) :
    List.Forall₂ (fun i value => ∃ key, pairs[i]? = some (key, value))
      (positions oldItem front.length back) (hits oldItem back) := by
  induction back generalizing front with
  | nil => exact List.Forall₂.nil
  | cons pair back ih =>
      have further : pairs = (front ++ [pair]) ++ back := by simp [split]
      have rest := ih further
      rw [List.length_append, List.length_singleton] at rest
      by_cases equal : isEqual pair.1 oldItem = true
      · simp only [positions, hits, List.filter_cons, if_pos equal, List.map_cons]
        exact List.Forall₂.cons ⟨pair.1, by simp [split]⟩ rest
      · simp only [positions, hits, List.filter_cons, if_neg equal]
        exact rest

theorem set_hit_found {pairs front back : Pairs Value} (split : pairs = front ++ back)
    (value : Value) {n i : Nat} (found : (positions oldItem front.length back)[n]? = some i) :
    ∃ key old, pairs[i]? = some (key, old) ∧
      front ++ setHit oldItem value n back = pairs.set i (key, value) := by
  induction back generalizing front n with
  | nil => simp [positions] at found
  | cons pair back ih =>
      have behind : pairs = (front ++ [pair]) ++ back := by simp [split]
      have size : front.length + 1 = (front ++ [pair]).length := by simp
      rw [positions, size] at found
      by_cases equal : isEqual pair.1 oldItem = true
      · rw [if_pos equal] at found
        cases n with
        | zero =>
            cases found
            exact ⟨pair.1, pair.2, by simp [split], by simp [split, setHit, equal]⟩
        | succ n =>
            obtain ⟨key, old, here, set⟩ := ih behind found
            refine ⟨key, old, here, ?_⟩
            rw [setHit, if_pos equal, List.append_cons, set]
      · rw [if_neg equal] at found
        obtain ⟨key, old, here, set⟩ := ih behind found
        refine ⟨key, old, here, ?_⟩
        cases n <;> rw [setHit, if_neg equal, List.append_cons, set]

theorem set_hit_none {start n : Nat} {pairs : Pairs Value} (value : Value)
    (none : (positions oldItem start pairs)[n]? = none) :
    setHit oldItem value n pairs = pairs := by
  induction pairs generalizing start n with
  | nil => cases n <;> rfl
  | cons pair pairs ih =>
      rw [positions] at none
      by_cases equal : isEqual pair.1 oldItem = true
      · rw [if_pos equal] at none
        cases n with
        | zero => cases none
        | succ n => rw [setHit, if_pos equal, ih none]
      · rw [if_neg equal] at none
        cases n <;> rw [setHit, if_neg equal, ih none]

end Positions

end Sac2c.LookUpTable
