import Sac2c.CacheLevels
import Mathlib.Algebra.Order.Group.Nat
import Mathlib.Data.List.Basic
import Mathlib.Tactic.Ring

/-!
The cache simulation against a cache whose sets are lists of lines in the order of their last
use: hits and misses agree as long as no access meets one of the cases in which the simulation
takes a word for something else.
-/

namespace Sac2c.CacheRefinement

open LruSets CacheLevels

section Reference

/-- A level: its sets and its counters. -/
structure RefLevel where
  sets : Nat → List (Entry Nat)
  rhit : Nat
  rmiss : Nat
  whit : Nat
  wmiss : Nat

def RefLevel.initial : RefLevel :=
  { sets := fun _ => [], rhit := 0, rmiss := 0, whit := 0, wmiss := 0 }

namespace RefLevel

variable (ref : RefLevel)

def countHit : Op → RefLevel
  | .read => { ref with rhit := ref.rhit + 1 }
  | .write => { ref with whit := ref.whit + 1 }

def countMiss : Op → RefLevel
  | .read => { ref with rmiss := ref.rmiss + 1 }
  | .write => { ref with wmiss := ref.wmiss + 1 }

/-- The line becomes the most recently used one of its set. -/
def touchLine (actCl : CacheLevel) (line : Nat) (valid : Bool) : RefLevel :=
  { ref with
    sets := Function.update ref.sets (line % actCl.nrCachelines)
      (touch actCl.associativity (ref.sets (line % actCl.nrCachelines)) ⟨line, valid⟩) }

/-- The line is there and valid. -/
def hits (actCl : CacheLevel) (line : Nat) : Bool :=
  (⟨line, true⟩ : Entry Nat) ∈ ref.sets (line % actCl.nrCachelines)

end RefLevel

/-- Whether a missed line is entered, valid or not; a write around neither enters it nor goes on. -/
def fills (actCl : CacheLevel) : Op → Option Bool
  | .read => some true
  | .write =>
      match actCl.writepolicy with
      | .default => some true
      | .fetchOnWrite => some true
      | .writeValidate => some false
      | .writeAround => none

/-- An access to the levels from one level on. -/
def refAccess (op : Op) (address : Nat) : List CacheLevel → List RefLevel → List RefLevel
  | actCl :: levels, ref :: refs =>
      let line := address / actCl.cachelinesize
      if ref.hits actCl line then (ref.countHit op).touchLine actCl line true :: refs
      else
        match fills actCl op with
        | some valid =>
            (ref.countMiss op).touchLine actCl line valid :: refAccess op address levels refs
        | none => ref.countMiss op :: refs
  | _, refs => refs

def refRun (levels : List CacheLevel) : List (Op × Nat) → List RefLevel → List RefLevel
  | [], refs => refs
  | (op, address) :: accesses, refs =>
      refRun levels accesses (refAccess op address levels refs)

/-- No word is taken for something else in the levels from `k` on: line 0 is not looked for in a
set with room, an odd address is not entered into lines of one byte, and a write that arrives at
a later level is not written around it. -/
def Undisturbed (op : Op) (address : Nat) : Nat → List CacheLevel → List RefLevel → Prop
  | k, actCl :: levels, ref :: refs =>
      let line := address / actCl.cachelinesize
      (line = 0 → (ref.sets 0).length = actCl.associativity) ∧
        (ref.hits actCl line = true ∨
          match fills actCl op with
          | some _ => (actCl.clsBits = 0 → address % 2 = 0) ∧
              Undisturbed op address (k + 1) levels refs
          | none => k = 1)
  | _, _, _ => True

/-- Every access of a run is undisturbed in the state it finds. -/
def RunUndisturbed (levels : List CacheLevel) : List (Op × Nat) → List RefLevel → Prop
  | [], _ => True
  | (op, address) :: accesses, refs =>
      Undisturbed op address 1 levels refs ∧
        RunUndisturbed levels accesses (refAccess op address levels refs)

end Reference

section Refinement

/-- The word of a line. -/
def wordOf (actCl : CacheLevel) (entry : Entry Nat) : Nat :=
  entry.line * actCl.cachelinesize + if entry.valid then 0 else 1

/-- The words of a set. -/
def setWords (actCl : CacheLevel) (data : Nat → Nat) (idx : Nat) : List Nat :=
  (List.range actCl.associativity).map fun i => data (idx * actCl.associativity + i)

/-- The words are zeros and then the lines of the set; while there are zeros, line 0 is not in
the set. -/
structure Represents (actCl : CacheLevel) (words : List Nat) (set : List (Entry Nat)) : Prop where
  kept : Kept actCl.associativity set
  words_eq : words =
    List.replicate (actCl.associativity - set.length) 0 ++ set.map (wordOf actCl)
  even : ∀ entry ∈ set, 2 ∣ entry.line * actCl.cachelinesize
  positive : set.length < actCl.associativity → ∀ entry ∈ set, entry.line ≠ 0

/-- A level of the simulation is that of the reference. -/
structure RefinesLevel (state : State) (k : Nat) (actCl : CacheLevel) (ref : RefLevel) : Prop where
  rhit : state.rhit k = ref.rhit
  rmiss : state.rmiss k = ref.rmiss
  whit : state.whit k = ref.whit
  wmiss : state.wmiss k = ref.wmiss
  sets : ∀ idx < actCl.nrCachelines,
    Represents actCl (setWords actCl (state.data k) idx) (ref.sets idx)

/-- The levels from `k` on. -/
def Refines (state : State) : Nat → List CacheLevel → List RefLevel → Prop
  | _, [], [] => True
  | k, actCl :: levels, ref :: refs =>
      RefinesLevel state k actCl ref ∧ Refines state (k + 1) levels refs
  | _, _, _ => False

end Refinement

section Words

variable {actCl : CacheLevel}

theorem set_words_length (actCl : CacheLevel) (data : Nat → Nat) (idx : Nat) :
    (setWords actCl data idx).length = actCl.associativity := by
  simp [setWords]

theorem set_words_get (data : Nat → Nat) (idx : Nat) (i : Nat) (inside : i < actCl.associativity) :
    (setWords actCl data idx)[i]? = some (data (idx * actCl.associativity + i)) := by
  simp [setWords, inside]

theorem shift_queue_apply (data : Nat → Nat) (pos steps j : Nat) :
    shiftQueue data pos steps j = if pos ≤ j ∧ j < pos + steps then data (j + 1) else data j := by
  induction steps generalizing data pos with
  | zero =>
      have outside : ¬ (pos ≤ j ∧ j < pos + 0) := by omega
      rw [if_neg outside]
      rfl
  | succ steps ih =>
      rw [shiftQueue, ih]
      by_cases first : j = pos
      · subst first
        have here : ¬ (j + 1 ≤ j ∧ j < j + 1 + steps) := by omega
        have there : j ≤ j ∧ j < j + (steps + 1) := by omega
        rw [if_neg here, if_pos there, Function.update_self]
      · have later : Function.update data pos (data (pos + 1)) j = data j :=
          Function.update_of_ne first _ _
        by_cases inside : pos + 1 ≤ j ∧ j < pos + 1 + steps
        · have there : pos ≤ j ∧ j < pos + (steps + 1) := by omega
          rw [if_pos inside, if_pos there, Function.update_of_ne (by omega)]
        · have there : ¬ (pos ≤ j ∧ j < pos + (steps + 1)) := by omega
          rw [if_neg inside, if_neg there, later]

/-- The queue without the word at `pos`, and the new word at its end. -/
theorem update_lru_queue_words (data : Nat → Nat) (idx : Nat) {pos : Nat} (newvalue : Nat)
    (inside : pos < actCl.associativity) :
    setWords actCl (updateLruQueue actCl data (idx * actCl.associativity) pos newvalue) idx =
      (setWords actCl data idx).eraseIdx pos ++ [newvalue] := by
  have length : (setWords actCl data idx).length = actCl.associativity := set_words_length actCl data idx
  apply List.ext_getElem?
  intro i
  by_cases within : i < actCl.associativity
  · rw [set_words_get _ _ _ within, updateLruQueue]
    by_cases last : i = actCl.associativity - 1
    · have place : idx * actCl.associativity + i =
          idx * actCl.associativity + pos + (actCl.associativity - 1 - pos) := by omega
      have behind : ((setWords actCl data idx).eraseIdx pos).length = i := by
        rw [List.length_eraseIdx_of_lt (by omega)]
        omega
      rw [place, Function.update_self, List.getElem?_append_right (by omega), behind]
      simp
    · have other : idx * actCl.associativity + i ≠
          idx * actCl.associativity + pos + (actCl.associativity - 1 - pos) := by omega
      have front : i < ((setWords actCl data idx).eraseIdx pos).length := by
        rw [List.length_eraseIdx_of_lt (by omega)]
        omega
      rw [Function.update_of_ne other, shift_queue_apply, List.getElem?_append_left front,
        List.getElem?_eraseIdx]
      by_cases before : i < pos
      · rw [if_pos before, if_neg (by omega), set_words_get _ _ _ within]
      · rw [if_neg before, if_pos (by omega), set_words_get _ _ _ (by omega), Nat.add_assoc]
  · rw [List.getElem?_eq_none (by rw [set_words_length]; omega),
      List.getElem?_eq_none (by
        rw [List.length_append, List.length_eraseIdx_of_lt (by omega), length]
        simp only [List.length_singleton]
        omega)]

/-- Words of other sets are not touched. -/
theorem update_lru_queue_other (data : Nat → Nat) {idx other : Nat} {pos : Nat} (newvalue : Nat)
    (inside : pos < actCl.associativity) (apart : other ≠ idx) :
    setWords actCl (updateLruQueue actCl data (idx * actCl.associativity) pos newvalue) other =
      setWords actCl data other := by
  apply List.map_congr_left
  intro i mem
  have within : i < actCl.associativity := List.mem_range.mp mem
  have distance : other * actCl.associativity + actCl.associativity ≤ idx * actCl.associativity ∨
      idx * actCl.associativity + actCl.associativity ≤ other * actCl.associativity := by
    rcases Nat.lt_or_gt_of_ne apart with less | more
    · left
      rw [← Nat.succ_mul]
      exact Nat.mul_le_mul_right _ less
    · right
      rw [← Nat.succ_mul]
      exact Nat.mul_le_mul_right _ more
  rw [updateLruQueue, Function.update_of_ne (by omega), shift_queue_apply, if_neg (by omega)]

theorem get_pos_some (data : Nat → Nat) (pElm0 alignedAddr : Nat) {n pos : Nat} (inside : pos < n)
    (found : cacheContents (data (pElm0 + pos)) = alignedAddr)
    (later : ∀ i, pos < i → i < n → cacheContents (data (pElm0 + i)) ≠ alignedAddr) :
    getPosWithinSet data pElm0 alignedAddr n = some pos := by
  induction n with
  | zero => omega
  | succ n ih =>
      rw [getPosWithinSet]
      by_cases here : pos = n
      · subst here
        rw [if_pos found]
      · rw [if_neg (later n (by omega) (by omega))]
        exact ih (by omega) fun i after before => later i after (by omega)

theorem get_pos_none (data : Nat → Nat) (pElm0 alignedAddr : Nat) {n : Nat}
    (absent : ∀ i < n, cacheContents (data (pElm0 + i)) ≠ alignedAddr) :
    getPosWithinSet data pElm0 alignedAddr n = none := by
  induction n with
  | zero => rfl
  | succ n ih =>
      rw [getPosWithinSet, if_neg (absent n (by omega))]
      exact ih fun i before => absent i (by omega)

end Words

section Lines

variable {actCl : CacheLevel}

theorem cachelinesize_pos (actCl : CacheLevel) : 0 < actCl.cachelinesize := Nat.two_pow_pos _

theorem aligned_line (actCl : CacheLevel) (address : Nat) :
    actCl.getAlignedaddr address = address / actCl.cachelinesize * actCl.cachelinesize := rfl

theorem cacheline_of_line (actCl : CacheLevel) (line : Nat) :
    actCl.getCacheline (line * actCl.cachelinesize) = line % actCl.nrCachelines := by
  rw [CacheLevel.getCacheline, Nat.mul_comm actCl.cachelinesize, Nat.mul_mod_mul_right,
    Nat.mul_div_cancel _ (cachelinesize_pos actCl)]

/-- Lines of two bytes or more start at even addresses. -/
theorem aligned_even (actCl : CacheLevel) (address : Nat)
    (even : actCl.clsBits = 0 → address % 2 = 0) :
    2 ∣ address / actCl.cachelinesize * actCl.cachelinesize := by
  unfold CacheLevel.cachelinesize
  cases bits : actCl.clsBits with
  | zero =>
      rw [Nat.pow_zero, Nat.div_one, Nat.mul_one]
      exact Nat.dvd_of_mod_eq_zero (even bits)
  | succ n => exact Dvd.dvd.mul_left (Dvd.intro_left _ rfl) _

variable {words : List Nat} {set : List (Entry Nat)} {entry : Entry Nat}

theorem contents_word (even : 2 ∣ entry.line * actCl.cachelinesize) :
    cacheContents (wordOf actCl entry) = entry.line * actCl.cachelinesize := by
  unfold cacheContents wordOf
  split <;> omega

theorem invalid_word (even : 2 ∣ entry.line * actCl.cachelinesize) :
    cacheInvalid (wordOf actCl entry) = if entry.valid then 0 else 1 := by
  unfold cacheInvalid wordOf
  split <;> omega

theorem make_invalid_even {alignedAddr : Nat} (even : 2 ∣ alignedAddr) :
    makeInvalid alignedAddr = alignedAddr + 1 := by
  obtain ⟨half, rfl⟩ := even
  unfold makeInvalid
  rw [← Nat.two_pow_add_eq_or_of_lt (i := 1) (by omega) half]

/-- Where the words hold a line of the set. -/
theorem represents_present (represents : Represents actCl words set) (mem : entry ∈ set) :
    ∃ before after, without set entry.line = before ++ after ∧
      set = before ++ entry :: after ∧
      words = (List.replicate (actCl.associativity - set.length) 0 ++
        before.map (wordOf actCl)) ++ wordOf actCl entry :: after.map (wordOf actCl) ∧
      ∀ other ∈ after, cacheContents (wordOf actCl other) ≠ entry.line * actCl.cachelinesize := by
  obtain ⟨before, after, split, apart, others⟩ := split_present represents.kept.distinct mem
  refine ⟨before, after, others, split, ?_, ?_⟩
  · rw [represents.words_eq]
    conv => lhs; arg 2; rw [split]
    simp
  · intro other later same
    have inSet : other ∈ set := by
      rw [split]
      exact List.mem_append_right _ (List.mem_cons_of_mem _ later)
    rw [contents_word (represents.even other inSet)] at same
    exact apart other (List.mem_append_right _ later)
      (Nat.eq_of_mul_eq_mul_right (cachelinesize_pos actCl) same)

theorem represents_absent (represents : Represents actCl words set) {line : Nat}
    (absent : ∀ entry ∈ set, entry.line ≠ line)
    (nonzero : line = 0 → set.length = actCl.associativity) :
    ∀ word ∈ words, cacheContents word ≠ line * actCl.cachelinesize := by
  intro word mem same
  rw [represents.words_eq] at mem
  rcases List.mem_append.mp mem with zeros | lines
  · rw [List.mem_replicate] at zeros
    rw [zeros.2] at same
    have zero : line = 0 := by
      rcases Nat.mul_eq_zero.mp same.symm with zero | size
      · exact zero
      · exact absurd size (cachelinesize_pos actCl).ne'
    have full := nonzero zero
    omega
  · obtain ⟨entry, inSet, rfl⟩ := List.mem_map.mp lines
    rw [contents_word (represents.even entry inSet)] at same
    exact absent entry inSet (Nat.eq_of_mul_eq_mul_right (cachelinesize_pos actCl) same)

theorem represents_touch_present (represents : Represents actCl words set) (mem : entry ∈ set)
    {before after : List (Entry Nat)} (others : without set entry.line = before ++ after)
    (split : set = before ++ entry :: after) (valid : Bool) :
    Represents actCl ((List.replicate (actCl.associativity - set.length) 0 ++
        before.map (wordOf actCl)) ++ after.map (wordOf actCl) ++
          [wordOf actCl ⟨entry.line, valid⟩])
      (touch actCl.associativity set ⟨entry.line, valid⟩) := by
  have length : set.length = before.length + 1 + after.length := by
    rw [split, List.length_append, List.length_cons]
    omega
  have room := represents.kept.room
  have touched : touch actCl.associativity set ⟨entry.line, valid⟩ =
      before ++ after ++ [⟨entry.line, valid⟩] := touch_present others (by omega)
  have members : ∀ other ∈ before ++ after ++ [(⟨entry.line, valid⟩ : Entry Nat)],
      ∃ old ∈ set, old.line = other.line := by
    intro other present
    rcases List.mem_append.mp present with old | new
    · refine ⟨other, ?_, rfl⟩
      rw [split]
      rcases List.mem_append.mp old with first | second
      · exact List.mem_append_left _ first
      · exact List.mem_append_right _ (List.mem_cons_of_mem _ second)
    · rw [List.mem_singleton] at new
      exact ⟨entry, mem, by rw [new]⟩
  constructor
  · exact touch_kept represents.kept actCl.positive _
  · have same : (before ++ after ++ [(⟨entry.line, valid⟩ : Entry Nat)]).length = set.length := by
      rw [length, List.length_append, List.length_append, List.length_singleton]
      omega
    rw [touched, same]
    simp
  · intro other present
    rw [touched] at present
    obtain ⟨old, inSet, line⟩ := members other present
    exact line ▸ represents.even old inSet
  · intro less other present
    rw [touched] at less present
    obtain ⟨old, inSet, line⟩ := members other present
    refine line ▸ represents.positive ?_ old inSet
    rw [List.length_append, List.length_append, List.length_singleton] at less
    omega

theorem represents_touch_absent (represents : Represents actCl words set) {line : Nat}
    (absent : ∀ entry ∈ set, entry.line ≠ line)
    (nonzero : line = 0 → set.length = actCl.associativity)
    (even : 2 ∣ line * actCl.cachelinesize) (valid : Bool) :
    Represents actCl (words.eraseIdx 0 ++ [wordOf actCl ⟨line, valid⟩])
      (touch actCl.associativity set ⟨line, valid⟩) := by
  have room := represents.kept.room
  have touched : touch actCl.associativity set ⟨line, valid⟩ =
      (if set.length < actCl.associativity then set else set.tail) ++ [⟨line, valid⟩] :=
    touch_absent absent
  have kept := touch_kept represents.kept actCl.positive (⟨line, valid⟩ : Entry Nat)
  -- the first word is a zero while there is room, else the least recently used line
  by_cases less : set.length < actCl.associativity
  · rw [if_pos less] at touched
    rw [touched] at kept ⊢
    obtain ⟨zeros, count⟩ := Nat.exists_eq_succ_of_ne_zero (Nat.sub_ne_zero_of_lt less)
    constructor
    · exact kept
    · have fewer : actCl.associativity - (set ++ [(⟨line, valid⟩ : Entry Nat)]).length = zeros := by
        rw [List.length_append, List.length_singleton]
        omega
      rw [represents.words_eq, count, fewer]
      simp [List.replicate_succ]
    · intro other present
      rcases List.mem_append.mp present with old | new
      · exact represents.even other old
      · rw [List.mem_singleton] at new
        rw [new]
        exact even
    · intro _ other present
      rcases List.mem_append.mp present with old | new
      · exact represents.positive less other old
      · rw [List.mem_singleton] at new
        rw [new]
        intro zero
        exact absurd (nonzero zero) less.ne
  · rw [if_neg less] at touched
    rw [touched] at kept ⊢
    have full : set.length = actCl.associativity := by omega
    constructor
    · exact kept
    · have length : (set.tail ++ [(⟨line, valid⟩ : Entry Nat)]).length = actCl.associativity := by
        have := actCl.positive
        rw [List.length_append, List.length_tail, List.length_singleton]
        omega
      rw [represents.words_eq, length, full]
      simp
    · intro other present
      rcases List.mem_append.mp present with old | new
      · exact represents.even other (List.mem_of_mem_tail old)
      · rw [List.mem_singleton] at new
        rw [new]
        exact even
    · intro shorter
      have := actCl.positive
      rw [List.length_append, List.length_tail, List.length_singleton] at shorter
      omega

end Lines

section Steps

variable {actCl : CacheLevel} {state : State} {ref : RefLevel} {op : Op}

/-- What an access leaves of the levels it does not look into. -/
structure SameLevel (state state' : State) (j : Nat) : Prop where
  data : state'.data j = state.data j
  rhit : state'.rhit j = state.rhit j
  rmiss : state'.rmiss j = state.rmiss j
  whit : state'.whit j = state.whit j
  wmiss : state'.wmiss j = state.wmiss j

theorem SameLevel.trans {state1 state2 state3 : State} {j : Nat} (first : SameLevel state1 state2 j)
    (second : SameLevel state2 state3 j) : SameLevel state1 state3 j :=
  ⟨second.data.trans first.data, second.rhit.trans first.rhit, second.rmiss.trans first.rmiss,
    second.whit.trans first.whit, second.wmiss.trans first.wmiss⟩

theorem SameLevel.refines {state state' : State} {k : Nat} (same : SameLevel state state' k)
    (refines : RefinesLevel state k actCl ref) : RefinesLevel state' k actCl ref := by
  refine ⟨same.rhit.trans refines.rhit, same.rmiss.trans refines.rmiss,
    same.whit.trans refines.whit, same.wmiss.trans refines.wmiss, ?_⟩
  rw [same.data]
  exact refines.sets

theorem same_level_refl (state : State) (j : Nat) : SameLevel state state j :=
  ⟨rfl, rfl, rfl, rfl, rfl⟩

theorem count_hit_same {j : Nat} (other : j ≠ state.level) :
    SameLevel state (state.countHit op) j := by
  cases op <;> constructor <;> simp [State.countHit, other]

theorem count_miss_same (wasInvalid : Nat) {j : Nat} (other : j ≠ state.level) :
    SameLevel state (state.countMiss wasInvalid op) j := by
  cases op <;> constructor <;> simp [State.countMiss, other]

theorem set_data_same (data : Nat → Nat) {j : Nat} (other : j ≠ state.level) :
    SameLevel state (state.setData data) j := by
  constructor <;> simp [State.setData, other]

theorem set_level_same (level j : Nat) : SameLevel state { state with level := level } j :=
  ⟨rfl, rfl, rfl, rfl, rfl⟩

@[simp] theorem count_hit_level : (state.countHit op).level = state.level := by cases op <;> rfl

@[simp] theorem count_miss_level (wasInvalid : Nat) :
    (state.countMiss wasInvalid op).level = state.level := by cases op <;> rfl

@[simp] theorem count_hit_data : (state.countHit op).data = state.data := by cases op <;> rfl

@[simp] theorem count_miss_data (wasInvalid : Nat) :
    (state.countMiss wasInvalid op).data = state.data := by cases op <;> rfl

@[simp] theorem count_hit_sets : (ref.countHit op).sets = ref.sets := by cases op <;> rfl

@[simp] theorem count_miss_sets : (ref.countMiss op).sets = ref.sets := by cases op <;> rfl

theorem count_hit_refines (refines : RefinesLevel state state.level actCl ref) :
    RefinesLevel (state.countHit op) state.level actCl (ref.countHit op) := by
  obtain ⟨rhit, rmiss, whit, wmiss, sets⟩ := refines
  cases op <;> constructor <;>
    simp [State.countHit, RefLevel.countHit, rhit, rmiss, whit, wmiss] <;> exact sets

theorem count_miss_refines (wasInvalid : Nat) (refines : RefinesLevel state state.level actCl ref) :
    RefinesLevel (state.countMiss wasInvalid op) state.level actCl (ref.countMiss op) := by
  obtain ⟨rhit, rmiss, whit, wmiss, sets⟩ := refines
  cases op <;> constructor <;>
    simp [State.countMiss, RefLevel.countMiss, rhit, rmiss, whit, wmiss] <;> exact sets

/-- A set whose queue is updated represents the set with the line as its last one. -/
theorem set_data_refines (refines : RefinesLevel state state.level actCl ref) {line pos : Nat}
    {newvalue : Nat} {valid : Bool} (inside : pos < actCl.associativity)
    (represents : Represents actCl
      ((setWords actCl (state.data state.level) (line % actCl.nrCachelines)).eraseIdx pos ++
        [newvalue])
      (touch actCl.associativity (ref.sets (line % actCl.nrCachelines)) ⟨line, valid⟩)) :
    RefinesLevel
      (state.setData (updateLruQueue actCl state.levelData
        (line % actCl.nrCachelines * actCl.associativity) pos newvalue))
      state.level actCl (ref.touchLine actCl line valid) := by
  refine ⟨refines.rhit, refines.rmiss, refines.whit, refines.wmiss, ?_⟩
  intro idx less
  simp only [State.setData, RefLevel.touchLine, Function.update_self]
  by_cases here : idx = line % actCl.nrCachelines
  · subst here
    rw [Function.update_self, State.levelData, update_lru_queue_words _ _ _ inside]
    exact represents
  · rw [Function.update_of_ne here, State.levelData,
      update_lru_queue_other _ _ inside here]
    exact refines.sets idx less

theorem set_idx_less (actCl : CacheLevel) (line : Nat) :
    line % actCl.nrCachelines < actCl.nrCachelines := Nat.mod_lt _ (Nat.two_pow_pos _)

/-- GetPosWithinSet finds a line of the set, and its word. -/
theorem find_present {data : Nat → Nat} {idx : Nat} {set : List (Entry Nat)} {entry : Entry Nat}
    (represents : Represents actCl (setWords actCl data idx) set) (mem : entry ∈ set) :
    ∃ pos < actCl.associativity,
      getPosWithinSet data (idx * actCl.associativity) (entry.line * actCl.cachelinesize)
        actCl.associativity = some pos ∧
      data (idx * actCl.associativity + pos) = wordOf actCl entry ∧
      ∀ valid, Represents actCl
        ((setWords actCl data idx).eraseIdx pos ++ [wordOf actCl ⟨entry.line, valid⟩])
        (touch actCl.associativity set ⟨entry.line, valid⟩) := by
  obtain ⟨before, after, others, split, words, later⟩ := represents_present represents mem
  let front := List.replicate (actCl.associativity - set.length) 0 ++ before.map (wordOf actCl)
  have total : front.length + 1 + after.length = actCl.associativity := by
    have length := set_words_length actCl data idx
    rw [words] at length
    simp only [List.length_append, List.length_cons, List.length_map] at length
    simp only [front, List.length_append, List.length_map]
    omega
  have word : data (idx * actCl.associativity + front.length) = wordOf actCl entry := by
    have inside : front.length < actCl.associativity := by omega
    have found := set_words_get data idx front.length inside
    rw [words, List.getElem?_append_right (le_refl _), Nat.sub_self] at found
    exact (Option.some.inj found).symm
  have found : getPosWithinSet data (idx * actCl.associativity)
      (entry.line * actCl.cachelinesize) actCl.associativity = some front.length := by
    apply get_pos_some
    · omega
    · rw [word, contents_word (represents.even entry mem)]
    · intro i behind inside
      have entryAt := set_words_get data idx i inside
      rw [words, List.getElem?_append_right (Nat.le_of_lt behind)] at entryAt
      obtain ⟨n, distance⟩ := Nat.exists_eq_succ_of_ne_zero (Nat.sub_ne_zero_of_lt behind)
      have shifted : i - (List.replicate (actCl.associativity - set.length) 0 ++
          before.map (wordOf actCl)).length = n + 1 := distance
      rw [shifted, List.getElem?_cons_succ, List.getElem?_map] at entryAt
      obtain ⟨other, at', same⟩ := Option.map_eq_some_iff.mp entryAt
      rw [← same]
      exact later other (List.mem_of_getElem? at')
  refine ⟨front.length, by omega, found, word, ?_⟩
  intro valid
  have erased : (setWords actCl data idx).eraseIdx front.length =
      front ++ after.map (wordOf actCl) := by
    rw [words]
    change (front ++ wordOf actCl entry :: after.map (wordOf actCl)).eraseIdx front.length = _
    rw [List.eraseIdx_append_of_length_le (le_refl _), Nat.sub_self]
    rfl
  rw [erased]
  exact represents_touch_present represents mem others split valid

theorem find_absent {data : Nat → Nat} {idx line : Nat} {set : List (Entry Nat)}
    (represents : Represents actCl (setWords actCl data idx) set)
    (absent : ∀ entry ∈ set, entry.line ≠ line)
    (nonzero : line = 0 → set.length = actCl.associativity) :
    getPosWithinSet data (idx * actCl.associativity) (line * actCl.cachelinesize)
      actCl.associativity = none := by
  apply get_pos_none
  intro i inside
  apply represents_absent represents absent nonzero
  exact List.mem_map_of_mem (List.mem_range.mpr inside)

theorem hits_iff (actCl : CacheLevel) (line : Nat) :
    ref.hits actCl line = true ↔
      (⟨line, true⟩ : Entry Nat) ∈ ref.sets (line % actCl.nrCachelines) := by
  simp [RefLevel.hits]

theorem absent_of_miss {line : Nat} (miss : ref.hits actCl line = false)
    (unwritten : (⟨line, false⟩ : Entry Nat) ∉ ref.sets (line % actCl.nrCachelines)) :
    ∀ entry ∈ ref.sets (line % actCl.nrCachelines), entry.line ≠ line := by
  rintro ⟨other, valid⟩ mem same
  change other = line at same
  subst same
  cases valid with
  | true =>
      rw [(hits_iff actCl other).mpr mem] at miss
      cases miss
  | false => exact unwritten mem

/-- What an access function does at a level: `hit` and `filled` are the cases of the reference. -/
structure Accessed (state : State) (actCl : CacheLevel) (ref ref' : RefLevel) (level : Nat)
    (continues : Bool) (result : State × Bool) : Prop where
  continues_eq : result.2 = continues
  level_eq : result.1.level = level
  refines : RefinesLevel result.1 state.level actCl ref'
  same : ∀ j ≠ state.level, SameLevel state result.1 j

theorem access_as4_hit (stored : Option (Nat → Nat)) (address : Nat)
    (refines : RefinesLevel state state.level actCl ref)
    (hit : ref.hits actCl (address / actCl.cachelinesize) = true) :
    Accessed state actCl ref
      ((ref.countHit op).touchLine actCl (address / actCl.cachelinesize) true) 1 false
      (accessAS4 op stored actCl address state) := by
  have mem := (hits_iff actCl _).mp hit
  have represents := refines.sets _ (set_idx_less actCl (address / actCl.cachelinesize))
  obtain ⟨pos, inside, found, word, after⟩ := find_present represents mem
  have valid : cacheInvalid (wordOf actCl ⟨address / actCl.cachelinesize, true⟩) = 0 :=
    invalid_word (represents.even _ mem)
  have result : accessAS4 op stored actCl address state =
      ({ (state.countHit op).setData (updateLruQueue actCl (state.countHit op).levelData
          (address / actCl.cachelinesize % actCl.nrCachelines * actCl.associativity) pos
          (wordOf actCl ⟨address / actCl.cachelinesize, true⟩)) with level := 1 }, false) := by
    simp only [accessAS4, cacheline_of_line, aligned_line, State.levelData, found, word, valid,
      Option.isSome_some, Option.getD_some, and_self, if_true, count_hit_data, count_hit_level]
  rw [result]
  refine ⟨rfl, rfl, ?_, ?_⟩
  · have counted : RefinesLevel (state.countHit op) (state.countHit op).level actCl
        (ref.countHit op) := by
      rw [count_hit_level]
      exact count_hit_refines refines
    have updated := set_data_refines counted inside (by simpa using after true)
    rw [count_hit_level] at updated
    exact (set_level_same 1 _).refines updated
  · intro j other
    have counted : SameLevel state (state.countHit op) j := count_hit_same other
    exact (counted.trans (set_data_same _ (by simpa using other))).trans (set_level_same 1 j)

/-- A miss that enters the line, as a valid or as a written one. -/
theorem access_as4_fill {word : Nat → Nat} (valid : Bool) (address : Nat)
    (refines : RefinesLevel state state.level actCl ref)
    (miss : ref.hits actCl (address / actCl.cachelinesize) = false)
    (nonzero : address / actCl.cachelinesize = 0 → (ref.sets 0).length = actCl.associativity)
    (even : 2 ∣ address / actCl.cachelinesize * actCl.cachelinesize)
    (newvalue : word (address / actCl.cachelinesize * actCl.cachelinesize) =
      wordOf actCl ⟨address / actCl.cachelinesize, valid⟩) :
    Accessed state actCl ref
      ((ref.countMiss op).touchLine actCl (address / actCl.cachelinesize) valid)
      (state.level + 1) true (accessAS4 op (some word) actCl address state) := by
  have represents := refines.sets _ (set_idx_less actCl (address / actCl.cachelinesize))
  have filled : ∃ pos wasInvalid, pos < actCl.associativity ∧
      accessAS4 op (some word) actCl address state =
        ({ (state.countMiss wasInvalid op).setData (updateLruQueue actCl
            (state.countMiss wasInvalid op).levelData
            (address / actCl.cachelinesize % actCl.nrCachelines * actCl.associativity) pos
            (wordOf actCl ⟨address / actCl.cachelinesize, valid⟩)) with
          level := state.level + 1 }, true) ∧
      Represents actCl
        ((setWords actCl (state.data state.level)
            (address / actCl.cachelinesize % actCl.nrCachelines)).eraseIdx pos ++
          [wordOf actCl ⟨address / actCl.cachelinesize, valid⟩])
        (touch actCl.associativity
          (ref.sets (address / actCl.cachelinesize % actCl.nrCachelines))
          ⟨address / actCl.cachelinesize, valid⟩) := by
    by_cases written : (⟨address / actCl.cachelinesize, false⟩ : Entry Nat) ∈
        ref.sets (address / actCl.cachelinesize % actCl.nrCachelines)
    · -- The line is there, but only written: it is removed from where it stands.
      obtain ⟨pos, inside, found, entry, after⟩ := find_present represents written
      have invalid : cacheInvalid (wordOf actCl ⟨address / actCl.cachelinesize, false⟩) = 1 :=
        invalid_word (represents.even _ written)
      refine ⟨pos, 1, inside, ?_, after valid⟩
      simp [accessAS4, cacheline_of_line, aligned_line, State.levelData, State.setData, found,
        entry, invalid, newvalue]
    · -- The line is not there: the first word goes, a zero or the least recently used line.
      have absent := absent_of_miss miss written
      have full : address / actCl.cachelinesize = 0 →
          (ref.sets (address / actCl.cachelinesize % actCl.nrCachelines)).length =
            actCl.associativity := by
        intro zero
        rw [zero, Nat.zero_mod]
        exact nonzero zero
      have found := find_absent represents absent full
      refine ⟨0, 0, actCl.positive, ?_, represents_touch_absent represents absent full even valid⟩
      simp [accessAS4, cacheline_of_line, aligned_line, State.levelData, State.setData, found,
        newvalue]
  obtain ⟨pos, wasInvalid, inside, result, after⟩ := filled
  rw [result]
  refine ⟨rfl, rfl, ?_, ?_⟩
  · have counted : RefinesLevel (state.countMiss wasInvalid op)
        (state.countMiss wasInvalid op).level actCl (ref.countMiss op) := by
      rw [count_miss_level]
      exact count_miss_refines wasInvalid refines
    have updated := set_data_refines counted inside (by simpa using after)
    rw [count_miss_level] at updated
    exact (set_level_same _ _).refines updated
  · intro j other
    have counted : SameLevel state (state.countMiss wasInvalid op) j :=
      count_miss_same wasInvalid other
    exact (counted.trans (set_data_same _ (by simpa using other))).trans (set_level_same _ j)

theorem access_as4_around (address : Nat)
    (refines : RefinesLevel state state.level actCl ref)
    (miss : ref.hits actCl (address / actCl.cachelinesize) = false)
    (nonzero : address / actCl.cachelinesize = 0 → (ref.sets 0).length = actCl.associativity) :
    Accessed state actCl ref (ref.countMiss op) state.level false
      (accessAS4 op none actCl address state) := by
  have represents := refines.sets _ (set_idx_less actCl (address / actCl.cachelinesize))
  have result : ∃ wasInvalid, accessAS4 op none actCl address state =
      (state.countMiss wasInvalid op, false) := by
    by_cases written : (⟨address / actCl.cachelinesize, false⟩ : Entry Nat) ∈
        ref.sets (address / actCl.cachelinesize % actCl.nrCachelines)
    · obtain ⟨pos, inside, found, entry, _⟩ := find_present represents written
      have invalid : cacheInvalid (wordOf actCl ⟨address / actCl.cachelinesize, false⟩) = 1 :=
        invalid_word (represents.even _ written)
      refine ⟨1, ?_⟩
      simp [accessAS4, cacheline_of_line, aligned_line, State.levelData, found, entry, invalid]
    · have absent := absent_of_miss miss written
      have found := find_absent represents absent (by
        intro zero
        rw [zero, Nat.zero_mod]
        exact nonzero zero)
      refine ⟨0, ?_⟩
      simp [accessAS4, cacheline_of_line, aligned_line, State.levelData, found]
  obtain ⟨wasInvalid, result⟩ := result
  rw [result]
  exact ⟨rfl, count_miss_level wasInvalid, count_miss_refines wasInvalid refines,
    fun j other => count_miss_same wasInvalid other⟩

theorem update_lru_queue_one (direct : actCl.associativity = 1) (data : Nat → Nat)
    (pElm0 newvalue : Nat) :
    updateLruQueue actCl data pElm0 0 newvalue = Function.update data pElm0 newvalue := by
  simp [updateLruQueue, shiftQueue, direct]

theorem get_pos_one (data : Nat → Nat) (pElm0 alignedAddr : Nat) :
    getPosWithinSet data pElm0 alignedAddr 1 =
      if cacheContents (data pElm0) = alignedAddr then some 0 else none := rfl

/-- A direct mapped level does what a level with one way does. -/
theorem access_dm_same (direct : actCl.associativity = 1) (op : Op) (state : State)
    (stored : Option (Nat → Nat)) (address : Nat) :
    (accessDM op stored actCl address state).2 = (accessAS4 op stored actCl address state).2 ∧
      (accessDM op stored actCl address state).1.level =
        (accessAS4 op stored actCl address state).1.level ∧
      ∀ j, SameLevel (accessAS4 op stored actCl address state).1
        (accessDM op stored actCl address state).1 j := by
  by_cases here : cacheContents
      (state.data state.level (address / actCl.cachelinesize % actCl.nrCachelines)) =
        address / actCl.cachelinesize * actCl.cachelinesize
  · by_cases valid : cacheInvalid
        (state.data state.level (address / actCl.cachelinesize % actCl.nrCachelines)) = 0
    · -- Both hit; a queue of one word stays as it is.
      simp only [accessDM, State.levelData, aligned_line, cacheline_of_line, direct, mul_one, here,
        valid, and_self, if_true, count_hit_data, accessAS4, get_pos_one, Option.isSome_some,
        add_zero, Option.getD_some, update_lru_queue_one direct, Function.update_eq_self, true_and]
      intro j
      cases op <;> constructor <;> simp [State.countHit, State.setData]
    · cases stored <;>
        simp [accessDM, accessAS4, aligned_line, cacheline_of_line, State.levelData, direct,
          get_pos_one, here, valid, update_lru_queue_one direct, same_level_refl]
  · -- Both miss; only what is counted as invalid differs.
    cases stored with
    | none =>
        simp only [accessDM, State.levelData, aligned_line, cacheline_of_line, direct, mul_one,
          here, false_and, if_false, accessAS4, get_pos_one, Option.isSome_none,
          Bool.false_eq_true, and_true, count_miss_level, true_and]
        intro j
        cases op <;> exact ⟨rfl, rfl, rfl, rfl, rfl⟩
    | some word =>
        simp only [accessDM, State.levelData, aligned_line, cacheline_of_line, direct, mul_one,
          here, false_and, if_false, count_miss_level, count_miss_data, accessAS4, get_pos_one,
          Option.isSome_none, Bool.false_eq_true, and_true, Option.getD_none, mul_zero,
          update_lru_queue_one direct, Nat.add_right_cancel_iff, true_and]
        constructor
        · cases op <;> rfl
        · intro j
          cases op <;> exact ⟨rfl, rfl, rfl, rfl, rfl⟩

/-- What an access function stores for a line that it enters. -/
def storedWord (actCl : CacheLevel) (op : Op) : Option (Nat → Nat) :=
  (fills actCl op).map fun valid => if valid then id else makeInvalid

theorem access_function_eq (actCl : CacheLevel) (op : Op) :
    accessFunction actCl op =
      if actCl.associativity = 1 then accessDM op (storedWord actCl op)
      else accessAS4 op (storedWord actCl op) := by
  unfold accessFunction
  split
  · cases op with
    | read => rfl
    | write => cases policy : actCl.writepolicy <;> simp [storedWord, fills, policy] <;> rfl
  · cases op with
    | read => rfl
    | write => cases policy : actCl.writepolicy <;> simp [storedWord, fills, policy] <;> rfl

theorem access_function_accessed {ref' : RefLevel} {level : Nat} {continues : Bool} {address : Nat}
    (accessed : Accessed state actCl ref ref' level continues
      (accessAS4 op (storedWord actCl op) actCl address state)) :
    Accessed state actCl ref ref' level continues (accessFunction actCl op actCl address state) := by
  rw [access_function_eq]
  split
  · rename_i direct
    obtain ⟨flag, levels, same⟩ :=
      access_dm_same direct op state (storedWord actCl op) address
    exact ⟨flag.trans accessed.continues_eq, levels.trans accessed.level_eq,
      (same _).refines accessed.refines, fun j other => (accessed.same j other).trans (same j)⟩
  · exact accessed

/-- The word that is stored for a line, valid or not. -/
theorem stored_word_eq {valid : Bool} {line : Nat} (even : 2 ∣ line * actCl.cachelinesize) :
    (if valid then id else makeInvalid) (line * actCl.cachelinesize) =
      wordOf actCl ⟨line, valid⟩ := by
  cases valid with
  | true => rfl
  | false => exact make_invalid_even even

end Steps

section Runs

variable {op : Op} {address : Nat}

theorem refines_same {state state' : State} {k : Nat} {levels : List CacheLevel}
    {refs : List RefLevel} (same : ∀ j, k ≤ j → SameLevel state state' j)
    (refines : Refines state k levels refs) : Refines state' k levels refs := by
  induction levels generalizing k refs with
  | nil =>
      cases refs with
      | nil => trivial
      | cons ref refs => cases refines
  | cons actCl levels ih =>
      cases refs with
      | nil => cases refines
      | cons ref refs =>
          exact ⟨(same k (le_refl k)).refines refines.1,
            ih (fun j above => same j (by omega)) refines.2⟩

/-- What an access from level `k` on comes to: `refs` are the levels of the reference. -/
def Follows (cachelevels : List CacheLevel) (op : Op) (address depth k : Nat) (state : State)
    (levels : List CacheLevel) (refs : List RefLevel) : Prop :=
  ∃ state', accessTable cachelevels op address depth k state = some state' ∧
    state'.level = 1 ∧ Refines state' k levels refs ∧ ∀ j < k, SameLevel state state' j

theorem access_table_step {cachelevels : List CacheLevel} {state : State} {actCl : CacheLevel}
    (here : cachelevels[state.level - 1]? = some actCl) (depth : Nat) :
    accessTable cachelevels op address (depth + 1) state.level state =
      if (accessFunction actCl op actCl address state).2 then
        accessTable cachelevels op address depth
          (accessFunction actCl op actCl address state).1.level
          (accessFunction actCl op actCl address state).1
      else some (accessFunction actCl op actCl address state).1 := by
  simp [accessTable, here]

section Level

variable {cachelevels levels : List CacheLevel} {state : State} {actCl : CacheLevel}
  {ref ref' : RefLevel} {refs refs' : List RefLevel} {depth : Nat}

/-- An access that ends at its level. -/
theorem Accessed.stops (here : cachelevels[state.level - 1]? = some actCl)
    (accessed : Accessed state actCl ref ref' 1 false (accessFunction actCl op actCl address state))
    (refines : Refines state (state.level + 1) levels refs) :
    Follows cachelevels op address (depth + 1) state.level state (actCl :: levels)
      (ref' :: refs) := by
  refine ⟨_, ?_, accessed.level_eq, ⟨accessed.refines, ?_⟩, fun j less => ?_⟩
  · rw [access_table_step here, accessed.continues_eq]
    rfl
  · exact refines_same (fun j above => accessed.same j (by omega)) refines
  · exact accessed.same j (by omega)

/-- An access that goes on at the next level. -/
theorem Accessed.proceeds (here : cachelevels[state.level - 1]? = some actCl)
    (accessed : Accessed state actCl ref ref' (state.level + 1) true
      (accessFunction actCl op actCl address state))
    (later : Follows cachelevels op address depth (state.level + 1)
      (accessFunction actCl op actCl address state).1 levels refs') :
    Follows cachelevels op address (depth + 1) state.level state (actCl :: levels)
      (ref' :: refs') := by
  obtain ⟨state', result, level, refined, before⟩ := later
  refine ⟨state', ?_, level, ⟨?_, refined⟩, fun j less => ?_⟩
  · rw [access_table_step here, accessed.continues_eq, if_pos rfl, accessed.level_eq]
    exact result
  · exact (before state.level (by omega)).refines accessed.refines
  · exact (accessed.same j (by omega)).trans (before j (by omega))

end Level

/-- An undisturbed access from level `k` on follows the reference and leaves the levels before
`k` alone. -/
theorem access_refines (cachelevels : List CacheLevel) {depth k : Nat} {state : State}
    {levels : List CacheLevel} {refs : List RefLevel} (suffix : cachelevels.drop (k - 1) = levels)
    (first : 1 ≤ k) (level : state.level = k) (enough : levels.length < depth)
    (refines : Refines state k levels refs) (undisturbed : Undisturbed op address k levels refs) :
    Follows cachelevels op address depth k state levels (refAccess op address levels refs) := by
  induction levels generalizing depth k state refs with
  | nil =>
      obtain ⟨depth, rfl⟩ := Nat.exists_eq_succ_of_ne_zero (by omega : depth ≠ 0)
      have beyond : cachelevels[k - 1]? = none := by
        rw [List.getElem?_eq_none]
        exact List.drop_eq_nil_iff.mp suffix
      refine ⟨{ state with level := 1 }, ?_, rfl, ?_, fun j _ => set_level_same 1 j⟩
      · simp [accessTable, beyond]
      · cases refs with
        | nil => trivial
        | cons ref refs => cases refines
  | cons actCl levels ih =>
      obtain ⟨depth, rfl⟩ := Nat.exists_eq_succ_of_ne_zero (by omega : depth ≠ 0)
      have here : cachelevels[k - 1]? = some actCl := by
        rw [← List.head?_drop, suffix]
        rfl
      have rest : cachelevels.drop (k + 1 - 1) = levels := by
        rw [show k + 1 - 1 = k - 1 + 1 by omega, ← List.drop_drop, suffix]
        rfl
      cases refs with
      | nil => cases refines
      | cons ref refs =>
          subst level
          obtain ⟨nonzero, cases'⟩ := undisturbed
          cases hit : ref.hits actCl (address / actCl.cachelinesize) with
          | true =>
              have accessed : Accessed state actCl ref
                  ((ref.countHit op).touchLine actCl (address / actCl.cachelinesize) true) 1 false
                  (accessFunction actCl op actCl address state) :=
                access_function_accessed (access_as4_hit _ address refines.1 hit)
              simp only [refAccess, hit, if_true]
              exact accessed.stops here refines.2
          | false =>
              simp only [hit, Bool.false_eq_true, false_or] at cases'
              cases filled : fills actCl op with
              -- the line is stored at this level, and the access goes on to the next one
              | some valid =>
                  rw [filled] at cases'
                  have even := aligned_even actCl address cases'.1
                  have stored : storedWord actCl op =
                      some (if valid then id else makeInvalid) := by
                    rw [storedWord, filled]
                    rfl
                  have accessed : Accessed state actCl ref
                      ((ref.countMiss op).touchLine actCl (address / actCl.cachelinesize) valid)
                      (state.level + 1) true (accessFunction actCl op actCl address state) := by
                    apply access_function_accessed
                    rw [stored]
                    exact access_as4_fill valid address refines.1 hit nonzero even
                      (stored_word_eq even)
                  have later : Refines (accessFunction actCl op actCl address state).1
                      (state.level + 1) levels refs :=
                    refines_same (fun j above => accessed.same j (by omega)) refines.2
                  simp only [refAccess, hit, filled]
                  exact accessed.proceeds here
                    (ih rest (by omega) accessed.level_eq (by simpa using enough) later cases'.2)
              -- a write that is not stored at this level ends here
              | none =>
                  rw [filled] at cases'
                  have stored : storedWord actCl op = none := by
                    rw [storedWord, filled]
                    rfl
                  have accessed : Accessed state actCl ref (ref.countMiss op) 1 false
                      (accessFunction actCl op actCl address state) := by
                    apply access_function_accessed
                    rw [stored, ← cases']
                    exact access_as4_around address refines.1 hit nonzero
                  simp only [refAccess, hit, filled]
                  exact accessed.stops here refines.2

theorem initial_refines (levels : List CacheLevel) (k : Nat) :
    Refines State.initial k levels (levels.map fun _ => RefLevel.initial) := by
  induction levels generalizing k with
  | nil => trivial
  | cons actCl levels ih =>
      refine ⟨⟨rfl, rfl, rfl, rfl, ?_⟩, ih (k + 1)⟩
      intro idx _
      constructor
      · exact kept_nil _
      · simp [setWords, State.initial, RefLevel.initial]
      · intro entry mem
        cases mem
      · intro _ entry mem
        cases mem

theorem run_refines (levels : List CacheLevel) (accesses : List (Op × Nat)) {state : State}
    {refs : List RefLevel} (level : state.level = 1) (refines : Refines state 1 levels refs)
    (undisturbed : RunUndisturbed levels accesses refs) :
    ∃ state', run levels accesses state = some state' ∧ state'.level = 1 ∧
      Refines state' 1 levels (refRun levels accesses refs) := by
  induction accesses generalizing state refs with
  | nil => exact ⟨state, rfl, level, refines⟩
  | cons access accesses ih =>
      obtain ⟨op, address⟩ := access
      obtain ⟨state1, result, level1, refines1, _⟩ :=
        access_refines levels rfl (le_refl 1) level (Nat.lt_succ_self levels.length) refines
          undisturbed.1
      obtain ⟨state', rest, level', refines'⟩ := ih level1 refines1 undisturbed.2
      refine ⟨state', ?_, level', refines'⟩
      rw [run, CacheLevels.access, result]
      exact rest

/-- Runs from empty caches whose accesses are undisturbed: level 1 is the current one after every
access, and sets and counters are those of the reference. -/
theorem cache_simulation_refines (levels : List CacheLevel) (accesses : List (Op × Nat))
    (undisturbed : RunUndisturbed levels accesses (levels.map fun _ => RefLevel.initial)) :
    ∃ state, run levels accesses State.initial = some state ∧ state.level = 1 ∧
      Refines state 1 levels
        (refRun levels accesses (levels.map fun _ => RefLevel.initial)) :=
  run_refines levels accesses rfl (initial_refines levels 1) undisturbed

/-- A direct mapped level over one with two ways that is written around or not. -/
def twoLevels (writepolicy : WritePolicy) : List CacheLevel :=
  [⟨1, 4, 1, .fetchOnWrite, Nat.one_pos⟩, ⟨2, 4, 1, writepolicy, Nat.two_pos⟩]

theorem cache_simulation_two_levels :
    ∃ state, run (twoLevels .writeValidate) [(.write, 64), (.read, 64)] State.initial =
        some state ∧ state.level = 1 ∧
      Refines state 1 (twoLevels .writeValidate)
        (refRun (twoLevels .writeValidate) [(.write, 64), (.read, 64)]
          ((twoLevels .writeValidate).map fun _ => RefLevel.initial)) := by
  apply cache_simulation_refines
  refine ⟨⟨fun zero => ?_, .inr ⟨fun zero => ?_, fun zero => ?_, .inr ⟨fun zero => ?_, trivial⟩⟩⟩,
    ⟨fun zero => ?_, .inl (by decide)⟩, trivial⟩
  all_goals exact absurd zero (by decide)

/-- The write is missed by level 1 and written around level 2, which stays the current level: the
read that level 1 would hit is looked for in level 2. -/
theorem write_around_differs :
    (run (twoLevels .writeAround) [(.write, 64)] State.initial).map (fun state => state.level) =
        some 2 ∧
      (run (twoLevels .writeAround) [(.write, 64), (.read, 64)] State.initial).map
        (fun state => (state.rhit 1, state.rmiss 2)) = some (0, 1) ∧
      (refRun (twoLevels .writeAround) [(.write, 64), (.read, 64)]
        ((twoLevels .writeAround).map fun _ => RefLevel.initial)).map
          (fun ref => (ref.rhit, ref.rmiss)) = [(1, 0), (0, 0)] := by
  decide

end Runs

end Sac2c.CacheRefinement
