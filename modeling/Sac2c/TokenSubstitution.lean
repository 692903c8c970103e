import Mathlib.Data.List.Infix
import Mathlib.Data.BitVec
import Mathlib.Tactic.Ring

/-!
STRsubstToken of support/str.c, which replaces every occurrence of a token. The
memory of the result comes from a count of the occurrences with strstr, the result
from a test for the token at each position. Both find the occurrences that a reading
from left to right takes one after another, so the memory is filled exactly.
-/

namespace Sac2c.TokenSubstitution

section Replacements

variable {α : Type}

/-- `out` is `str` with `n` occurrences of `token` replaced: always the leftmost one of
what is left, until there is none. -/
inductive Replaced (token subst : List α) : List α → List α → Nat → Prop
  | absent {str : List α} (none : ¬ token <:+: str) : Replaced token subst str str 0
  | leftmost {str out : List α} {n : Nat} (before after : List α)
      (split : str = before ++ token ++ after)
      (first : ∀ i < before.length, ¬ token <+: str.drop i)
      (rest : Replaced token subst after out n) :
      Replaced token subst str (before ++ subst ++ out) (n + 1)

variable {token subst : List α}

theorem leftmost_length_le {str before before' after' : List α}
    (split' : str = before' ++ token ++ after')
    (first : ∀ i < before.length, ¬ token <+: str.drop i) :
    before.length ≤ before'.length := by
  by_contra shorter
  have occurs : token <+: str.drop before'.length := by
    rw [split', List.append_assoc, List.drop_left]
    exact List.prefix_append _ _
  exact first _ (by omega) occurs

theorem leftmost_unique {str before after before' after' : List α}
    (split : str = before ++ token ++ after) (split' : str = before' ++ token ++ after')
    (first : ∀ i < before.length, ¬ token <+: str.drop i)
    (first' : ∀ i < before'.length, ¬ token <+: str.drop i) :
    before = before' ∧ after = after' := by
  have length : before.length = before'.length :=
    Nat.le_antisymm (leftmost_length_le split' first) (leftmost_length_le split first')
  have equal : before ++ (token ++ after) = before' ++ (token ++ after') := by
    rw [← List.append_assoc, ← split, split', List.append_assoc]
  have parts := List.append_inj equal length
  exact ⟨parts.1, List.append_cancel_left parts.2⟩

theorem replaced_unique {str out out' : List α} {n n' : Nat}
    (done : Replaced token subst str out n) (done' : Replaced token subst str out' n') :
    out = out' ∧ n = n' := by
  induction done generalizing out' n' with
  | absent none =>
      cases done' with
      | absent => exact ⟨rfl, rfl⟩
      | leftmost before after split =>
          exact absurd ⟨before, after, split.symm⟩ none
  | leftmost before after split first rest ih =>
      cases done' with
      | absent none => exact absurd ⟨before, after, split.symm⟩ none
      | leftmost before' after' split' first' rest' =>
          have same := leftmost_unique split split' first first'
          cases same.1
          cases same.2
          have tail := ih rest'
          simp [tail.1, tail.2]

theorem replaced_length {str out : List α} {n : Nat} (done : Replaced token subst str out n) :
    out.length + n * token.length = str.length + n * subst.length := by
  induction done with
  | absent none => simp
  | leftmost before after split first rest ih =>
      rename_i out n
      simp only [split, List.length_append]
      calc _ = before.length + subst.length + token.length
            + (out.length + n * token.length) := by ring
        _ = _ := by rw [ih]; ring

/-- Nothing gets into the result but from the string and the substitutes. -/
theorem replaced_mem {str out : List α} {n : Nat} (done : Replaced token subst str out n) {c : α}
    (member : c ∈ out) : c ∈ str ∨ c ∈ subst := by
  induction done with
  | absent none => exact Or.inl member
  | leftmost before after split first rest ih =>
      simp only [split, List.mem_append] at member ⊢
      rcases member with (early | substitute) | late
      · exact Or.inl (Or.inl (Or.inl early))
      · exact Or.inr substitute
      · rcases ih late with kept | substitute
        · exact Or.inl (Or.inr kept)
        · exact Or.inr substitute

theorem replaced_token {str out : List α} {n : Nat} (done : Replaced token subst str out n) :
    Replaced token subst (token ++ str) (subst ++ out) (n + 1) :=
  .leftmost [] str (by simp) (by simp) done

/-- A character at which no occurrence starts is kept. -/
theorem replaced_cons {c : α} {str out : List α} {n : Nat}
    (here : ¬ token <+: c :: str) (done : Replaced token subst str out n) :
    Replaced token subst (c :: str) (c :: out) n := by
  cases done with
  | absent none =>
      refine .absent fun occurs => ?_
      rcases List.infix_cons_iff.mp occurs with start | later
      · exact here start
      · exact none later
  | leftmost before after split first rest =>
      refine .leftmost (c :: before) after (by simp [split]) (fun i small => ?_) rest
      cases i with
      | zero => exact here
      | succ i => exact first i (by simpa using small)

end Replacements

section Model

def nul : Char := '\x00'

/-- A string with what stands before its terminator. -/
structure CString where
  chars : List Char
  nonzero : nul ∉ chars
  fits : chars.length < 2 ^ 64

/-- A size_t of 64 bits. -/
abbrev SizeT := BitVec 64

def strlen (str : List Char) : SizeT := BitVec.ofNat 64 str.length

/-- strncmp of the library, up to the size of the result. -/
def strncmp : List Char → List Char → Nat → Int
  | _, _, 0 => 0
  | [], [], _ + 1 => 0
  | a :: _, [], _ + 1 => a.toNat
  | [], b :: _, _ + 1 => -b.toNat
  | a :: as, b :: bs, n + 1 =>
      if a = b then strncmp as bs n else (a.toNat : Int) - b.toNat

/-- STRprefix, for two strings that are there. -/
def strPrefix (start str : List Char) : Bool :=
  let plen := strlen start
  if (strlen str).ult plen then false
  else 0 == strncmp start str (strlen start).toNat

/-- strstr of the library: the rest of the string from the first occurrence on. -/
def strstr (token : List Char) : List Char → Option (List Char)
  | [] => if token.isPrefixOf [] then some [] else none
  | c :: str => if token.isPrefixOf (c :: str) then some (c :: str) else strstr token str

/-- The loop that counts, from what the last strstr has found; none for a loop that
goes on after `fuel` rounds. -/
def countOccurrences (token : List Char) (tlen : SizeT) :
    Nat → Option (List Char) → SizeT → Option SizeT
  | _, none, occurrences => some occurrences
  | 0, some _, _ => none
  | fuel + 1, some found, occurrences =>
      countOccurrences token tlen fuel (strstr token (found.drop tlen.toNat)) (occurrences + 1)

/-- The loop that makes the substitutions, with what it writes from pos on. -/
def makeSubstitutions (token subst : List Char) (tlen slen : SizeT) :
    Nat → List Char → Option (List Char)
  | _, [] => some []
  | 0, _ :: _ => none
  | fuel + 1, c :: str =>
      if strPrefix token (c :: str) then
        (makeSubstitutions token subst tlen slen fuel ((c :: str).drop tlen.toNat)).map
          (subst.take slen.toNat ++ ·)
      else (makeSubstitutions token subst tlen slen fuel str).map (c :: ·)

/-- The size given to MEMmalloc and the characters written to that memory in order. -/
structure Result where
  allocated : SizeT
  written : List Char
  deriving DecidableEq

/-- STRsubstToken. -/
def substToken (fuel : Nat) (str token subst : CString) : Option Result := do
  let tlen := strlen token.chars
  let slen := strlen subst.chars
  let occurrences ← countOccurrences token.chars tlen fuel (strstr token.chars str.chars) 0
  let written ← makeSubstitutions token.chars subst.chars tlen slen fuel str.chars
  some ⟨strlen str.chars + occurrences * (strlen subst.chars - tlen) + 1, written ++ [nul]⟩

end Model

section Scans

theorem strlen_toNat (str : CString) : (strlen str.chars).toNat = str.chars.length := by
  simp only [strlen, BitVec.toNat_ofNat]
  exact Nat.mod_eq_of_lt str.fits

theorem strncmp_eq_zero_iff (start str : List Char) (long : start.length ≤ str.length) :
    strncmp start str start.length = 0 ↔ start <+: str := by
  induction start generalizing str with
  | nil => simp [strncmp]
  | cons a rest ih =>
      cases str with
      | nil => simp at long
      | cons b tail =>
          simp only [List.length_cons, Nat.add_le_add_iff_right] at long
          simp only [List.length_cons, strncmp, List.cons_prefix_cons]
          by_cases same : a = b
          · simp [same, ih tail long]
          · have codes : a.toNat ≠ b.toNat := fun equal => same (Char.toNat_inj.mp equal)
            simp only [same, false_and, ↓reduceIte, iff_false]
            omega

theorem str_prefix_iff (start : CString) (str : List Char) (fits : str.length < 2 ^ 64) :
    strPrefix start.chars str = true ↔ start.chars <+: str := by
  have length : (strlen str).toNat = str.length := Nat.mod_eq_of_lt fits
  simp only [strPrefix, BitVec.ult, length, strlen_toNat]
  by_cases short : str.length < start.chars.length
  · simp only [short, decide_true, ↓reduceIte, Bool.false_eq_true, false_iff]
    intro starts
    have := starts.length_le
    omega
  · have compared := strncmp_eq_zero_iff start.chars str (by omega)
    simp only [short, decide_false, Bool.false_eq_true, ↓reduceIte, beq_iff_eq]
    exact eq_comm.trans compared

theorem strstr_none (token str : List Char) (found : strstr token str = none) :
    ¬ token <:+: str := by
  induction str with
  | nil => simpa [strstr] using found
  | cons c rest ih =>
      simp only [strstr] at found
      split at found
      · cases found
      · rename_i here
        intro occurs
        rcases List.infix_cons_iff.mp occurs with start | later
        · exact here (by simpa using start)
        · exact ih found later

theorem strstr_some (token str found : List Char) (hit : strstr token str = some found) :
    token <+: found ∧ ∃ before, str = before ++ found ∧
      ∀ i < before.length, ¬ token <+: str.drop i := by
  induction str with
  | nil =>
      simp only [strstr] at hit
      split at hit
      · rename_i here
        cases hit
        exact ⟨by simpa using here, [], rfl, by simp⟩
      · cases hit
  | cons c rest ih =>
      simp only [strstr] at hit
      split at hit
      · rename_i here
        cases hit
        exact ⟨by simpa using here, [], rfl, by simp⟩
      · rename_i here
        obtain ⟨starts, before, split, first⟩ := ih hit
        refine ⟨starts, c :: before, by simp [split], fun i small => ?_⟩
        cases i with
        | zero => simpa using here
        | succ i => exact first i (by simpa using small)

variable {token : CString}

/-- The count is that of the replacement, with one round of the loop for each
occurrence. -/
theorem count_occurrences (subst : CString) (nonempty : token.chars ≠ []) (fuel : Nat)
    (str : List Char) (enough : str.length < fuel) (occurrences : SizeT) :
    ∃ out n, Replaced token.chars subst.chars str out n ∧
      countOccurrences token.chars (strlen token.chars) fuel (strstr token.chars str)
        occurrences = some (occurrences + BitVec.ofNat 64 n) := by
  induction fuel generalizing str occurrences with
  | zero => omega
  | succ fuel ih =>
      cases hit : strstr token.chars str with
      | none => exact ⟨str, 0, .absent (strstr_none _ _ hit), by simp [countOccurrences]⟩
      | some found =>
          obtain ⟨⟨after, rfl⟩, before, split, first⟩ := strstr_some _ _ _ hit
          -- a token that is not empty makes what is left shorter
          have shorter : after.length < fuel := by
            have positive := List.length_pos_iff.mpr nonempty
            have length := congrArg List.length split
            simp only [List.length_append] at length
            omega
          obtain ⟨out, n, done, counted⟩ := ih after shorter (occurrences + 1)
          refine ⟨before ++ subst.chars ++ out, n + 1,
            .leftmost before after (by simp [split]) first done, ?_⟩
          have one : BitVec.ofNat 64 (n + 1) = 1 + BitVec.ofNat 64 n := by
            rw [Nat.add_comm, BitVec.ofNat_add]
            rfl
          simp only [countOccurrences, strlen_toNat, List.drop_left, counted, one]
          rw [add_assoc]

theorem make_substitutions (subst : CString) (nonempty : token.chars ≠ []) (fuel : Nat)
    (str : List Char) (fits : str.length < 2 ^ 64) (enough : str.length < fuel) :
    ∃ out n, Replaced token.chars subst.chars str out n ∧
      makeSubstitutions token.chars subst.chars (strlen token.chars) (strlen subst.chars)
        fuel str = some out := by
  have positive := List.length_pos_iff.mpr nonempty
  induction fuel generalizing str with
  | zero => omega
  | succ fuel ih =>
      cases str with
      | nil =>
          refine ⟨[], 0, .absent fun occurs => ?_, by simp [makeSubstitutions]⟩
          exact nonempty (List.infix_nil.mp occurs)
      | cons c rest =>
          by_cases here : token.chars <+: c :: rest
          · obtain ⟨after, split⟩ := here
            have length := congrArg List.length split
            simp only [List.length_append, List.length_cons] at length enough fits
            obtain ⟨out, n, done, made⟩ := ih after (by omega) (by omega)
            refine ⟨subst.chars ++ out, n + 1, split ▸ replaced_token done, ?_⟩
            have test : strPrefix token.chars (c :: rest) = true :=
              (str_prefix_iff token _ (by simpa using fits)).mpr ⟨after, split⟩
            have left : (c :: rest).drop token.chars.length = after := by
              rw [← split, List.drop_left]
            simp [makeSubstitutions, test, left, made, strlen_toNat]
          · simp only [List.length_cons] at enough fits
            obtain ⟨out, n, done, made⟩ := ih rest (by omega) (by omega)
            refine ⟨c :: out, n, replaced_cons here done, ?_⟩
            have test : strPrefix token.chars (c :: rest) = false :=
              Bool.eq_false_iff.mpr fun passes =>
                here ((str_prefix_iff token _ (by simpa using fits)).mp passes)
            simp [makeSubstitutions, test, made]

end Scans

section Substitution

/-- Both scans find the same occurrences. -/
theorem subst_result (str token subst : CString) (nonempty : token.chars ≠ []) (fuel : Nat)
    (enough : str.chars.length < fuel) :
    ∃ out n, Replaced token.chars subst.chars str.chars out n ∧
      substToken fuel str token subst =
        some ⟨BitVec.ofNat 64 (out ++ [nul]).length, out ++ [nul]⟩ := by
  obtain ⟨out, n, done, made⟩ :=
    make_substitutions subst nonempty fuel str.chars str.fits enough
  obtain ⟨out', n', counting, counted⟩ :=
    count_occurrences subst nonempty fuel str.chars enough 0
  obtain ⟨rfl, rfl⟩ := replaced_unique done counting
  refine ⟨out, n, done, ?_⟩
  simp only [substToken, counted, made, Option.bind_eq_bind, Option.bind_some,
    Option.some.injEq, Result.mk.injEq, and_true]
  have length := congrArg (BitVec.ofNat 64) (replaced_length done)
  simp only [BitVec.ofNat_add, BitVec.ofNat_mul] at length
  simp only [strlen, List.length_append, List.length_singleton, BitVec.ofNat_add, zero_add]
  calc _ = BitVec.ofNat 64 str.chars.length
          + BitVec.ofNat 64 n * BitVec.ofNat 64 subst.chars.length
          - BitVec.ofNat 64 n * BitVec.ofNat 64 token.chars.length + 1 := by ring
    _ = BitVec.ofNat 64 out.length + 1 := by rw [← length]; ring

/-- Both scans agree, so the memory is filled exactly up to the bits of a size_t. -/
theorem subst_token (str token subst : CString) (nonempty : token.chars ≠ []) (fuel : Nat)
    (enough : str.chars.length < fuel) :
    ∃ out n, Replaced token.chars subst.chars str.chars out n ∧
      (∀ out' n', Replaced token.chars subst.chars str.chars out' n' → out' = out) ∧
      ∃ allocated, substToken fuel str token subst = some ⟨allocated, out ++ [nul]⟩ ∧
        allocated = BitVec.ofNat 64 (out ++ [nul]).length := by
  obtain ⟨out, n, done, result⟩ := subst_result str token subst nonempty fuel enough
  exact ⟨out, n, done, fun other _ h => (replaced_unique h done).1, _, result, rfl⟩

/-- The token overlaps itself. -/
theorem subst_token_overlapping :
    let str : CString := ⟨['a', 'a', 'a', 'a', 'a'], by decide, by decide⟩
    let token : CString := ⟨['a', 'a'], by decide, by decide⟩
    let subst : CString := ⟨['b'], by decide, by decide⟩
    ∃ out n, Replaced token.chars subst.chars str.chars out n ∧
      (∀ out' n', Replaced token.chars subst.chars str.chars out' n' → out' = out) ∧
      ∃ allocated, substToken 6 str token subst = some ⟨allocated, out ++ [nul]⟩ ∧
        allocated = BitVec.ofNat 64 (out ++ [nul]).length :=
  subst_token ⟨['a', 'a', 'a', 'a', 'a'], by decide, by decide⟩ ⟨['a', 'a'], by decide, by decide⟩
    ⟨['b'], by decide, by decide⟩ (by decide) 6 (by decide)

example :
    substToken 6 ⟨['a', 'a', 'a', 'a', 'a'], by decide, by decide⟩
      ⟨['a', 'a'], by decide, by decide⟩ ⟨['b'], by decide, by decide⟩ =
    some ⟨4, ['b', 'b', 'a', nul]⟩ := by
  decide

end Substitution

end Sac2c.TokenSubstitution
