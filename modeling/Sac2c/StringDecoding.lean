import Mathlib.Algebra.Group.Nat.Defs
import Mathlib.Data.List.Basic
import Mathlib.Data.Nat.Init

/-!
STRstring2Array of support/str.c, which makes the characters of a string literal.
It reads the literal from right to left and takes a character for an escaped one
if a backslash stands before it. Reading from left to right gives other characters
exactly if an escape letter comes right after an even run of backslashes.
-/

namespace Sac2c.StringDecoding

section Model

def nul : Char := '\x00'

def backslash : Char := '\\'

/-- The cases of the switch that stand for a letter. -/
def letters : List (Char × Char) :=
  [('n', '\n'), ('t', '\t'), ('v', '\x0b'), ('b', '\x08'), ('r', '\r'), ('f', '\x0c'),
    ('a', '\x07')]

/-- All cases of the switch; none is the default case. -/
def escaped (c : Char) : Option Char :=
  ((letters ++ [('"', '"'), (backslash, backslash)]).find? fun entry => entry.1 == c).map Prod.snd

/-- The loop, with the characters before `str[i]`, the last of them first. -/
def decodeBack : List Char → List Char → Nat → List Char × Nat
  | [], newExprs, cnt => (newExprs, cnt)
  | [c], newExprs, cnt => (c :: newExprs, cnt + 1)
  | c :: before :: rest, newExprs, cnt =>
      if before = backslash then
        match escaped c with
        | some e => decodeBack rest (e :: newExprs) (cnt + 1)
        | none => decodeBack (before :: rest) (c :: newExprs) (cnt + 1)
      else decodeBack (before :: rest) (c :: newExprs) (cnt + 1)

/-- A size_t passed as an int of 32 bits, as TBmakeNum takes it. -/
def toInt (n : Nat) : Int := Int.bmod n (2 ^ 32)

/-- The call of String::to_string: the character array, with the literal that is
kept in its ARRAY_STRING, and the length. -/
structure ToString where
  array : List Char
  arrayString : List Char
  lenExpr : Int
  deriving DecidableEq, Repr

/-- STRstring2Array. -/
def string2Array (str : List Char) : ToString :=
  let decoded := decodeBack str.reverse [nul] 0
  ⟨decoded.1, str, toInt decoded.2⟩

end Model

section Reading

/-- The literal read from left to right. -/
def readEscapes : List Char → List Char
  | [] => []
  | [c] => [c]
  | c :: next :: rest =>
      if c = backslash then
        match escaped next with
        | some e => e :: readEscapes rest
        | none => c :: readEscapes (next :: rest)
      else c :: readEscapes (next :: rest)

/-- A letter of `letters` comes right after a maximal run of backslashes whose length is
even and positive; `run` backslashes stand before the literal. -/
def letterAfterEvenRun : Nat → List Char → Bool
  | _, [] => false
  | run, c :: rest =>
      if c = backslash then letterAfterEvenRun (run + 1) rest
      else (0 < run && run % 2 == 0 && letters.any fun entry => entry.1 == c) ||
        letterAfterEvenRun 0 rest

end Reading

section Runs

/-- A literal is a run of backslashes alone, or a run, another character and a literal. -/
theorem run_induction {P : List Char → Prop} (last : ∀ n, P (List.replicate n backslash))
    (step : ∀ n c rest, c ≠ backslash → P rest → P (List.replicate n backslash ++ c :: rest))
    (str : List Char) : P str := by
  have behind : ∀ n, P (List.replicate n backslash ++ str) := by
    induction str with
    | nil => simpa using last
    | cons c rest ih =>
        intro n
        by_cases same : c = backslash
        · have longer := ih (n + 1)
          rw [List.replicate_succ', List.append_assoc] at longer
          simpa [same] using longer
        · exact step n c rest same (ih 0)
  exact behind 0

theorem escaped_backslash : escaped backslash = some backslash := by decide

/-- A letter stands for another character. -/
theorem letter_changes {c : Char} (letter : letters.any (fun entry => entry.1 == c) = true) :
    (escaped c).getD c ≠ c := by
  have all : ∀ entry ∈ letters, (escaped entry.1).getD entry.1 ≠ entry.1 := by decide
  obtain ⟨entry, member, same⟩ := List.any_eq_true.mp letter
  have first : entry.1 = c := by simpa using same
  simpa [first] using all entry member

/-- The other cases of the switch, and the default case, stand for the character itself. -/
theorem other_kept {c : Char} (other : letters.any (fun entry => entry.1 == c) = false) :
    (escaped c).getD c = c := by
  have missed : letters.find? (fun entry => entry.1 == c) = none := by
    simpa [List.find?_eq_none, List.any_eq_false] using other
  unfold escaped
  rw [List.find?_append, missed, Option.none_or]
  by_cases quote : c = '"'
  · subst quote
    decide
  · by_cases slash : c = backslash
    · subst slash
      decide
    · simp [Ne.symm quote, Ne.symm slash]

end Runs

section Forward

/-- The characters in the order in which the loop decodes them. -/
def back : List Char → List Char
  | [] => []
  | [c] => [c]
  | c :: before :: rest =>
      if before = backslash then
        match escaped c with
        | some e => e :: back rest
        | none => c :: back (before :: rest)
      else c :: back (before :: rest)

theorem decode_back (str newExprs : List Char) (cnt : Nat) :
    decodeBack str newExprs cnt = ((back str).reverse ++ newExprs, cnt + (back str).length) := by
  induction str, newExprs, cnt using decodeBack.induct with
  | case1 newExprs cnt => simp [decodeBack, back]
  | case2 newExprs cnt c => simp [decodeBack, back]
  | case3 newExprs cnt c rest e found ih =>
      simp [decodeBack, back, found, ih]
      omega
  | case4 newExprs cnt c rest found ih =>
      simp [decodeBack, back, found, ih]
      omega
  | case5 newExprs cnt c before rest differs ih =>
      simp [decodeBack, back, differs, ih]
      omega

/-- The characters that the loop makes of a literal. -/
def forward (str : List Char) : List Char := (back str.reverse).reverse

theorem string2array_forward (str : List Char) :
    string2Array str = ⟨forward str ++ [nul], str, toInt (forward str).length⟩ := by
  simp [string2Array, decode_back, forward]

/-- A character that is no backslash leaves what stands after it alone. -/
theorem back_append (later : List Char) {c : Char} (other : c ≠ backslash) (rest : List Char) :
    back (later ++ c :: rest) = back later ++ back (c :: rest) := by
  induction later using back.induct with
  | case1 => rfl
  | case2 d => simp [back, other]
  | case3 d rest e found ih => simp [back, found, ih]
  | case4 d rest found ih => simpa [back, found] using ih
  | case5 d before rest differs ih => simpa [back, differs] using ih

/-- The number of backslashes that stay of a run before a character. -/
def kept (n : Nat) (c : Char) : Nat := if (escaped c).isSome then n / 2 else (n + 1) / 2

theorem back_backslashes (n : Nat) :
    back (List.replicate n backslash) = List.replicate ((n + 1) / 2) backslash := by
  induction n using Nat.twoStepInduction with
  | zero => rfl
  | one => rfl
  | more n ih _ =>
      have half : (n + 2 + 1) / 2 = (n + 1) / 2 + 1 := by omega
      simp [List.replicate_succ, back, escaped_backslash, half, ih]

theorem back_run (n : Nat) (c : Char) :
    back (c :: List.replicate n backslash) =
      (if 0 < n then (escaped c).getD c else c) :: List.replicate (kept n c) backslash := by
  cases n with
  | zero => simp [back, kept]
  | succ n =>
      cases found : escaped c with
      | none =>
          have rest := back_backslashes (n + 1)
          rw [List.replicate_succ] at rest
          simp [back, kept, List.replicate_succ, found, rest]
      | some e => simp [back, kept, List.replicate_succ, found, back_backslashes]

theorem forward_run (n : Nat) {c : Char} (other : c ≠ backslash) (rest : List Char) :
    forward (List.replicate n backslash ++ c :: rest) =
      List.replicate (kept n c) backslash ++
        (if 0 < n then (escaped c).getD c else c) :: forward rest := by
  have turned : (List.replicate n backslash ++ c :: rest).reverse =
      rest.reverse ++ c :: List.replicate n backslash := by simp
  simp [forward, turned, back_append rest.reverse other, back_run]

theorem forward_backslashes (n : Nat) :
    forward (List.replicate n backslash) = List.replicate ((n + 1) / 2) backslash := by
  simp [forward, back_backslashes]

end Forward

section LeftToRight

theorem read_plain {c : Char} (other : c ≠ backslash) (rest : List Char) :
    readEscapes (c :: rest) = c :: readEscapes rest := by
  cases rest with
  | nil => rfl
  | cons next rest => simp [readEscapes, other]

theorem read_pairs (j : Nat) (rest : List Char) :
    readEscapes (List.replicate (2 * j) backslash ++ rest) =
      List.replicate j backslash ++ readEscapes rest := by
  induction j with
  | zero => simp
  | succ j ih => simp [Nat.mul_succ, List.replicate_succ, readEscapes, escaped_backslash, ih]

theorem read_backslashes (n : Nat) :
    readEscapes (List.replicate n backslash) = List.replicate ((n + 1) / 2) backslash := by
  induction n using Nat.twoStepInduction with
  | zero => rfl
  | one => rfl
  | more n ih _ =>
      have half : (n + 2 + 1) / 2 = (n + 1) / 2 + 1 := by omega
      simp [List.replicate_succ, readEscapes, escaped_backslash, half, ih]

theorem read_run (n : Nat) {c : Char} (other : c ≠ backslash) (rest : List Char) :
    readEscapes (List.replicate n backslash ++ c :: rest) =
      List.replicate (kept n c) backslash ++
        (if n % 2 = 1 then (escaped c).getD c else c) :: readEscapes rest := by
  -- Pairs are read off; a last single backslash takes the character behind it.
  obtain ⟨j, even | odd⟩ : ∃ j, n = 2 * j ∨ n = 2 * j + 1 := ⟨n / 2, by omega⟩
  · have parity : n % 2 = 0 := by omega
    have half : kept n c = j := by
      unfold kept
      split <;> omega
    rw [half, even, read_pairs, read_plain other]
    simp
  · have parity : n % 2 = 1 := by omega
    rw [odd, List.replicate_succ', List.append_assoc, read_pairs]
    cases found : escaped c with
    | none =>
        have half : kept (2 * j + 1) c = j + 1 := by
          simp [kept, found]
          omega
        simp [half, readEscapes, found, read_plain other, List.replicate_succ']
    | some e =>
        have half : kept (2 * j + 1) c = j := by
          simp [kept, found]
          omega
        simp [half, readEscapes, found]

end LeftToRight

section Agreement

theorem even_run (n run : Nat) (rest : List Char) :
    letterAfterEvenRun run (List.replicate n backslash ++ rest) =
      letterAfterEvenRun (run + n) rest := by
  induction n generalizing run with
  | zero => rfl
  | succ n ih =>
      simp only [List.replicate_succ, List.cons_append, letterAfterEvenRun, if_true, ih]
      congr 1
      omega

theorem even_run_none (n : Nat) :
    letterAfterEvenRun 0 (List.replicate n backslash) = false := by
  have run := even_run n 0 []
  rw [List.append_nil] at run
  rw [run]
  rfl

/-- After a run both readings take the same character, unless the run is even and the
character a letter. -/
theorem character_agrees (n : Nat) (c : Char) :
    (if 0 < n then (escaped c).getD c else c) = (if n % 2 = 1 then (escaped c).getD c else c) ↔
      (0 < n && n % 2 == 0 && letters.any fun entry => entry.1 == c) = false := by
  cases letter : letters.any fun entry => entry.1 == c with
  | false => simp [other_kept letter]
  | true =>
      have changed := letter_changes letter
      by_cases none : n = 0
      · simp [none]
      · have positive : 0 < n := Nat.pos_of_ne_zero none
        by_cases odd : n % 2 = 1
        · simp [positive, odd]
        · have even : n % 2 = 0 := by omega
          simp [positive, even, changed]

theorem forward_reads_iff (str : List Char) :
    forward str = readEscapes str ↔ letterAfterEvenRun 0 str = false := by
  induction str using run_induction with
  | last n => simp [forward_backslashes, read_backslashes, even_run_none]
  | step n c rest other ih =>
      rw [forward_run n other, read_run n other, List.append_cancel_left_eq, List.cons.injEq, ih,
        character_agrees, even_run]
      simp [letterAfterEvenRun, other]

/-- Both readings make equally many characters. -/
theorem forward_length (str : List Char) : (forward str).length = (readEscapes str).length := by
  induction str using run_induction with
  | last n => simp [forward_backslashes, read_backslashes]
  | step n c rest other ih => simp [forward_run n other, read_run n other, ih]

theorem toint_exact_iff (n : Nat) : toInt n = n ↔ n < 2 ^ 31 := by
  unfold toInt
  rw [Int.bmod_def]
  split <;> omega

theorem string2array_decodes_iff (str : List Char) :
    (string2Array str).array = readEscapes str ++ [nul] ∧
        (string2Array str).lenExpr = (readEscapes str).length ↔
      letterAfterEvenRun 0 str = false ∧ (readEscapes str).length < 2 ^ 31 := by
  rw [string2array_forward]
  simp only [List.append_cancel_right_eq, forward_reads_iff, forward_length, toint_exact_iff]

theorem string2array_newline :
    ¬ ∀ str : List Char, (string2Array str).array = readEscapes str ++ [nul] ∧
      (string2Array str).lenExpr = (readEscapes str).length := by
  intro decodes
  have broken : (string2Array [backslash, backslash, 'n']).array ≠
      readEscapes [backslash, backslash, 'n'] ++ [nul] := by decide
  exact broken (decodes _).1

end Agreement

end Sac2c.StringDecoding
