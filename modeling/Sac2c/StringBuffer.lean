import Mathlib.Data.List.TakeWhile
import Sac2c.TerminatedArrays
import Sac2c.TokenSubstitution
import Sac2c.Trace

/-!
The string buffer of support/str_buffer.c and what it stands for, a plain string. Sizes stay
below the range of a size_t. The printf functions of the library return an int: they fail if
the text is longer than the largest int.
-/

namespace Sac2c.StringBuffer

open TerminatedArrays
open TokenSubstitution (CString Replaced nul substToken)

section Model

/-- str_buf. The allocation has as many characters as `buf`. -/
structure StrBuf where
  buf : List Char
  len : Nat
  size : Nat

/-- Memory with anything in it. -/
def malloc (garbage : Nat → Char) (size : Nat) : List Char := (List.range size).map garbage

/-- An int as a size_t. -/
def toSizeT (n : Int) : Nat := (n % 2 ^ 64).toNat

def sbufCreate (garbage : Nat → Char) (size : Nat) : Option StrBuf := do
  let size := size + 1
  let buf ← write (malloc garbage size) 0 [nul]
  some ⟨buf, 0, size⟩

/-- The size that is allocated to make room for `len` more characters. -/
def newSize (s : StrBuf) (len : Nat) : Nat := if len ≥ s.size then s.size + 2 * len else 2 * s.size

def ensureStrBufSpace (garbage : Nat → Char) (s : StrBuf) (len : Nat) : Option StrBuf :=
  if len > s.size - (s.len + 1) then
    if s.len + 1 ≤ s.buf.length then do
      let newBuf ← write (malloc garbage (newSize s len)) 0 (s.buf.take (s.len + 1))
      some { s with buf := newBuf, size := newSize s len }
    else none
  else some s

/-- sprintf with "%s" from `pos` on, and what it returns: the number of characters, or -1 with
EOVERFLOW. -/
def sprintf (buf : List Char) (pos : Nat) (string : List Char) : Option (List Char × Int) :=
  if string.length < 2 ^ 31 then
    (write buf pos (string ++ [nul])).map fun buf => (buf, (string.length : Int))
  else some (buf, -1)

def sbufPrint (garbage : Nat → Char) (s : StrBuf) (string : CString) : Option StrBuf := do
  let s ← ensureStrBufSpace garbage s string.chars.length
  let (buf, printed) ← sprintf s.buf s.len string.chars
  some { s with buf := buf, len := (s.len + toSizeT printed) % 2 ^ 64 }

/-- vsnprintf for arguments that are formatted to `text`: at most `space` characters are
written, the last one a terminator; the length of the whole text is returned. -/
def vsnprintf (buf : List Char) (pos space : Nat) (text : List Char) : Option (List Char × Int) :=
  if text.length < 2 ^ 31 then
    let written := if space = 0 then [] else text.take (space - 1) ++ [nul]
    (write buf pos written).map fun buf => (buf, (text.length : Int))
  else some (buf, -1)

/-- The loop of SBUFvprintf; none where the compiler aborts or `rounds` do not suffice. -/
def sbufVprintf (garbage : Nat → Char) : Nat → StrBuf → CString → Option StrBuf
  | 0, _, _ => none
  | rounds + 1, s, text => do
      let availableSpace := s.size - s.len
      let (buf, requiredSpace) ← vsnprintf s.buf s.len availableSpace text.chars
      if requiredSpace < 0 then none
      else if toSizeT requiredSpace + 1 > availableSpace then do
        let s ← ensureStrBufSpace garbage { s with buf := buf } (toSizeT requiredSpace)
        sbufVprintf garbage rounds s text
      else some { s with buf := buf, len := (s.len + toSizeT requiredSpace) % 2 ^ 64 }

/-- The string in memory, up to the terminator. -/
def readString (buf : List Char) : List Char := buf.takeWhile fun c => decide (c ≠ nul)

theorem read_nonzero (buf : List Char) : nul ∉ readString buf := by
  intro member
  exact absurd (List.mem_takeWhile_imp member) (by simp)

/-- STRsubstTokend leaves a new string in the place of the buffer. The loops of STRsubstToken get
as many rounds as the string has characters, and one more. -/
def sbufSubstToken (garbage : Nat → Char) (s : StrBuf) (token subst : CString) : Option StrBuf :=
  if fits : (readString s.buf).length < 2 ^ 64 then do
    let str : CString := ⟨readString s.buf, read_nonzero s.buf, fits⟩
    let result ← substToken (str.chars.length + 1) str token subst
    let buf ← write (malloc garbage result.allocated.toNat) 0 result.written
    let len := (readString buf).length
    some ⟨buf, len, len + 1⟩
  else none

/-- STRcat, with its memory below the range of a size_t. -/
def strCat (first second : CString) : Option CString :=
  if fits : (first.chars ++ second.chars).length < 2 ^ 64 then
    some ⟨first.chars ++ second.chars, by simp [first.nonzero, second.nonzero], fits⟩
  else none

def sbufInsertAfterToken (garbage : Nat → Char) (s : StrBuf) (token insert : CString) :
    Option StrBuf := do
  let subst ← strCat token insert
  sbufSubstToken garbage s token subst

def sbufFlush (s : StrBuf) : Option StrBuf := do
  let buf ← write s.buf 0 [nul]
  some { s with buf := buf, len := 0 }

def sbufTruncate (s : StrBuf) (length : Nat) : Option StrBuf :=
  if length ≥ s.len then some s
  else do
    let buf ← write s.buf length [nul]
    some { s with buf := buf, len := length }

end Model

section Calls

/-- A call with its arguments; those of a formatted print are given by their text. -/
inductive Call where
  | print (string : CString)
  | printf (text : CString)
  | substToken (token subst : CString)
  | insertAfterToken (token insert : CString)
  | truncate (length : Nat)
  | flush

/-- What a call does to the buffer. The loop of a formatted print may make `rounds` rounds. -/
def perform (garbage : Nat → Char) (rounds : Nat) (s : StrBuf) : Call → Option StrBuf
  | .print string => sbufPrint garbage s string
  | .printf text => sbufVprintf garbage rounds s text
  | .substToken token subst => sbufSubstToken garbage s token subst
  | .insertAfterToken token insert => sbufInsertAfterToken garbage s token insert
  | .truncate length => sbufTruncate s length
  | .flush => sbufFlush s

/-- What the call does to a plain string. -/
inductive Plain : List Char → Call → List Char → Prop where
  | print (str : List Char) (string : CString) : Plain str (.print string) (str ++ string.chars)
  | printf (str : List Char) (text : CString) : Plain str (.printf text) (str ++ text.chars)
  | substToken {str out : List Char} {token subst : CString} {n : Nat} :
      Replaced token.chars subst.chars str out n → Plain str (.substToken token subst) out
  | insertAfterToken {str out : List Char} {token insert : CString} {n : Nat} :
      Replaced token.chars (token.chars ++ insert.chars) str out n →
      Plain str (.insertAfterToken token insert) out
  | truncate (str : List Char) (length : Nat) : Plain str (.truncate length) (str.take length)
  | flush (str : List Char) : Plain str .flush []

/-- The buffer stands for the string. -/
structure Represents (s : StrBuf) (str : List Char) : Prop where
  content : Holds nul s.buf str
  size : s.buf.length = s.size
  len : s.len = str.length
  range : s.size < 2 ^ 64

/-- There are `len` more characters to come, and the size that is allocated for them, if any,
is below the range of a size_t. -/
def Grows (s : StrBuf) (len : Nat) : Prop :=
  len > s.size - (s.len + 1) → newSize s len < 2 ^ 64

/-- The sizes that the call computes are below the range of a size_t. -/
def Sized (s : StrBuf) (str : List Char) : Call → Prop
  | .print string => Grows s string.chars.length
  | .printf text => Grows s text.chars.length
  | .substToken token subst =>
      ∀ out n, Replaced token.chars subst.chars str out n → out.length + 1 < 2 ^ 64
  | .insertAfterToken token insert =>
      (token.chars ++ insert.chars).length < 2 ^ 64 ∧
        ∀ out n, Replaced token.chars (token.chars ++ insert.chars) str out n →
          out.length + 1 < 2 ^ 64
  | .truncate _ => True
  | .flush => True

/-- No text longer than the largest int is printed, and no empty token is looked for. -/
def Sound : Call → Prop
  | .print string => string.chars.length < 2 ^ 31
  | .printf text => text.chars.length < 2 ^ 31
  | .substToken token _ => token.chars ≠ []
  | .insertAfterToken token _ => token.chars ≠ []
  | .truncate _ => True
  | .flush => True

/-- One call on the buffer and on the plain string. -/
def Step (before : StrBuf × List Char) (call : Call) (after : StrBuf × List Char) : Prop :=
  Sized before.1 before.2 call ∧ Plain before.2 call after.2 ∧
    ∃ garbage rounds, perform garbage rounds before.1 call = some after.1

end Calls

section Refinement

variable {s : StrBuf} {str : List Char}

theorem malloc_length (garbage : Nat → Char) (size : Nat) : (malloc garbage size).length = size := by
  simp [malloc]

theorem to_size_t {n : Nat} (range : n < 2 ^ 64) : toSizeT n = n := by
  unfold toSizeT
  omega

theorem Represents.read (represents : Represents s str) : readString s.buf = str :=
  represents.content.read

theorem Represents.room (represents : Represents s str) : s.len + 1 ≤ s.size := by
  rw [represents.len, ← represents.size]
  exact represents.content.room

/-- What the buffer needs for `str` to be in it; after a formatted print that did not fit the
terminator is missing. -/
structure Starts (s : StrBuf) (str : List Char) : Prop where
  content : str <+: s.buf
  inside : nul ∉ str
  room : str.length + 1 ≤ s.size
  size : s.buf.length = s.size
  len : s.len = str.length
  range : s.size < 2 ^ 64

theorem Represents.starts (represents : Represents s str) : Starts s str where
  content := represents.content.starts
  inside := represents.content.inside
  room := represents.len ▸ represents.room
  size := represents.size
  len := represents.len
  range := represents.range

/-- There is room for the characters and a terminator behind the string, which is kept together
with the character behind it. -/
theorem ensure_space (garbage : Nat → Char) (starts : Starts s str) {len : Nat} (grows : Grows s len) :
    ∃ after, ensureStrBufSpace garbage s len = some after ∧ Starts after str ∧
      after.len + len + 1 ≤ after.size ∧
      ∀ front, front <+: s.buf → front.length ≤ s.len + 1 → front <+: after.buf := by
  have room := starts.room
  have isLen := starts.len
  unfold ensureStrBufSpace
  by_cases full : len > s.size - (s.len + 1)
  · have larger : s.len + len + 1 ≤ newSize s len := by
      unfold newSize
      split <;> omega
    have copied : (s.buf.take (s.len + 1)).length = s.len + 1 :=
      List.length_take_of_le (by rw [starts.size]; omega)
    obtain ⟨newBuf, written, copy⟩ : ∃ newBuf, write (malloc garbage (newSize s len)) 0
        (s.buf.take (s.len + 1)) = some newBuf ∧ s.buf.take (s.len + 1) <+: newBuf :=
      write_front (by rw [copied, malloc_length]; omega)
    have kept : ∀ front, front <+: s.buf → front.length ≤ s.len + 1 → front <+: newBuf :=
      fun front begins short => (List.prefix_take_iff.mpr ⟨begins, short⟩).trans copy
    refine ⟨⟨newBuf, s.len, newSize s len⟩, ?_, ⟨kept str starts.content (by omega), starts.inside,
      ?_, ?_, isLen, grows full⟩, larger, kept⟩
    · rw [if_pos full, if_pos (by rw [starts.size]; omega)]
      simp only [written, Option.bind_eq_bind, Option.bind_some]
    · simp only
      omega
    · exact (write_length written).trans (malloc_length garbage _)
  · exact ⟨s, by rw [if_neg full], starts, by omega, fun _ begins _ => begins⟩

/-- A text that fits is appended. -/
theorem appended (starts : Starts s str) (text : CString)
    (room : s.len + text.chars.length + 1 ≤ s.size) :
    ∃ buf, write s.buf s.len (text.chars ++ [nul]) = some buf ∧
      Represents { s with buf := buf, len := (s.len + text.chars.length) % 2 ^ 64 }
        (str ++ text.chars) := by
  have range := starts.range
  have isLen := starts.len
  obtain ⟨buf, written, holds⟩ := write_behind starts.content
    (by rw [starts.size]; omega) starts.inside text.nonzero
  refine ⟨buf, by rw [isLen]; exact written, holds, (write_length written).trans starts.size, ?_,
    range⟩
  rw [List.length_append]
  simp only
  omega

theorem print_represents (garbage : Nat → Char) (represents : Represents s str) {string : CString}
    (grows : Grows s string.chars.length) (short : string.chars.length < 2 ^ 31) :
    ∃ after, sbufPrint garbage s string = some after ∧ Represents after (str ++ string.chars) := by
  obtain ⟨grown, ensured, starts, room, _⟩ := ensure_space garbage represents.starts grows
  obtain ⟨buf, written, represents⟩ := appended starts string room
  refine ⟨_, ?_, represents⟩
  have range : string.chars.length < 2 ^ 64 := by omega
  simp only [sbufPrint, ensured, sprintf, if_pos short, written, Option.bind_eq_bind,
    Option.bind_some, Option.map_some, to_size_t range]

/-- A round with enough space is the last one. -/
theorem round_fits (garbage : Nat → Char) (starts : Starts s str) {text : CString}
    (short : text.chars.length < 2 ^ 31) (room : s.len + text.chars.length + 1 ≤ s.size) :
    ∃ after, Represents after (str ++ text.chars) ∧
      ∀ rounds, sbufVprintf garbage (rounds + 1) s text = some after := by
  obtain ⟨buf, written, represents⟩ := appended starts text room
  refine ⟨_, represents, fun rounds => ?_⟩
  have range : toSizeT text.chars.length = text.chars.length := to_size_t (by omega)
  have whole : text.chars.take (s.size - s.len - 1) = text.chars :=
    List.take_of_length_le (by omega)
  simp only [sbufVprintf, vsnprintf, if_pos short, if_neg (by omega : ¬ s.size - s.len = 0), whole,
    written, Option.map_some, Option.bind_eq_bind, Option.bind_some, range]
  rw [if_neg (by omega), if_neg (by omega)]

/-- A round without enough space cuts off the text, overwrites the terminator and enlarges the
buffer. -/
theorem round_grows (garbage : Nat → Char) (starts : Starts s str) {text : CString}
    (short : text.chars.length < 2 ^ 31) (full : ¬ s.len + text.chars.length + 1 ≤ s.size)
    (grows : Grows s text.chars.length) :
    ∃ grown, Starts grown str ∧ grown.len + text.chars.length + 1 ≤ grown.size ∧
      ∀ rounds, sbufVprintf garbage (rounds + 1) s text = sbufVprintf garbage rounds grown text := by
  have room := starts.room
  have isLen := starts.len
  have space : (text.chars.take (s.size - s.len - 1) ++ [nul]).length = s.size - s.len := by
    rw [List.length_append, List.length_take_of_le (by omega), List.length_singleton]
    omega
  obtain ⟨buf, written⟩ : ∃ buf, write s.buf s.len
      (text.chars.take (s.size - s.len - 1) ++ [nul]) = some buf :=
    ⟨_, if_pos (by rw [space, starts.size]; omega)⟩
  have cut : Starts { s with buf := buf } str := by
    refine ⟨write_keeps starts.content isLen.ge written, starts.inside, room, ?_, isLen,
      starts.range⟩
    exact (write_length written).trans starts.size
  obtain ⟨grown, ensured, kept, larger, _⟩ := ensure_space garbage cut grows
  refine ⟨grown, kept, larger, fun rounds => ?_⟩
  have range : toSizeT text.chars.length = text.chars.length := to_size_t (by omega)
  simp only [sbufVprintf, vsnprintf, if_pos short, if_neg (by omega : ¬ s.size - s.len = 0),
    written, Option.map_some, Option.bind_eq_bind, Option.bind_some, range, ensured]
  rw [if_neg (by omega), if_pos (by omega)]

/-- Two rounds are enough. -/
theorem vprintf_represents (garbage : Nat → Char) (represents : Represents s str) {text : CString}
    (grows : Grows s text.chars.length) (short : text.chars.length < 2 ^ 31) :
    ∃ after, Represents after (str ++ text.chars) ∧
      (∀ rounds, sbufVprintf garbage (rounds + 2) s text = some after) ∧
      ∀ rounds result, sbufVprintf garbage rounds s text = some result → result = after := by
  have starts := represents.starts
  by_cases room : s.len + text.chars.length + 1 ≤ s.size
  · obtain ⟨after, represents, returns⟩ := round_fits garbage starts short room
    refine ⟨after, represents, fun rounds => returns (rounds + 1), ?_⟩
    intro rounds result returned
    cases rounds with
    | zero => cases returned
    | succ rounds => exact Option.some.inj (returned.symm.trans (returns rounds))
  · obtain ⟨grown, kept, larger, again⟩ := round_grows garbage starts short room grows
    obtain ⟨after, represents, returns⟩ := round_fits garbage kept short larger
    refine ⟨after, represents, fun rounds => (again (rounds + 1)).trans (returns rounds), ?_⟩
    intro rounds result returned
    cases rounds with
    | zero => cases returned
    | succ rounds =>
        rw [again] at returned
        cases rounds with
        | zero => cases returned
        | succ rounds => exact Option.some.inj (returned.symm.trans (returns rounds))

theorem subst_represents (garbage : Nat → Char) (represents : Represents s str)
    {token subst : CString} (nonempty : token.chars ≠ [])
    (sized : ∀ out n, Replaced token.chars subst.chars str out n → out.length + 1 < 2 ^ 64) :
    ∃ after out n, sbufSubstToken garbage s token subst = some after ∧
      Replaced token.chars subst.chars str out n ∧ Represents after out := by
  have room := represents.room
  have isLen := represents.len
  have range := represents.range
  have isStr := represents.read
  have fits : (readString s.buf).length < 2 ^ 64 := by
    rw [isStr]
    omega
  obtain ⟨out, n, done, result⟩ := TokenSubstitution.subst_result
    ⟨readString s.buf, read_nonzero s.buf, fits⟩ token subst nonempty _ (Nat.lt_succ_self _)
  simp only [isStr] at done
  have inside : nul ∉ out := by
    intro member
    rcases TokenSubstitution.replaced_mem done member with old | new
    · exact represents.content.inside old
    · exact subst.nonzero new
  have small := sized out n done
  have allocated : (BitVec.ofNat 64 (out ++ [nul]).length).toNat = out.length + 1 := by
    rw [List.length_append, List.length_singleton, BitVec.toNat_ofNat]
    omega
  obtain ⟨buf, written, front⟩ : ∃ buf, write (malloc garbage (out.length + 1)) 0 (out ++ [nul]) =
      some buf ∧ out ++ [nul] <+: buf :=
    write_front (by rw [malloc_length, List.length_append, List.length_singleton])
  have holds : Holds nul buf out := ⟨front, inside⟩
  have read : readString buf = out := holds.read
  refine ⟨⟨buf, out.length, out.length + 1⟩, out, n, ?_, done, holds, ?_, rfl, small⟩
  · simp only [sbufSubstToken, dif_pos fits]
    rw [result]
    simp only [Option.bind_eq_bind, Option.bind_some, allocated, written, read]
  · exact (write_length written).trans (malloc_length garbage _)

theorem flush_represents (represents : Represents s str) :
    ∃ after, sbufFlush s = some after ∧ Represents after [] := by
  obtain ⟨buf, written, holds⟩ := represents.content.cut (Nat.zero_le str.length)
  refine ⟨⟨buf, 0, s.size⟩, ?_, holds, (write_length written).trans represents.size, rfl,
    represents.range⟩
  simp only [sbufFlush, written, Option.bind_eq_bind, Option.bind_some]

theorem truncate_represents (represents : Represents s str) (length : Nat) :
    ∃ after, sbufTruncate s length = some after ∧ Represents after (str.take length) := by
  have isLen := represents.len
  unfold sbufTruncate
  by_cases long : length ≥ s.len
  · rw [if_pos long, List.take_of_length_le (isLen ▸ long)]
    exact ⟨s, rfl, represents⟩
  · rw [if_neg long]
    have short : length ≤ str.length := by omega
    obtain ⟨buf, written, holds⟩ := represents.content.cut short
    refine ⟨⟨buf, length, s.size⟩, by simp only [written, Option.bind_eq_bind, Option.bind_some],
      holds, (write_length written).trans represents.size, ?_, represents.range⟩
    exact (List.length_take_of_le short).symm

/-- Each call does to the buffer what it does to the string. -/
theorem perform_represents (garbage : Nat → Char) (represents : Represents s str) {call : Call}
    (sized : Sized s str call) (sound : Sound call) :
    ∃ after out, Plain str call out ∧ Represents after out ∧
      (∀ rounds, perform garbage (rounds + 2) s call = some after) ∧
      ∀ rounds result, perform garbage rounds s call = some result → result = after := by
  have unchanged : ∀ {returned : Option StrBuf} {after : StrBuf}, returned = some after →
      (∀ _rounds : Nat, returned = some after) ∧
        ∀ (_rounds : Nat) result, returned = some result → result = after := by
    intro returned after isAfter
    exact ⟨fun _ => isAfter, fun _ result same => Option.some.inj (same.symm.trans isAfter)⟩
  cases call with
  | print string =>
      obtain ⟨after, returned, represents⟩ := print_represents garbage represents sized sound
      exact ⟨after, _, .print str string, represents, unchanged returned⟩
  | printf text =>
      obtain ⟨after, represents, returned⟩ := vprintf_represents garbage represents sized sound
      exact ⟨after, _, .printf str text, represents, returned⟩
  | substToken token subst =>
      obtain ⟨after, out, n, returned, done, represents⟩ :=
        subst_represents garbage represents sound sized
      exact ⟨after, out, .substToken done, represents, unchanged returned⟩
  | insertAfterToken token insert =>
      obtain ⟨fits, sized⟩ := sized
      have inside : nul ∉ token.chars ++ insert.chars := by simp [token.nonzero, insert.nonzero]
      have subst : strCat token insert = some ⟨token.chars ++ insert.chars, inside, fits⟩ :=
        dif_pos fits
      obtain ⟨after, out, n, returned, done, represents⟩ :=
        subst_represents garbage represents sound
          (show ∀ out n, Replaced token.chars
            (⟨token.chars ++ insert.chars, inside, fits⟩ : CString).chars str out n → _ from sized)
      refine ⟨after, out, .insertAfterToken done, represents, unchanged ?_⟩
      simpa only [sbufInsertAfterToken, subst, Option.bind_eq_bind, Option.bind_some] using returned
  | truncate length =>
      obtain ⟨after, returned, represents⟩ := truncate_represents represents length
      exact ⟨after, _, .truncate str length, represents, unchanged returned⟩
  | flush =>
      obtain ⟨after, returned, represents⟩ := flush_represents represents
      exact ⟨after, _, .flush str, represents, unchanged returned⟩

theorem plain_unique {call : Call} {out out' : List Char} (plain : Plain str call out)
    (plain' : Plain str call out') : out = out' := by
  cases plain with
  | substToken done =>
      cases plain' with
      | substToken done' => exact (TokenSubstitution.replaced_unique done done').1
  | insertAfterToken done =>
      cases plain' with
      | insertAfterToken done' => exact (TokenSubstitution.replaced_unique done done').1
  | print => cases plain'; rfl
  | printf => cases plain'; rfl
  | truncate => cases plain'; rfl
  | flush => cases plain'; rfl

theorem step_represents {before after : StrBuf × List Char} {call : Call}
    (represents : Represents before.1 before.2) (step : Step before call after)
    (sound : Sound call) : Represents after.1 after.2 := by
  obtain ⟨sized, plain, garbage, rounds, returned⟩ := step
  obtain ⟨result, out, plain', represents, _, same⟩ :=
    perform_represents garbage represents sized sound
  rw [same rounds _ returned, plain_unique plain plain']
  exact represents

theorem create_represents (garbage : Nat → Char) {size : Nat} (range : size + 1 < 2 ^ 64) :
    ∃ start, sbufCreate garbage size = some start ∧ Represents start [] := by
  obtain ⟨buf, written, holds⟩ := holds_empty
    (by rw [malloc_length]; omega : 1 ≤ (malloc garbage (size + 1)).length)
  refine ⟨⟨buf, 0, size + 1⟩, ?_, holds, ?_, rfl, range⟩
  · simp only [sbufCreate, written, Option.bind_eq_bind, Option.bind_some]
  · exact (write_length written).trans (malloc_length garbage _)

end Refinement

section Results

/-- The buffer has the string as its content, within its memory, and goes on working: the calls
return, the loop of the formatted print after two rounds at most. -/
structure Serves (s : StrBuf) (str : List Char) : Prop where
  content : readString s.buf = str
  len : s.len = str.length
  terminated : s.buf[s.len]? = some nul
  inside : s.len + 1 ≤ s.size
  allocated : s.buf.length = s.size
  space : ∀ garbage k, Grows s k → ∃ after, ensureStrBufSpace garbage s k = some after ∧
    readString after.buf = str ∧ after.len = s.len ∧ after.len + k + 1 ≤ after.size
  returns : ∀ garbage call, Sized s str call → Sound call →
    ∃ after out, Plain str call out ∧ ∀ rounds, perform garbage (rounds + 2) s call = some after

theorem Represents.serves {s : StrBuf} {str : List Char} (represents : Represents s str) :
    Serves s str where
  content := represents.read
  len := represents.len
  terminated := by
    obtain ⟨rest, isBuf⟩ := represents.content.text
    rw [represents.len, ← isBuf]
    simp
  inside := represents.room
  allocated := represents.size
  space garbage k grows := by
    obtain ⟨after, ensured, starts, room, kept⟩ := ensure_space garbage represents.starts grows
    have text := kept _ represents.content.text (by simp [represents.len])
    have holds : Holds nul after.buf str := ⟨text, represents.content.inside⟩
    exact ⟨after, ensured, holds.read, starts.len.trans represents.len.symm, room⟩
  returns garbage call sized sound := by
    obtain ⟨after, out, plain, _, returned, _⟩ := perform_represents garbage represents sized sound
    exact ⟨after, out, plain, returned⟩

/-- In every run of calls that print no text longer than an int counts and look for no empty
token. -/
theorem buffer_serves (garbage : Nat → Char) (size : Nat) (range : size + 1 < 2 ^ 64) :
    ∃ start, sbufCreate garbage size = some start ∧ ∀ calls s str,
      Trace.Run (fun before call after => Step before call after ∧ Sound call) (start, []) calls
        (s, str) → Serves s str := by
  obtain ⟨start, created, represents⟩ := create_represents garbage range
  refine ⟨start, created, fun calls s str run => ?_⟩
  have kept := run.invariant (fun state => Represents state.1 state.2)
    (fun _ _ _ holds step => step_represents holds step.1 step.2) represents
  exact kept.serves

def letters : CString := ⟨['a', 'b', 'a'], by decide, by decide⟩

def letter : CString := ⟨['b'], by decide, by decide⟩

/-- Printed into a buffer without space, and nothing else. -/
theorem buffer_serves_letters :
    ∃ start, sbufCreate (fun _ => 'x') 0 = some start ∧ ∀ calls s str,
      Trace.Run (fun before call after => Step before call after ∧ Sound call) (start, []) calls
        (s, str) → Serves s str :=
  buffer_serves (fun _ => 'x') 0 (by decide)

/-- One character more than an int counts. -/
def long : CString where
  chars := List.replicate (2 ^ 31) 'a'
  nonzero member := absurd (List.eq_of_mem_replicate member) (by decide)
  fits := by
    rw [List.length_replicate]
    decide

/-- The size_t that counts the characters gets the value -1 of sprintf added. -/
theorem length_lost : ∃ start s, sbufCreate (fun _ => 'x') 0 = some start ∧
    Trace.Run Step (start, []) [.print long] (s, long.chars) ∧ ¬ Serves s long.chars := by
  have represents : Represents ⟨[nul], 0, 1⟩ [] :=
    ⟨⟨List.prefix_rfl, List.not_mem_nil⟩, rfl, rfl, by decide⟩
  have length : long.chars.length = 2 ^ 31 := List.length_replicate
  have grows : Grows ⟨[nul], 0, 1⟩ long.chars.length := by
    intro _
    rw [length]
    decide
  obtain ⟨grown, ensured, starts, _⟩ := ensure_space (fun _ => 'x') represents.starts grows
  refine ⟨⟨[nul], 0, 1⟩, { grown with len := (grown.len + toSizeT (-1)) % 2 ^ 64 }, rfl, ?_, ?_⟩
  · refine .next ⟨grows, .print [] long, fun _ => 'x', 0, ?_⟩ (.refl _)
    have failed : ¬ long.chars.length < 2 ^ 31 := by omega
    simp only [perform, sbufPrint, ensured, sprintf, if_neg failed, Option.bind_eq_bind,
      Option.bind_some]
  · intro serves
    have counted := serves.len
    rw [length] at counted
    simp only [starts.len] at counted
    exact absurd counted (by decide)

end Results

end Sac2c.StringBuffer
