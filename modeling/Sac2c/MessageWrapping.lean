import Sac2c.LineFilling
import Sac2c.StringBuffer

/-!
Message formatting of global/ctformatting.c. Breaks are put into the text in place: the first line
of a message up to its first break, with the length of the primary header, all other lines after
that, with the length of the continuation header. Characters are counted in numbers of type size_t.
-/

namespace Sac2c.MessageWrapping

open LineFilling
open StringBuffer (Plain Call)
open TokenSubstitution (CString Replaced replaced_cons replaced_token)

section Model

/-- The settings of the command line that the formatting reads. -/
structure Settings where
  messageLength : Nat
  singleLine : Bool

/-- Sum and difference of numbers of type size_t. -/
def sizeAdd (a b : Nat) : Nat := (a + b) % 2 ^ 64

def sizeSub (a b : Nat) : Nat := (a + (2 ^ 64 - b)) % 2 ^ 64

/-- The buffer and the local variables of the loop. -/
structure Scan where
  buffer : List Char
  index : Nat
  column : Nat
  lastSpace : Nat
  spaceFound : Bool

def lineLength (g : Settings) (headerLength : Nat) : Nat :=
  max (sizeAdd headerLength 20) g.messageLength

/-- A tab becomes a space, and a space is noted. -/
def noteSpace (s : Scan) (c : Char) : Scan :=
  let s := if c = '\t' then { s with buffer := s.buffer.set s.index ' ' } else s
  if untab c = ' ' then { s with lastSpace := s.index, spaceFound := true } else s

/-- The body of the loop for the character at the index, and whether it returns. -/
def visit (g : Settings) (headerLength : Nat) (returnAtNewline : Bool) (s : Scan) (c : Char) :
    Scan × Bool :=
  let s := noteSpace s c
  if g.singleLine then
    if c = '\n' then ({ s with buffer := s.buffer.set s.index ' ' }, false) else (s, false)
  else if c = '\n' then
    if returnAtNewline then (s, true)
    else ({ s with column := sizeSub headerLength 1, spaceFound := false }, false)
  else if g.messageLength ≠ 0 ∧ lineLength g headerLength ≤ s.column ∧ s.spaceFound then
    let s := { s with buffer := s.buffer.set s.lastSpace '\n' }
    if returnAtNewline then (s, true)
    else
      ({ s with
          column := sizeAdd (sizeSub headerLength 1) (sizeSub s.index s.lastSpace)
          spaceFound := false }, false)
  else (s, false)

def advance (s : Scan) : Scan :=
  { s with index := sizeAdd s.index 1, column := sizeAdd s.column 1 }

/-- The loop of InsertWrapLocations; none where `rounds` do not suffice. -/
def wrapLoop (g : Settings) (headerLength : Nat) (returnAtNewline : Bool) :
    Nat → Scan → Option (List Char)
  | 0, _ => none
  | rounds + 1, s =>
      match s.buffer[s.index]? with
      | none => some s.buffer
      | some c =>
          match visit g headerLength returnAtNewline s c with
          | (s, true) => some s.buffer
          | (s, false) => wrapLoop g headerLength returnAtNewline rounds (advance s)

def insertWrapLocations (g : Settings) (buffer : List Char) (headerLength : Nat)
    (returnAtNewline : Bool) : Option (List Char) :=
  wrapLoop g headerLength returnAtNewline (buffer.length + 1) ⟨buffer, 0, headerLength, 0, false⟩

/-- SBUFinsertAfterToken for the token "\n". -/
def insertAfterNewline (str insert : List Char) : List Char :=
  str.flatMap fun c => if c = '\n' then '\n' :: insert else [c]

def createMessageContinued (g : Settings) (continuationHeader remainingLines : List Char) :
    Option (List Char) := do
  let remainingLines ← insertWrapLocations g remainingLines continuationHeader.length false
  if g.singleLine then
    if remainingLines.isEmpty then some remainingLines else some (' ' :: remainingLines)
  else
    some (continuationHeader ++ insertAfterNewline remainingLines continuationHeader ++ ['\n'])

/-- vCreateMessageBegin, with the text that the arguments are formatted to. -/
def vCreateMessageBegin (g : Settings) (header continuationHeader text : List Char) :
    Option (List Char) := do
  let body ← insertWrapLocations g text header.length true
  let message := header ++ body
  let (message, remainingLines) :=
    if g.singleLine then (message, [])
    else
      match message.findIdx? (· = '\n') with
      | none => (message ++ ['\n'], [])
      | some index => (message.take (index + 1), message.drop (index + 1))
  if remainingLines.isEmpty then some message
  else do
    let remainingLines ← createMessageContinued g continuationHeader remainingLines
    some (message ++ remainingLines)

end Model

section Insertions

theorem insert_after_newline_id {str : List Char} (plain : '\n' ∉ str) (insert : List Char) :
    insertAfterNewline str insert = str := by
  induction str with
  | nil => rfl
  | cons c str ih =>
      simp only [List.mem_cons, not_or] at plain
      have tail := ih plain.2
      simp only [insertAfterNewline] at tail ⊢
      rw [List.flatMap_cons, tail, if_neg (Ne.symm plain.1)]
      rfl

/-- A header stands before each line but the first. -/
theorem insert_after_newline_joined (insert : List Char) {lines : List (List Char)}
    (plain : ∀ line ∈ lines, '\n' ∉ line) (more : lines ≠ []) :
    insert ++ insertAfterNewline (joined lines) insert ++ ['\n'] =
      lines.flatMap fun line => insert ++ line ++ ['\n'] := by
  induction lines with
  | nil => exact absurd rfl more
  | cons line lines ih =>
      have head := insert_after_newline_id (plain line (List.mem_cons_self ..)) insert
      cases lines with
      | nil => simp [joined, head]
      | cons next lines =>
          have tail := ih (fun line mem => plain line (List.mem_cons_of_mem _ mem)) (by simp)
          rw [List.flatMap_cons, ← tail, joined_cons _ (by simp)]
          simp only [insertAfterNewline, List.flatMap_append, List.flatMap_cons] at head ⊢
          rw [head]
          simp

end Insertions

section Scanning

variable {g : Settings} {headerLength : Nat} {s : Scan} {done text : List Char} {line : Line}
  {c : Char}

/-- How many characters a line may have after its header before it is broken at a space. -/
def width (g : Settings) (headerLength : Nat) : Option Nat :=
  if g.messageLength = 0 then none else some (max (headerLength + 20) g.messageLength - headerLength)

/-- The lines that are done, the line that is being filled, and the text to come. -/
structure Sees (headerLength : Nat) (s : Scan) (done : List Char) (line : Line)
    (text : List Char) : Prop where
  buffer : s.buffer = done ++ line.chars ++ text
  index : s.index = done.length + line.chars.length
  column : s.column = headerLength + line.chars.length
  found : s.spaceFound = line.before.isSome
  last : ∀ before, line.before = some before → s.lastSpace = done.length + before.length
  range : headerLength + s.buffer.length + 20 < 2 ^ 64

theorem set_middle (l : List Char) (c d : Char) (r : List Char) :
    (l ++ c :: r).set l.length d = l ++ d :: r := by
  simp

/-- The character is part of the line, but not counted yet. -/
theorem note_space (sees : Sees headerLength s done line (c :: text)) :
    (noteSpace s c).buffer = done ++ (line.push (untab c)).chars ++ text ∧
      (noteSpace s c).index = s.index ∧ (noteSpace s c).column = s.column ∧
      (noteSpace s c).spaceFound = (line.push (untab c)).before.isSome ∧
      ∀ before, (line.push (untab c)).before = some before →
        (noteSpace s c).lastSpace = done.length + before.length := by
  have marked : (noteSpace s c).buffer = done ++ (line.push (untab c)).chars ++ text := by
    have index : s.index = (done ++ line.chars).length := by simp [sees.index]
    have shift : done ++ (line.push (untab c)).chars ++ text =
        (done ++ line.chars) ++ untab c :: text := by simp
    rw [shift]
    unfold noteSpace
    by_cases tab : c = '\t'
    · simp only [tab, ↓reduceIte, untab]
      rw [sees.buffer, index, set_middle]
    · simp only [tab, ↓reduceIte, untab]
      split <;> exact sees.buffer
  refine ⟨marked, ?_, ?_, ?_, ?_⟩
  · unfold noteSpace
    split <;> split <;> rfl
  · unfold noteSpace
    split <;> split <;> rfl
  · unfold noteSpace Line.push
    by_cases space : untab c = ' '
    · simp [space]
    · simp only [space, ↓reduceIte]
      split <;> exact sees.found
  · intro before noted
    unfold Line.push at noted
    unfold noteSpace
    by_cases space : untab c = ' '
    · simp only [space, ↓reduceIte, Option.some.injEq] at noted ⊢
      subst noted
      split <;> exact sees.index
    · simp only [space, ↓reduceIte] at noted ⊢
      split <;> exact sees.last before noted

/-- The condition on the column says that the line is full. -/
theorem column_full (sees : Sees headerLength s done line (c :: text)) :
    (g.messageLength ≠ 0 ∧ lineLength g headerLength ≤ s.column) ↔
      full (width g headerLength) line = true := by
  have range := sees.range
  have size : headerLength + 20 < 2 ^ 64 := by omega
  have sum : sizeAdd headerLength 20 = headerLength + 20 := Nat.mod_eq_of_lt size
  rw [lineLength, sum, sees.column]
  unfold width
  split
  · simp_all [full]
  · simp only [full, decide_eq_true_eq]
    omega

/-- The loop breaks the line at its last space. -/
theorem breaks_iff (sees : Sees headerLength s done line (c :: text)) :
    (g.messageLength ≠ 0 ∧ lineLength g headerLength ≤ (noteSpace s c).column ∧
        (noteSpace s c).spaceFound = true) ↔
      full (width g headerLength) line = true ∧ (line.push (untab c)).before.isSome = true := by
  obtain ⟨_, _, column, found, _⟩ := note_space sees
  rw [column, found, ← and_assoc, column_full sees]

/-- The number of the characters of the next line, seen from its header. -/
theorem column_after (sees : Sees headerLength s done line (c :: text)) {before word : List Char}
    (cut : line.chars ++ [untab c] = before ++ ' ' :: word) :
    sizeAdd (sizeAdd (sizeSub headerLength 1) (sizeSub s.index (done.length + before.length))) 1 =
      headerLength + word.length := by
  have lengths := congrArg List.length cut
  have range := sees.range
  simp only [List.length_append, List.length_cons, List.length_nil] at lengths
  rw [sees.buffer] at range
  simp only [List.length_append, List.length_cons] at range
  rw [sees.index]
  unfold sizeAdd sizeSub
  omega

theorem sees_char (sees : Sees headerLength s done line (c :: text)) :
    s.buffer[s.index]? = some c := by
  rw [sees.buffer, sees.index, ← List.length_append, List.getElem?_append_right (Nat.le_refl _)]
  simp

theorem size_add_one {n : Nat} (range : n + 1 < 2 ^ 64) : sizeAdd n 1 = n + 1 :=
  Nat.mod_eq_of_lt range

/-- The character goes into the line. -/
theorem sees_push (sees : Sees headerLength s done line (c :: text)) :
    Sees headerLength (advance (noteSpace s c)) done (line.push (untab c)) text := by
  obtain ⟨buffer, index, column, found, last⟩ := note_space sees
  have range := sees.range
  have length : (noteSpace s c).buffer.length = s.buffer.length := by
    rw [buffer, sees.buffer]
    simp [Nat.add_assoc, Nat.add_comm]
  rw [sees.buffer] at range
  simp only [List.length_append, List.length_cons] at range
  refine ⟨buffer, ?_, ?_, found, last, length ▸ sees.range⟩
  · simp only [advance, index, sees.index]
    rw [size_add_one (by omega)]
    simp [Nat.add_assoc]
  · simp only [advance, column, sees.column]
    rw [size_add_one (by omega)]
    simp [Nat.add_assoc]

/-- A line that has ended, with its break in the buffer. -/
structure Ends (headerLength : Nat) (s : Scan) (done ended : List Char) (next : Line)
    (text : List Char) : Prop where
  buffer : s.buffer = done ++ ended ++ '\n' :: (next.chars ++ text)
  column : sizeAdd s.column 1 = headerLength + next.chars.length
  index : s.index + 1 = done.length + ended.length + 1 + next.chars.length
  range : headerLength + s.buffer.length + 20 < 2 ^ 64

theorem sees_next {ended : List Char} {next : Line} (fresh : next.before = none)
    (ends : Ends headerLength s done ended next text) (found : s.spaceFound = false) :
    Sees headerLength (advance s) (done ++ ended ++ ['\n']) next text := by
  have range := ends.range
  rw [ends.buffer] at range
  simp only [List.length_append, List.length_cons] at range
  refine ⟨?_, ?_, ends.column, ?_, ?_, ends.range⟩
  · simp [advance, ends.buffer]
  · have index := ends.index
    simp only [advance]
    rw [size_add_one (by omega), index]
    simp
    omega
  · simp [advance, found, fresh]
  · simp [fresh]

theorem visit_none (lines : g.singleLine = false) (returnAtNewline : Bool)
    (sees : Sees headerLength s done line (c :: text)) {next : Line}
    (placed : place (width g headerLength) line c = (none, next)) :
    visit g headerLength returnAtNewline s c = (noteSpace s c, false) ∧
      next = line.push (untab c) := by
  unfold place at placed
  split at placed
  · cases placed
  · rename_i plain
    simp only at placed
    unfold visit
    simp only [lines, Bool.false_eq_true, ↓reduceIte, plain]
    cases before : (line.push (untab c)).before with
    | none =>
        rw [before] at placed
        cases placed
        refine ⟨if_neg fun breaks => ?_, rfl⟩
        have some := ((breaks_iff sees).mp breaks).2
        simp [before] at some
    | some text =>
        rw [before] at placed
        simp only at placed
        split at placed
        · cases placed
        · rename_i room
          cases placed
          exact ⟨if_neg fun breaks => room ((breaks_iff sees).mp breaks).1, rfl⟩

/-- A line ends: the loop returns with its break, or goes on in the next line. -/
theorem visit_some (lines : g.singleLine = false)
    (sees : Sees headerLength s done line (c :: text)) {ended : List Char} {next : Line}
    (placed : place (width g headerLength) line c = (some ended, next)) :
    (∃ s', visit g headerLength true s c = (s', true) ∧
      s'.buffer = done ++ ended ++ '\n' :: (next.chars ++ text)) ∧
    ∃ s', visit g headerLength false s c = (s', false) ∧ s'.spaceFound = false ∧
      Ends headerLength s' done ended next text := by
  obtain ⟨buffer, index, column, _, last⟩ := note_space sees
  have range := sees.range
  rw [sees.buffer] at range
  simp only [List.length_append, List.length_cons] at range
  unfold place at placed
  unfold visit
  simp only [lines, Bool.false_eq_true, ↓reduceIte]
  split at placed
  · rename_i newline
    cases placed
    subst newline
    rw [push_chars] at buffer
    have kept : (noteSpace s '\n').buffer = done ++ line.chars ++ '\n' :: text := by
      rw [buffer]
      simp [untab]
    refine ⟨⟨noteSpace s '\n', by simp, by simpa [Line.empty, Line.chars] using kept⟩,
      _, rfl, rfl, ?_, ?_, ?_, ?_⟩
    · simpa [Line.empty, Line.chars] using kept
    · simp only [sizeAdd, sizeSub, Line.empty, Line.chars, List.length_nil]
      omega
    · simp [index, sees.index, Line.empty, Line.chars]
    · simp only [kept, List.length_append, List.length_cons]
      omega
  · rename_i plain
    simp only at placed
    cases before : (line.push (untab c)).before with
    | none =>
        rw [before] at placed
        cases placed
    | some text' =>
        rw [before] at placed
        simp only at placed
        split at placed
        · rename_i reached
          cases placed
          have cut : line.chars ++ [untab c] = ended ++ ' ' :: (line.push (untab c)).word := by
            rw [← push_chars, Line.chars, before]
          have lengths := congrArg List.length cut
          simp only [List.length_append, List.length_cons, List.length_nil] at lengths
          -- The last space becomes the break.
          have broken : (noteSpace s c).buffer.set (noteSpace s c).lastSpace '\n' =
              done ++ ended ++ '\n' :: ((line.push (untab c)).word ++ text) := by
            have position : (noteSpace s c).lastSpace = (done ++ ended).length := by
              rw [last ended before, List.length_append]
            rw [buffer, position, push_chars, cut]
            have shift : done ++ (ended ++ ' ' :: (line.push (untab c)).word) ++ text =
                (done ++ ended) ++ ' ' :: ((line.push (untab c)).word ++ text) := by simp
            rw [shift, set_middle]
          have breaks := (breaks_iff sees).mpr ⟨reached, by rw [before]; rfl⟩
          simp only [plain, ↓reduceIte]
          rw [if_pos breaks, if_pos breaks]
          refine ⟨⟨_, rfl, broken⟩, _, rfl, rfl, broken, ?_, ?_, ?_⟩
          · simp only [index, last ended before]
            exact column_after sees cut
          · simp only [index, sees.index, chars_none]
            omega
          · simp only [broken, List.length_append, List.length_cons]
            omega
        · cases placed

/-- The loop fills the lines. -/
theorem wrap_loop_fill (lines : g.singleLine = false) {rounds : Nat}
    (sees : Sees headerLength s done line text) (enough : text.length < rounds) :
    wrapLoop g headerLength false rounds s =
      some (done ++ joined (fill (width g headerLength) line text)) := by
  induction rounds generalizing s done line text with
  | zero => omega
  | succ rounds ih =>
      cases text with
      | nil =>
          have length : s.buffer.length = s.index := by simp [sees.buffer, sees.index]
          simp [wrapLoop, ← length, fill, joined, sees.buffer]
      | cons c text =>
          simp only [List.length_cons] at enough
          simp only [wrapLoop, sees_char sees, fill]
          cases placed : place (width g headerLength) line c with
          | mk ending next =>
              cases ending with
              | none =>
                  obtain ⟨visited, next_eq⟩ := visit_none lines false sees placed
                  simp only [visited]
                  subst next_eq
                  exact ih (sees_push sees) (by omega)
              | some ended =>
                  obtain ⟨_, s', visited, found, ends⟩ := visit_some lines sees placed
                  have fresh := place_fresh placed
                  simp only [visited]
                  rw [ih (sees_next fresh ends found) (by omega),
                    joined_cons _ (fill_ne_nil _ next text)]
                  simp

/-- The loop that returns fills the first line only. -/
theorem wrap_loop_fill_first (lines : g.singleLine = false) {rounds : Nat}
    (sees : Sees headerLength s done line text) (enough : text.length < rounds) :
    wrapLoop g headerLength true rounds s =
      some (done ++ (fillFirst (width g headerLength) line text).1 ++
        following (fillFirst (width g headerLength) line text).2) := by
  induction rounds generalizing s done line text with
  | zero => omega
  | succ rounds ih =>
      cases text with
      | nil =>
          have length : s.buffer.length = s.index := by simp [sees.buffer, sees.index]
          simp [wrapLoop, ← length, fillFirst, following, sees.buffer]
      | cons c text =>
          simp only [List.length_cons] at enough
          simp only [wrapLoop, sees_char sees, fillFirst]
          cases placed : place (width g headerLength) line c with
          | mk ending next =>
              cases ending with
              | none =>
                  obtain ⟨visited, next_eq⟩ := visit_none lines true sees placed
                  simp only [visited]
                  subst next_eq
                  exact ih (sees_push sees) (by omega)
              | some ended =>
                  obtain ⟨⟨s', visited, buffer⟩, _⟩ := visit_some lines sees placed
                  simp only [visited, buffer, following]

end Scanning

section Passes

variable {g : Settings} {headerLength : Nat} {text : List Char}

theorem sees_start (range : headerLength + text.length + 20 < 2 ^ 64) :
    Sees headerLength ⟨text, 0, headerLength, 0, false⟩ [] .empty text :=
  ⟨rfl, rfl, rfl, rfl, by simp [Line.empty], range⟩

theorem wrap_lines (lines : g.singleLine = false)
    (range : headerLength + text.length + 20 < 2 ^ 64) :
    insertWrapLocations g text headerLength false =
      some (joined (fill (width g headerLength) .empty text)) :=
  wrap_loop_fill lines (sees_start range) (Nat.lt_succ_self _)

theorem wrap_first (lines : g.singleLine = false)
    (range : headerLength + text.length + 20 < 2 ^ 64) :
    insertWrapLocations g text headerLength true =
      some ((fillFirst (width g headerLength) .empty text).1 ++
        following (fillFirst (width g headerLength) .empty text).2) :=
  wrap_loop_fill_first lines (sees_start range) (Nat.lt_succ_self _)

/-- Newlines and tabs read as spaces. -/
def blank (c : Char) : Char :=
  if c = '\n' ∨ c = '\t' then ' ' else c

theorem blank_ne_newline (c : Char) : blank c ≠ '\n' := by
  unfold blank
  split
  · decide
  · rename_i other
    exact fun newline => other (Or.inl newline)

theorem visit_single (headerLength : Nat) (single : g.singleLine = true) (returnAtNewline : Bool)
    {s : Scan}
    {done text : List Char} {c : Char} (buffer : s.buffer = done ++ c :: text)
    (index : s.index = done.length) :
    ∃ s', visit g headerLength returnAtNewline s c = (s', false) ∧
      s'.buffer = done ++ blank c :: text ∧ s'.index = s.index := by
  unfold visit noteSpace blank
  by_cases newline : c = '\n'
  · subst newline
    simp [single, untab, buffer, index]
  · by_cases tab : c = '\t'
    · subst tab
      simp [single, untab, buffer, index]
    · by_cases space : c = ' '
      · subst space
        simp [single, untab, buffer]
      · simp [single, newline, tab, space, untab, buffer]

theorem wrap_loop_single (headerLength : Nat) (single : g.singleLine = true)
    (returnAtNewline : Bool) {rounds : Nat} {s : Scan} {done : List Char} (buffer : s.buffer = done ++ text)
    (index : s.index = done.length) (enough : text.length < rounds)
    (range : s.buffer.length < 2 ^ 64) :
    wrapLoop g headerLength returnAtNewline rounds s = some (done ++ text.map blank) := by
  induction rounds generalizing s done text with
  | zero => omega
  | succ rounds ih =>
      cases text with
      | nil =>
          have length : s.buffer.length = s.index := by simp [buffer, index]
          simp [wrapLoop, ← length, buffer]
      | cons c text =>
          have here : s.buffer[s.index]? = some c := by
            rw [buffer, index, List.getElem?_append_right (Nat.le_refl _)]
            simp
          obtain ⟨s', visited, buffer', index'⟩ :=
            visit_single headerLength single returnAtNewline buffer index
          rw [buffer, List.length_append, List.length_cons] at range
          simp only [List.length_cons] at enough
          simp only [wrapLoop, here, visited]
          have buffer'' : (advance s').buffer = (done ++ [blank c]) ++ text := by
            simpa [advance] using buffer'
          rw [ih buffer'']
          · simp
          · simp only [advance, index', index]
            rw [size_add_one (by omega)]
            simp
          · omega
          · simp only [advance, buffer', List.length_append, List.length_cons]
            omega

theorem wrap_single (single : g.singleLine = true) (returnAtNewline : Bool)
    (range : text.length < 2 ^ 64) :
    insertWrapLocations g text headerLength returnAtNewline = some (text.map blank) := by
  have buffer : (Scan.mk text 0 headerLength 0 false).buffer = [] ++ text := rfl
  have loop := wrap_loop_single headerLength single returnAtNewline buffer rfl
    (Nat.lt_succ_self text.length) range
  simpa [insertWrapLocations] using loop

end Passes

section Messages

variable {g : Settings} {primary continuation text : List Char}

/-- What is kept reads the same, and no newline is lost. -/
theorem kept_reads {expected content : List Char} (kept : List.Forall₂ Kept expected content) :
    content.map blank = expected.map blank ∧
      ∀ i : Nat, expected[i]? = some '\n' → content[i]? = some '\n' := by
  induction kept with
  | nil => simp
  | cons head tail ih =>
      rename_i c d expected content
      have same : blank d = blank c ∧ (c = '\n' → d = '\n') := by
        rcases head with rfl | ⟨rfl | rfl, rfl | rfl⟩ <;> simp [blank]
      refine ⟨by simp [same.1, ih.1], fun i newline => ?_⟩
      cases i with
      | zero => simpa using same.2 (by simpa using newline)
      | succ i => simpa using ih.2 i (by simpa using newline)

theorem no_break {line : List Char} (plain : '\n' ∉ line) :
    line.findIdx? (· = '\n') = none := by
  rw [List.findIdx?_eq_none_iff]
  intro c mem
  simpa using fun newline : c = '\n' => plain (newline ▸ mem)

theorem first_break {line : List Char} (plain : '\n' ∉ line) (rest : List Char) :
    (line ++ '\n' :: rest).findIdx? (· = '\n') = some line.length := by
  simp [List.findIdx?_append, no_break plain, List.findIdx?_cons]

theorem body_width {headerLength : Nat} {body : List Char}
    (bounded : Body (width g headerLength) body) (wraps : g.messageLength ≠ 0)
    (space : ' ' ∈ body) : headerLength + body.length ≤ max g.messageLength (headerLength + 20) := by
  have within := bounded.width (max (headerLength + 20) g.messageLength - headerLength)
    (by simp [width, wraps]) space
  omega

theorem split_break (line rest : List Char) :
    (line ++ '\n' :: rest).take (line.length + 1) = line ++ ['\n'] ∧
      (line ++ '\n' :: rest).drop (line.length + 1) = rest := by
  have shift : line ++ '\n' :: rest = (line ++ ['\n']) ++ rest := by simp
  rw [shift]
  exact ⟨List.take_left' (by simp), List.drop_left' (by simp)⟩

/-- The message up to its first break, and what is left for the other lines. -/
theorem begin_parts (lines : g.singleLine = false) (header : '\n' ∉ primary)
    (range : primary.length + text.length + 20 < 2 ^ 64) :
    vCreateMessageBegin g primary continuation text =
      let first := (fillFirst (width g primary.length) .empty text).1
      let rest := (fillFirst (width g primary.length) .empty text).2.getD []
      if rest = [] then some (primary ++ first ++ ['\n'])
      else
        (createMessageContinued g continuation rest).map (primary ++ first ++ ['\n'] ++ ·) := by
  have body := fill_first_body (fits_empty (width g primary.length)) text
  unfold vCreateMessageBegin
  rw [wrap_first lines range]
  cases parts : fillFirst (width g primary.length) .empty text with
  | mk first following =>
      rw [parts] at body
      have plain : '\n' ∉ primary ++ first := by
        simp [header, body.nobreak]
      cases following with
      | none =>
          simp only [LineFilling.following, List.append_nil, Option.bind_eq_bind, Option.bind_some,
            lines, Bool.false_eq_true, ↓reduceIte, no_break plain]
          simp
      | some rest =>
          obtain ⟨taken, dropped⟩ := split_break (primary ++ first) rest
          simp only [LineFilling.following, Option.bind_eq_bind, Option.bind_some, lines,
            Bool.false_eq_true, ↓reduceIte, ← List.append_assoc, first_break plain, taken, dropped]
          cases rest with
          | nil => simp
          | cons c rest =>
              cases created : createMessageContinued g continuation (c :: rest) <;> simp [created]

theorem continued_lines (lines : g.singleLine = false)
    (range : continuation.length + text.length + 20 < 2 ^ 64) :
    createMessageContinued g continuation text =
      some ((fill (width g continuation.length) .empty text).flatMap fun body =>
        continuation ++ body ++ ['\n']) := by
  have bodies := fill_body (fits_empty (width g continuation.length)) text
  unfold createMessageContinued
  rw [wrap_lines lines range]
  simp only [lines, Option.bind_eq_bind, Option.bind_some, Bool.false_eq_true, ↓reduceIte]
  rw [insert_after_newline_joined continuation (fun line mem => (bodies line mem).nobreak)
    (fill_ne_nil _ _ _)]

/-- The text of the first line and of the others, with a newline at the end of each. -/
def content (first : List Char) (rest : List (List Char)) : List Char :=
  (first :: rest).flatMap (· ++ ['\n'])

theorem content_joined (first : List Char) {rest : List (List Char)} (more : rest ≠ []) :
    content first rest = first ++ '\n' :: (joined rest ++ ['\n']) := by
  unfold content
  rw [List.flatMap_cons, List.append_assoc, List.singleton_append]
  congr 2
  induction rest with
  | nil => exact absurd rfl more
  | cons line lines ih =>
      cases lines with
      | nil => simp [joined]
      | cons next lines =>
          have more := List.cons_ne_nil next lines
          rw [List.flatMap_cons, ih more, joined_cons line more]
          simp

/-- The text, with the newline that is added unless the first break is the end of the text. -/
def withNewline (first text : List Char) : List Char :=
  if first.length + 1 = text.length then text else text ++ ['\n']

/-- The lines that are made of a text, up to where the headers stand. -/
structure Wraps (g : Settings) (primary continuation text first : List Char)
    (rest : List (List Char)) : Prop where
  nobreak : ∀ body ∈ first :: rest, '\n' ∉ body
  reads : (content first rest).map blank = (withNewline first text).map blank
  newlines : ∀ i : Nat, (withNewline first text)[i]? = some '\n' →
    (content first rest)[i]? = some '\n'
  firstWidth : g.messageLength ≠ 0 → ' ' ∈ first →
    primary.length + first.length ≤ max g.messageLength (primary.length + 20)
  restWidth : g.messageLength ≠ 0 → ∀ body ∈ rest, ' ' ∈ body →
    continuation.length + body.length ≤ max g.messageLength (continuation.length + 20)

/-- The first line, and the lines of what follows it. -/
theorem wraps_of_parts {first : List Char} {rest : List (List Char)}
    (body : Body (width g primary.length) first)
    (bodies : ∀ body ∈ rest, Body (width g continuation.length) body)
    (kept : List.Forall₂ Kept (withNewline first text) (content first rest)) :
    Wraps g primary continuation text first rest where
  nobreak := by
    simp only [List.mem_cons, forall_eq_or_imp]
    exact ⟨body.nobreak, fun body mem => (bodies body mem).nobreak⟩
  reads := (kept_reads kept).1
  newlines := (kept_reads kept).2
  firstWidth := body_width body
  restWidth := fun wraps body mem => body_width (bodies body mem) wraps

theorem begin_wraps (lines : g.singleLine = false) (header : '\n' ∉ primary)
    (range : primary.length + text.length + 20 < 2 ^ 64)
    (range' : continuation.length + text.length + 20 < 2 ^ 64) :
    ∃ first rest, Wraps g primary continuation text first rest ∧
      vCreateMessageBegin g primary continuation text =
        some (primary ++ first ++ ['\n'] ++
          rest.flatMap fun body => continuation ++ body ++ ['\n']) := by
  have start := fits_empty (width g primary.length)
  have body := fill_first_body start text
  have kept := fill_first_kept start text
  change List.Forall₂ Kept text _ at kept
  rw [begin_parts lines header range]
  cases parts : fillFirst (width g primary.length) .empty text with
  | mk first following =>
      rw [parts] at body kept
      have length := kept.length_eq
      cases following with
      | none =>
          simp only [LineFilling.following, List.append_nil] at kept length
          refine ⟨first, [], wraps_of_parts body (by simp) ?_, by simp⟩
          rw [withNewline, if_neg (by omega)]
          simpa [content] using kept_append kept (kept_refl ['\n'])
      | some following =>
          simp only [LineFilling.following, List.length_append, List.length_cons] at kept length
          by_cases done : following = []
          · subst done
            refine ⟨first, [], wraps_of_parts body (by simp) ?_, by simp⟩
            rw [withNewline, if_pos (by simpa using length.symm)]
            simpa [content] using kept
          · have some_ := List.length_pos_iff.mpr done
            have range'' : continuation.length + following.length + 20 < 2 ^ 64 := by omega
            have start' := fits_empty (width g continuation.length)
            refine ⟨first, fill (width g continuation.length) .empty following,
              wraps_of_parts body (fill_body start' following) ?_, ?_⟩
            · rw [withNewline, if_neg (by omega), content_joined first (fill_ne_nil _ _ _)]
              -- The rest of the text is kept by the pass over the rest.
              have lines' := fill_kept start' following
              change List.Forall₂ Kept following _ at lines'
              have later := kept_append lines' (kept_refl ['\n'])
              have whole := kept_append kept (kept_refl ['\n'])
              refine kept_trans whole ?_
              simpa using kept_append (kept_refl (first ++ ['\n'])) later
            · simp [done, continued_lines lines range'']

theorem begin_single (single : g.singleLine = true) (range : text.length < 2 ^ 64) :
    vCreateMessageBegin g primary continuation text = some (primary ++ text.map blank) := by
  unfold vCreateMessageBegin
  rw [wrap_single single true range]
  simp [single]

/-- Every message is made of lines with their headers that keep the text and respect the width, or
of a single line. The newline at the end is not added if the first break is the end of the text. -/
theorem message_wrapping (g : Settings) (primary continuation text : List Char)
    (header : '\n' ∉ primary) (header' : '\n' ∉ continuation)
    (range : primary.length + text.length + 20 < 2 ^ 64)
    (range' : continuation.length + text.length + 20 < 2 ^ 64) :
    (g.singleLine = false → ∃ first rest, Wraps g primary continuation text first rest ∧
      (∀ line ∈ (primary ++ first) :: rest.map (continuation ++ ·), '\n' ∉ line) ∧
      vCreateMessageBegin g primary continuation text =
        some (((primary ++ first) :: rest.map (continuation ++ ·)).flatMap (· ++ ['\n']))) ∧
    (g.singleLine = true → ∃ message,
      vCreateMessageBegin g primary continuation text = some message ∧ '\n' ∉ message) := by
  constructor
  · intro lines
    obtain ⟨first, rest, wraps, message⟩ := begin_wraps lines header range range'
    have nobreak := wraps.nobreak
    simp only [List.mem_cons, forall_eq_or_imp] at nobreak
    refine ⟨first, rest, wraps, ?_, ?_⟩
    · simp only [List.mem_cons, forall_eq_or_imp, List.forall_mem_map, List.mem_append, not_or]
      exact ⟨⟨header, nobreak.1⟩, fun body mem => ⟨header', nobreak.2 body mem⟩⟩
    · rw [message, List.flatMap_cons, List.flatMap_map]
  · intro single
    refine ⟨_, begin_single single (by omega), ?_⟩
    simp only [List.mem_append, List.mem_map, not_or]
    exact ⟨header, fun ⟨c, _, newline⟩ => blank_ne_newline c newline⟩

theorem message_wrapping_note :
    ∃ first rest, Wraps ⟨4, false⟩ "W: ".toList "  ".toList "no rest".toList first rest ∧
      (∀ line ∈ ("W: ".toList ++ first) :: rest.map ("  ".toList ++ ·), '\n' ∉ line) ∧
      vCreateMessageBegin ⟨4, false⟩ "W: ".toList "  ".toList "no rest".toList =
        some ((("W: ".toList ++ first) :: rest.map ("  ".toList ++ ·)).flatMap (· ++ ['\n'])) :=
  (message_wrapping ⟨4, false⟩ "W: ".toList "  ".toList "no rest".toList
    (by decide) (by decide) (by decide) (by decide)).1 rfl

/-- The text that is just a line with its newline gets no other newline. -/
theorem newline_not_added :
    ∃ message, vCreateMessageBegin ⟨0, false⟩ [] [] ['a', '\n'] = some message ∧
      message.map blank ≠ (['a', '\n'] ++ ['\n']).map blank :=
  ⟨['a', '\n'], by decide, by decide⟩

end Messages

end Sac2c.MessageWrapping
