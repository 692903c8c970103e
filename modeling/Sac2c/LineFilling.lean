import Mathlib.Data.List.Forall2

/-!
Filling lines character by character: a line that would grow beyond a limit ends at its last space,
which becomes the line break; a line without a space may grow on. Line breaks of the text are kept
and tabs read as spaces.
-/

namespace Sac2c.LineFilling

section Filling

/-- The line being filled: the text before its last space, if it has one, and the text after. -/
structure Line where
  before : Option (List Char)
  word : List Char

def Line.empty : Line :=
  ⟨none, []⟩

def Line.chars (line : Line) : List Char :=
  match line.before with
  | none => line.word
  | some before => before ++ ' ' :: line.word

def untab (c : Char) : Char :=
  if c = '\t' then ' ' else c

def Line.push (line : Line) (c : Char) : Line :=
  if c = ' ' then ⟨some line.chars, []⟩ else ⟨line.before, line.word ++ [c]⟩

/-- The next character reaches the limit. -/
def full (limit : Option Nat) (line : Line) : Bool :=
  match limit with
  | none => false
  | some width => width ≤ line.chars.length

/-- A line that has ended, if any, and the line to go on with. -/
def place (limit : Option Nat) (line : Line) (c : Char) : Option (List Char) × Line :=
  if c = '\n' then (some line.chars, .empty)
  else
    let pushed := line.push (untab c)
    match pushed.before with
    | some before => if full limit line then (some before, ⟨none, pushed.word⟩) else (none, pushed)
    | none => (none, pushed)

/-- All lines of a text that continues a line. -/
def fill (limit : Option Nat) : Line → List Char → List (List Char)
  | line, [] => [line.chars]
  | line, c :: text =>
      match place limit line c with
      | (some ended, line) => ended :: fill limit line text
      | (none, line) => fill limit line text

/-- The first line of a text that continues a line, and what follows it. -/
def fillFirst (limit : Option Nat) : Line → List Char → List Char × Option (List Char)
  | line, [] => (line.chars, none)
  | line, c :: text =>
      match place limit line c with
      | (some ended, line) => (ended, some (line.chars ++ text))
      | (none, line) => fillFirst limit line text

/-- Lines with a break between each two. -/
def joined : List (List Char) → List Char
  | [] => []
  | [line] => line
  | line :: lines => line ++ '\n' :: joined lines

end Filling

section Lines

variable {limit : Option Nat} {line : Line} {c : Char}

/-- A character of the text and what becomes of it. -/
def Kept (c d : Char) : Prop :=
  d = c ∨ (c = ' ' ∨ c = '\t') ∧ (d = ' ' ∨ d = '\n')

theorem Kept.trans {c d e : Char} (first : Kept c d) (second : Kept d e) : Kept c e := by
  rcases first with rfl | ⟨blank, rfl | rfl⟩
  · exact second
  · rcases second with rfl | ⟨_, becomes⟩
    · exact Or.inr ⟨blank, Or.inl rfl⟩
    · exact Or.inr ⟨blank, becomes⟩
  · rcases second with rfl | ⟨space | tab, _⟩
    · exact Or.inr ⟨blank, Or.inr rfl⟩
    · exact absurd space (by decide)
    · exact absurd tab (by decide)

theorem kept_refl (l : List Char) : List.Forall₂ Kept l l :=
  List.forall₂_same.mpr fun _ _ => Or.inl rfl

theorem kept_trans {l m n : List Char} (first : List.Forall₂ Kept l m)
    (second : List.Forall₂ Kept m n) : List.Forall₂ Kept l n := by
  induction first generalizing n with
  | nil => exact second
  | cons head tail ih =>
      cases second with
      | cons head' tail' => exact .cons (head.trans head') (ih tail')

theorem kept_append {l m l' m' : List Char} (first : List.Forall₂ Kept l m)
    (second : List.Forall₂ Kept l' m') : List.Forall₂ Kept (l ++ l') (m ++ m') :=
  List.rel_append first second

theorem kept_untab (c : Char) : Kept c (untab c) := by
  unfold untab
  split
  · rename_i tab
    exact Or.inr ⟨Or.inr tab, Or.inl rfl⟩
  · exact Or.inl rfl

theorem untab_ne_tab (c : Char) : untab c ≠ '\t' := by
  unfold untab
  split
  · decide
  · assumption

theorem untab_eq_newline (c : Char) : untab c = '\n' ↔ c = '\n' := by
  unfold untab
  split
  · rename_i tab
    subst tab
    decide
  · rfl

/-- The line is within the limit if it has a space, and it has no breaks and no tabs. -/
structure Fits (limit : Option Nat) (line : Line) : Prop where
  nobreak : '\n' ∉ line.chars
  notab : '\t' ∉ line.chars
  word : ' ' ∉ line.word
  width : ∀ width, limit = some width → line.before.isSome → line.chars.length ≤ width

theorem space_mem_iff (word : ' ' ∉ line.word) : ' ' ∈ line.chars ↔ line.before.isSome := by
  cases before : line.before with
  | none => simp [Line.chars, before, word]
  | some text => simp [Line.chars, before]

@[simp] theorem chars_none (word : List Char) : (Line.mk none word).chars = word :=
  rfl

@[simp] theorem push_chars (line : Line) (c : Char) : (line.push c).chars = line.chars ++ [c] := by
  unfold Line.push
  split
  · rename_i space
    simp [Line.chars, space]
  · cases before : line.before <;> simp [Line.chars, before]

theorem push_word (word : ' ' ∉ line.word) (c : Char) : ' ' ∉ (line.push c).word := by
  unfold Line.push
  split
  · simp
  · rename_i other
    simpa [word] using Ne.symm other

theorem fits_empty (limit : Option Nat) : Fits limit .empty :=
  ⟨by simp [Line.empty, Line.chars], by simp [Line.empty, Line.chars], by simp [Line.empty],
    by simp [Line.empty]⟩

/-- A finished line. -/
structure Body (limit : Option Nat) (body : List Char) : Prop where
  nobreak : '\n' ∉ body
  notab : '\t' ∉ body
  width : ∀ width, limit = some width → ' ' ∈ body → body.length ≤ width

theorem Fits.body (fits : Fits limit line) : Body limit line.chars :=
  ⟨fits.nobreak, fits.notab, fun width limited space =>
    fits.width width limited ((space_mem_iff fits.word).mp space)⟩

/-- What the line becomes has no breaks and no tabs. -/
theorem push_untab_plain (fits : Fits limit line) (plain : c ≠ '\n') :
    '\n' ∉ (line.push (untab c)).chars ∧ '\t' ∉ (line.push (untab c)).chars := by
  rw [push_chars]
  constructor
  · intro mem
    rcases List.mem_append.mp mem with old | new
    · exact fits.nobreak old
    · exact plain ((untab_eq_newline c).mp (List.mem_singleton.mp new).symm)
  · intro mem
    rcases List.mem_append.mp mem with old | new
    · exact fits.notab old
    · exact untab_ne_tab c (List.mem_singleton.mp new).symm

/-- A line that goes on takes the character and still fits. -/
theorem place_none (fits : Fits limit line) {next : Line}
    (placed : place limit line c = (none, next)) :
    c ≠ '\n' ∧ next = line.push (untab c) ∧ Fits limit next := by
  unfold place at placed
  split at placed
  · cases placed
  · rename_i plain
    have chars := push_untab_plain fits plain
    have word := push_word fits.word (untab c)
    simp only at placed
    cases before : (line.push (untab c)).before with
    | none =>
        rw [before] at placed
        cases placed
        exact ⟨plain, rfl, chars.1, chars.2, word, by simp [before]⟩
    | some text =>
        rw [before] at placed
        simp only at placed
        split at placed
        · cases placed
        · rename_i room
          cases placed
          refine ⟨plain, rfl, chars.1, chars.2, word, fun width limited _ => ?_⟩
          subst limited
          simp only [full, decide_eq_true_eq] at room
          simp only [push_chars, List.length_append, List.length_singleton]
          omega

/-- The line after one that ends has no space yet. -/
theorem place_fresh {ended : List Char} {next : Line}
    (placed : place limit line c = (some ended, next)) : next.before = none := by
  unfold place at placed
  split at placed
  · cases placed
    rfl
  · simp only at placed
    split at placed
    · split at placed <;> cases placed
      rfl
    · cases placed

/-- A line that ends is within the limit if it has a space; the character is its break, or the next
line starts with the word that the character belongs to. -/
theorem place_some (fits : Fits limit line) {ended : List Char} {next : Line}
    (placed : place limit line c = (some ended, next)) :
    Body limit ended ∧ Fits limit next ∧
      List.Forall₂ Kept (line.chars ++ [c]) (ended ++ '\n' :: next.chars) := by
  unfold place at placed
  split at placed
  · rename_i newline
    cases placed
    refine ⟨fits.body, fits_empty limit, ?_⟩
    subst newline
    exact kept_refl _
  · rename_i plain
    have chars := push_untab_plain fits plain
    have word := push_word fits.word (untab c)
    simp only at placed
    cases before : (line.push (untab c)).before with
    | none =>
        rw [before] at placed
        cases placed
    | some text =>
        rw [before] at placed
        simp only at placed
        split at placed
        · cases placed
          -- The last space of the line is where it ends.
          have cut : line.chars ++ [untab c] = ended ++ ' ' :: (line.push (untab c)).word := by
            rw [← push_chars, Line.chars, before]
          rw [push_chars, cut] at chars
          have nobreak : '\n' ∉ ended := fun mem => chars.1 (List.mem_append_left _ mem)
          have notab : '\t' ∉ ended := fun mem => chars.2 (List.mem_append_left _ mem)
          refine ⟨⟨nobreak, notab, fun width limited space => ?_⟩, ?_, ?_⟩
          · have start : ended <+: line.chars := by
              refine List.prefix_of_prefix_length_le ⟨_, cut.symm⟩ (List.prefix_append _ _) ?_
              have := congrArg List.length cut
              simp at this
              omega
            have within := fits.width width limited
              ((space_mem_iff fits.word).mp (start.subset space))
            exact Nat.le_trans start.length_le within
          · refine ⟨fun mem => ?_, fun mem => ?_, word, by simp⟩
            · exact chars.1 (List.mem_append_right _ (List.mem_cons_of_mem _ mem))
            · exact chars.2 (List.mem_append_right _ (List.mem_cons_of_mem _ mem))
          · refine kept_trans (m := line.chars ++ [untab c]) ?_ ?_
            · exact kept_append (kept_refl _) (.cons (kept_untab c) .nil)
            · rw [cut]
              refine kept_append (kept_refl _) (.cons ?_ (kept_refl _))
              exact Or.inr ⟨Or.inl rfl, Or.inr rfl⟩
        · cases placed

end Lines

section Texts

variable {limit : Option Nat}

theorem fill_ne_nil (limit : Option Nat) (line : Line) (text : List Char) :
    fill limit line text ≠ [] := by
  induction text generalizing line with
  | nil => simp [fill]
  | cons c text ih =>
      unfold fill
      split
      · simp
      · exact ih _

theorem joined_cons (line : List Char) {lines : List (List Char)} (more : lines ≠ []) :
    joined (line :: lines) = line ++ '\n' :: joined lines := by
  cases lines with
  | nil => exact absurd rfl more
  | cons next lines => rfl

theorem fill_body {line : Line} (fits : Fits limit line) (text : List Char) :
    ∀ body ∈ fill limit line text, Body limit body := by
  induction text generalizing line with
  | nil => simpa [fill] using fits.body
  | cons c text ih =>
      unfold fill
      split
      · rename_i ended next placed
        obtain ⟨body, fits, _⟩ := place_some fits placed
        simp only [List.mem_cons, forall_eq_or_imp]
        exact ⟨body, ih fits⟩
      · rename_i next placed
        exact ih (place_none fits placed).2.2

/-- The lines keep the text. -/
theorem fill_kept {line : Line} (fits : Fits limit line) (text : List Char) :
    List.Forall₂ Kept (line.chars ++ text) (joined (fill limit line text)) := by
  induction text generalizing line with
  | nil => simpa [fill, joined] using kept_refl line.chars
  | cons c text ih =>
      have shift : line.chars ++ c :: text = (line.chars ++ [c]) ++ text := by simp
      rw [shift]
      unfold fill
      split
      · rename_i ended next placed
        obtain ⟨_, fits, kept⟩ := place_some fits placed
        rw [joined_cons _ (fill_ne_nil limit next text)]
        -- What is kept so far, then what the rest of the lines keep of it.
        refine kept_trans (kept_append kept (kept_refl text)) ?_
        rw [List.append_assoc, List.cons_append]
        exact kept_append (kept_refl ended) (.cons (Or.inl rfl) (ih fits))
      · rename_i next placed
        obtain ⟨_, next_eq, fits⟩ := place_none fits placed
        have kept := ih fits
        rw [next_eq, push_chars] at kept
        refine kept_trans (kept_append ?_ (kept_refl text)) (next_eq ▸ kept)
        exact kept_append (kept_refl line.chars) (.cons (kept_untab c) .nil)

theorem fill_first_body {line : Line} (fits : Fits limit line) (text : List Char) :
    Body limit (fillFirst limit line text).1 := by
  induction text generalizing line with
  | nil => exact fits.body
  | cons c text ih =>
      unfold fillFirst
      split
      · rename_i ended next placed
        exact (place_some fits placed).1
      · rename_i next placed
        exact ih (place_none fits placed).2.2

/-- What follows the first line, with the break between them. -/
def following : Option (List Char) → List Char
  | none => []
  | some rest => '\n' :: rest

/-- The first line and what follows it keep the text. -/
theorem fill_first_kept {line : Line} (fits : Fits limit line) (text : List Char) :
    List.Forall₂ Kept (line.chars ++ text)
      ((fillFirst limit line text).1 ++ following (fillFirst limit line text).2) := by
  induction text generalizing line with
  | nil => simpa [fillFirst, following] using kept_refl line.chars
  | cons c text ih =>
      have shift : line.chars ++ c :: text = (line.chars ++ [c]) ++ text := by simp
      rw [shift]
      unfold fillFirst
      split
      · rename_i ended next placed
        have kept := (place_some fits placed).2.2
        simpa [following] using kept_append kept (kept_refl text)
      · rename_i next placed
        obtain ⟨_, next_eq, fits⟩ := place_none fits placed
        have kept := ih fits
        rw [next_eq, push_chars] at kept
        refine kept_trans (kept_append ?_ (kept_refl text)) (next_eq ▸ kept)
        exact kept_append (kept_refl line.chars) (.cons (kept_untab c) .nil)

end Texts

end Sac2c.LineFilling
