import Mathlib.Data.List.Basic

/-!
STRreplaceSpecialCharacters of support/str.c, which makes C identifiers of SaC
names. The buffer of one byte more than three times the length of the name is
always large enough. Two names get the same identifier exactly if they are the
same once the escape sequences that are written out in them are read.
-/

namespace Sac2c.NameMangling

section Model

/-- The cases of the switch: a special character and the two letters that follow
the underscore of its escape sequence. -/
def specials : List (Char × Char × Char) :=
  [('.', 'D', 'O'), (',', 'C', 'M'), ('+', 'P', 'L'), ('-', 'M', 'I'), ('*', 'S', 'T'),
    ('/', 'D', 'I'), ('%', 'P', 'R'), ('<', 'L', 'T'), ('>', 'G', 'T'), ('=', 'E', 'Q'),
    ('&', 'A', 'M'), ('|', 'V', 'E'), ('!', 'E', 'X'), ('[', 'B', 'L'), (']', 'B', 'R'),
    ('~', 'T', 'I'), ('@', 'A', 'T'), ('#', 'H', 'A'), ('$', 'D', 'O'), ('^', 'P', 'O'),
    ('\\', 'B', 'S'), (':', 'C', 'L'), (' ', 'S', 'P'), ('\x7b', 'C', 'O'), ('\x7d', 'C', 'C')]

/-- The string `tmp` of a special character; none is the default case. -/
def escape (c : Char) : Option (List Char) :=
  (specials.find? fun entry => entry.1 == c).map fun entry => ['_', entry.2.1, entry.2.2]

def nul : Char := '\x00'

/-- A write of one byte. It is none outside the buffer. -/
def put (buffer : List Char) (pos : Nat) (c : Char) : Option (List Char) :=
  if pos < buffer.length then some (buffer.set pos c) else none

def write : List Char → Nat → List Char → Option (List Char)
  | buffer, _, [] => some buffer
  | buffer, pos, c :: rest => (put buffer pos c).bind fun buffer => write buffer (pos + 1) rest

/-- The C string that starts at the beginning of some memory. -/
def cString (memory : List Char) : List Char := memory.takeWhile (· ≠ nul)

/-- strcat( &( buffer[j]), tmp). -/
def strcat (buffer : List Char) (j : Nat) (tmp : List Char) : Option (List Char) :=
  write buffer (j + (cString (buffer.drop j)).length) (tmp ++ [nul])

/-- The loop, from the character `name[i]` on. -/
def replaceFrom : List Char → Nat → List Char → Option (List Char)
  | [], _, newName => some newName
  | c :: rest, j, newName =>
      match escape c with
      | some tmp =>
          (strcat newName j tmp).bind fun newName =>
            replaceFrom rest (j + (tmp.length - 1) + 1) newName
      | none =>
          (put newName j c).bind fun newName =>
            (put newName (j + 1) nul).bind fun newName => replaceFrom rest (j + 1) newName

/-- The size of the buffer. -/
def bufferSize (name : List Char) : Nat := 1 + 3 * name.length

/-- STRreplaceSpecialCharacters, with the memory that MEMmalloc returns. It is none
if there is a write outside of it. -/
def replaceSpecialCharacters (malloced name : List Char) : Option (List Char) :=
  (put malloced 0 nul).bind fun newName => replaceFrom name 0 newName

/-- The characters of names: letters, digits, underscores, and special characters. -/
def isNameChar (c : Char) : Bool := c.isAlphanum || c == '_' || (escape c).isSome

end Model

section Spelling

/-- The identifier that is made of a name. -/
def mangled (name : List Char) : List Char := name.flatMap fun c => (escape c).getD [c]

/-- A character with an escape sequence of its own: `$` has that of `.`. -/
def distinguished (c : Char) : Char := if c = '$' then '.' else c

/-- The character that two letters stand for after an underscore. -/
def unescape (x y : Char) : Option Char :=
  (specials.find? fun entry => entry.2 == (x, y)).map Prod.fst

/-- A name with the escape sequences that are written out in it read as the
characters they stand for. -/
def readEscapes : List Char → List Char
  | '_' :: x :: y :: rest =>
      match unescape x y with
      | some c => c :: readEscapes rest
      | none => '_' :: readEscapes (x :: y :: rest)
  | c :: rest => distinguished c :: readEscapes rest
  | [] => []

/-- What the entries of the table have in common: an escape sequence is read as its
character, and its letters have no escape sequences themselves. -/
structure Legible (entry : Char × Char × Char) : Prop where
  spelled : escape entry.1 = some ['_', entry.2.1, entry.2.2]
  read : unescape entry.2.1 entry.2.2 = some (distinguished entry.1)
  first : escape entry.2.1 = none
  second : escape entry.2.2 = none
  letters : entry.2.1 ≠ '_' ∧ entry.2.2 ≠ '_'
  noNul : nul ∉ [entry.2.1, entry.2.2]

theorem specials_legible {entry : Char × Char × Char} (member : entry ∈ specials) :
    Legible entry := by
  have all : ∀ entry ∈ specials,
      escape entry.1 = some ['_', entry.2.1, entry.2.2] ∧
        unescape entry.2.1 entry.2.2 = some (distinguished entry.1) ∧
        escape entry.2.1 = none ∧ escape entry.2.2 = none ∧
        (entry.2.1 ≠ '_' ∧ entry.2.2 ≠ '_') ∧ nul ∉ [entry.2.1, entry.2.2] := by
    decide
  obtain ⟨spelled, read, first, second, letters, noNul⟩ := all entry member
  exact ⟨spelled, read, first, second, letters, noNul⟩

theorem escape_cases {c : Char} {tmp : List Char} (special : escape c = some tmp) :
    ∃ entry ∈ specials, entry.1 = c ∧ tmp = ['_', entry.2.1, entry.2.2] := by
  obtain ⟨entry, found, rfl⟩ := Option.map_eq_some_iff.mp special
  exact ⟨entry, List.mem_of_find?_eq_some found, by simpa using List.find?_some found, rfl⟩

theorem unescape_cases {x y c : Char} (known : unescape x y = some c) :
    ∃ entry ∈ specials, entry.1 = c ∧ entry.2 = (x, y) := by
  obtain ⟨entry, found, rfl⟩ := Option.map_eq_some_iff.mp known
  exact ⟨entry, List.mem_of_find?_eq_some found, rfl, by simpa using List.find?_some found⟩

theorem escape_underscore : escape '_' = none := by decide

theorem unescape_underscore_left (y : Char) : unescape '_' y = none := by
  cases known : unescape '_' y with
  | none => rfl
  | some c =>
      obtain ⟨entry, member, _, letters⟩ := unescape_cases known
      exact absurd (congrArg Prod.fst letters) (specials_legible member).letters.1

theorem unescape_underscore_right (x : Char) : unescape x '_' = none := by
  cases known : unescape x '_' with
  | none => rfl
  | some c =>
      obtain ⟨entry, member, _, letters⟩ := unescape_cases known
      exact absurd (congrArg Prod.snd letters) (specials_legible member).letters.2

theorem escape_distinguished (c : Char) : escape (distinguished c) = escape c := by
  unfold distinguished
  split
  · next dollar =>
      subst dollar
      decide
  · rfl

theorem distinguished_of_none {c : Char} (ordinary : escape c = none) : distinguished c = c := by
  unfold distinguished
  split
  · next dollar =>
      subst dollar
      exact absurd ordinary (by decide)
  · rfl

theorem mangled_cons (c : Char) (rest : List Char) :
    mangled (c :: rest) = (escape c).getD [c] ++ mangled rest := rfl

/-- Reading the escape sequences of a name does not change its identifier. -/
theorem mangled_read (name : List Char) : mangled (readEscapes name) = mangled name := by
  fun_induction readEscapes name with
  | case1 x y rest c known ih =>
      obtain ⟨entry, member, rfl, letters⟩ := unescape_cases known
      have legible := specials_legible member
      obtain ⟨rfl, rfl⟩ := Prod.mk.inj letters
      rw [mangled_cons, mangled_cons, mangled_cons, mangled_cons, legible.spelled, legible.first,
        legible.second, escape_underscore, ih]
      rfl
  | case2 x y rest known ih =>
      rw [mangled_cons, mangled_cons '_', ih]
  | case3 c rest _ ih =>
      rw [mangled_cons, mangled_cons, escape_distinguished, ih]
      cases ordinary : escape c with
      | none => rw [distinguished_of_none ordinary]
      | some tmp => rfl
  | case4 => rfl

/-- An underscore is read as itself if no escape sequence starts with it. -/
theorem read_underscore {rest : List Char}
    (ordinary : ∀ x y tail, rest = x :: y :: tail → unescape x y = none) :
    readEscapes ('_' :: rest) = '_' :: readEscapes rest := by
  cases rest with
  | nil => rfl
  | cons x rest =>
      cases rest with
      | nil => rfl
      | cons y tail => rw [readEscapes, ordinary x y tail rfl]

theorem read_ordinary {c : Char} (other : c ≠ '_') (rest : List Char) :
    readEscapes (c :: rest) = distinguished c :: readEscapes rest := by
  rw [readEscapes]
  rintro x y tail rfl
  exact absurd rfl other

/-- The identifier of a name starts with the name's first character, or with an
underscore. -/
theorem mangled_head (c : Char) (rest : List Char) :
    (escape c = none ∧ mangled (c :: rest) = c :: mangled rest) ∨
      ∃ tail, mangled (c :: rest) = '_' :: tail := by
  rw [mangled_cons]
  cases special : escape c with
  | none => exact Or.inl ⟨rfl, rfl⟩
  | some tmp =>
      obtain ⟨entry, _, _, rfl⟩ := escape_cases special
      exact Or.inr ⟨_, rfl⟩

/-- No escape sequence starts with an underscore of the name unless one is written
out there. -/
theorem mangled_no_escape {x y : Char} {tail name : List Char}
    (written : ∀ a b others, name = a :: b :: others → unescape a b = none)
    (spelled : mangled name = x :: y :: tail) : unescape x y = none := by
  cases name with
  | nil => cases spelled
  | cons a name =>
      rcases mangled_head a name with ⟨_, starts⟩ | ⟨_, starts⟩
      · rw [starts] at spelled
        obtain ⟨rfl, follow⟩ := List.cons.inj spelled
        cases name with
        | nil => cases follow
        | cons b others =>
            rcases mangled_head b others with ⟨_, next⟩ | ⟨_, next⟩
            · rw [next] at follow
              obtain ⟨rfl, _⟩ := List.cons.inj follow
              exact written a b others rfl
            · rw [next] at follow
              obtain ⟨rfl, _⟩ := List.cons.inj follow
              exact unescape_underscore_right a
      · rw [starts] at spelled
        obtain ⟨rfl, _⟩ := List.cons.inj spelled
        exact unescape_underscore_left y

/-- The escape sequences of an identifier are those of the name and those that stand
for its special characters. -/
theorem read_mangled (name : List Char) : readEscapes (mangled name) = readEscapes name := by
  fun_induction readEscapes name with
  | case1 x y rest c known ih =>
      obtain ⟨entry, member, rfl, letters⟩ := unescape_cases known
      -- the escape sequence is written out, and its characters are mangled to themselves
      have legible := specials_legible member
      obtain ⟨rfl, rfl⟩ := Prod.mk.inj letters
      rw [mangled_cons, mangled_cons, mangled_cons, legible.first, legible.second,
        escape_underscore]
      change readEscapes ('_' :: entry.2.1 :: entry.2.2 :: mangled rest) = _
      rw [readEscapes, known, ih]
  | case2 x y rest unknown ih =>
      -- an underscore that starts no escape sequence starts none in the identifier either
      rw [mangled_cons, escape_underscore]
      change readEscapes ('_' :: mangled (x :: y :: rest)) = _
      rw [read_underscore, ih]
      intro a b tail spelled
      refine mangled_no_escape ?_ spelled
      intro u v others same
      cases same
      exact unknown
  | case3 c rest noEscape ih =>
      by_cases underscore : c = '_'
      · subst underscore
        rw [mangled_cons, escape_underscore]
        change readEscapes ('_' :: mangled rest) = _
        rw [read_underscore, ih]
        · rfl
        · intro a b tail spelled
          refine mangled_no_escape ?_ spelled
          rintro x y others rfl
          exact (noEscape x y others rfl rfl).elim
      · rw [mangled_cons]
        cases special : escape c with
        | none =>
            change readEscapes (c :: mangled rest) = _
            rw [read_ordinary underscore, ih]
        | some tmp =>
            obtain ⟨entry, member, rfl, rfl⟩ := escape_cases special
            change readEscapes ('_' :: entry.2.1 :: entry.2.2 :: mangled rest) = _
            rw [readEscapes, (specials_legible member).read, ih]
  | case4 => rfl

/-- Two names have the same identifier exactly if they are read as the same. -/
theorem mangled_eq_iff (name1 name2 : List Char) :
    mangled name1 = mangled name2 ↔ readEscapes name1 = readEscapes name2 := by
  constructor
  · intro same
    rw [← read_mangled name1, same, read_mangled]
  · intro same
    rw [← mangled_read name1, same, mangled_read]

end Spelling

section Buffer

theorem put_at (start tail : List Char) (old c : Char) :
    put (start ++ old :: tail) start.length c = some (start ++ c :: tail) := by
  simp [put]

theorem write_at (start tail chars : List Char) (room : chars.length ≤ tail.length) :
    write (start ++ tail) start.length chars =
      some (start ++ chars ++ tail.drop chars.length) := by
  induction chars generalizing start tail with
  | nil => simp [write]
  | cons c rest ih =>
      cases tail with
      | nil => simp at room
      | cons old tail =>
          have next := ih (start ++ [c]) tail (by simpa using room)
          simp only [List.length_append, List.length_cons, List.length_nil, Nat.zero_add,
            List.append_assoc, List.cons_append, List.nil_append] at next
          rw [write, put_at, Option.bind_some, next]
          simp

/-- strcat where the C string ends. -/
theorem strcat_at (start tail tmp : List Char) (room : tmp.length ≤ tail.length) :
    strcat (start ++ nul :: tail) start.length tmp =
      some (start ++ tmp ++ nul :: tail.drop tmp.length) := by
  have ended : cString ((start ++ nul :: tail).drop start.length) = [] := by
    simp [cString]
  have written := write_at start (nul :: tail) (tmp ++ [nul]) (by simpa using room)
  rw [strcat, ended]
  simpa using written

/-- The loop: three bytes of the buffer are left for each character that follows. -/
theorem replace_from_spec (rest start tail : List Char) (room : 3 * rest.length ≤ tail.length) :
    ∃ left, replaceFrom rest start.length (start ++ nul :: tail) =
      some (start ++ mangled rest ++ nul :: left) := by
  induction rest generalizing start tail with
  | nil => exact ⟨tail, by simp [replaceFrom, mangled]⟩
  | cons c rest ih =>
      rw [List.length_cons] at room
      rw [mangled_cons, replaceFrom]
      cases special : escape c with
      | some tmp =>
          -- the terminating nul of the last round is where strcat starts
          obtain ⟨entry, _, _, rfl⟩ := escape_cases special
          have enough : 3 ≤ tail.length := by omega
          obtain ⟨left, ends⟩ := ih (start ++ ['_', entry.2.1, entry.2.2]) (tail.drop 3) (by
            rw [List.length_drop]
            omega)
          refine ⟨left, ?_⟩
          simp only [strcat_at start tail ['_', entry.2.1, entry.2.2] enough, Option.bind_some]
          simpa using ends
      | none =>
          cases tail with
          | nil => simp at room
          | cons old tail =>
              obtain ⟨left, ends⟩ := ih (start ++ [c]) tail (by
                rw [List.length_cons] at room
                omega)
              refine ⟨left, ?_⟩
              have first := put_at start (old :: tail) nul c
              have second := put_at (start ++ [c]) tail old nul
              simp only [List.length_append, List.length_cons, List.length_nil, Nat.zero_add,
                List.append_assoc, List.cons_append, List.nil_append] at second ends
              simp only [first, second, Option.bind_some, ends]
              simp

theorem nul_not_mangled {name : List Char} (chars : ∀ c ∈ name, isNameChar c = true) :
    nul ∉ mangled name := by
  intro member
  obtain ⟨c, inName, here⟩ := List.mem_flatMap.mp member
  cases special : escape c with
  | some tmp =>
      obtain ⟨entry, known, _, rfl⟩ := escape_cases special
      rw [special, Option.getD_some] at here
      rcases List.mem_cons.mp here with same | letter
      · exact absurd same (by decide)
      · exact (specials_legible known).noNul letter
  | none =>
      rw [special, Option.getD_none] at here
      have ordinary := chars c inName
      rw [← List.mem_singleton.mp here] at ordinary
      exact absurd ordinary (by decide)

theorem c_string_at {start : List Char} (tail : List Char) (inside : nul ∉ start) :
    cString (start ++ nul :: tail) = start := by
  induction start with
  | nil => simp [cString]
  | cons c rest ih =>
      rw [List.mem_cons, not_or] at inside
      rw [List.cons_append, cString, List.takeWhile_cons, if_pos (by simpa using Ne.symm inside.1)]
      exact congrArg (c :: ·) (ih inside.2)

/-- No write leaves the buffer, and the C string in it is the identifier. -/
theorem replace_special_characters_spec {malloced name : List Char}
    (size : malloced.length = bufferSize name) (chars : ∀ c ∈ name, isNameChar c = true) :
    ∃ newName, replaceSpecialCharacters malloced name = some newName ∧
      cString newName = mangled name := by
  cases malloced with
  | nil =>
      unfold bufferSize at size
      rw [List.length_nil] at size
      omega
  | cons old tail =>
      have room : 3 * name.length ≤ tail.length := by
        unfold bufferSize at size
        rw [List.length_cons] at size
        omega
      obtain ⟨left, ends⟩ := replace_from_spec name [] tail room
      have started : put (old :: tail) 0 nul = some (nul :: tail) := put_at [] tail old nul
      refine ⟨mangled name ++ nul :: left, ?_, c_string_at left (nul_not_mangled chars)⟩
      rw [replaceSpecialCharacters, started]
      exact ends

/-- The identifiers of two names fit their buffers, and they differ exactly if the
names differ when the escape sequences in them are read. -/
theorem distinct_identifiers_iff {malloced1 malloced2 name1 name2 : List Char}
    (size1 : malloced1.length = bufferSize name1) (size2 : malloced2.length = bufferSize name2)
    (chars1 : ∀ c ∈ name1, isNameChar c = true) (chars2 : ∀ c ∈ name2, isNameChar c = true) :
    ∃ newName1 newName2, replaceSpecialCharacters malloced1 name1 = some newName1 ∧
      replaceSpecialCharacters malloced2 name2 = some newName2 ∧
      (cString newName1 ≠ cString newName2 ↔ readEscapes name1 ≠ readEscapes name2) := by
  obtain ⟨newName1, replaced1, spelled1⟩ := replace_special_characters_spec size1 chars1
  obtain ⟨newName2, replaced2, spelled2⟩ := replace_special_characters_spec size2 chars2
  refine ⟨newName1, newName2, replaced1, replaced2, ?_⟩
  rw [spelled1, spelled2, Ne, Ne, mangled_eq_iff]

/-- The names `+` and `<=`. -/
theorem distinct_identifiers_plus :
    ∃ newName1 newName2, replaceSpecialCharacters (List.replicate 4 'x') ['+'] = some newName1 ∧
      replaceSpecialCharacters (List.replicate 7 'x') ['<', '='] = some newName2 ∧
      cString newName1 ≠ cString newName2 := by
  obtain ⟨newName1, newName2, replaced1, replaced2, differ⟩ :=
    distinct_identifiers_iff (show (List.replicate 4 'x').length = bufferSize ['+'] from rfl)
      (show (List.replicate 7 'x').length = bufferSize ['<', '='] from rfl)
      (List.all_eq_true.mp rfl) (List.all_eq_true.mp rfl)
  exact ⟨newName1, newName2, replaced1, replaced2, differ.mpr (by decide)⟩

/-- The names `.` and `$` have the same identifier. -/
theorem dot_and_dollar_collide :
    ¬ ∀ malloced1 malloced2 name1 name2 newName1 newName2 : List Char,
      malloced1.length = bufferSize name1 → malloced2.length = bufferSize name2 →
      (∀ c ∈ name1, isNameChar c = true) → (∀ c ∈ name2, isNameChar c = true) →
      name1 ≠ name2 → replaceSpecialCharacters malloced1 name1 = some newName1 →
      replaceSpecialCharacters malloced2 name2 = some newName2 →
      cString newName1 ≠ cString newName2 := by
  intro injective
  exact injective (List.replicate 4 'x') (List.replicate 4 'x') ['.'] ['$'] _ _ rfl rfl
    (List.all_eq_true.mp rfl) (List.all_eq_true.mp rfl) (by decide) rfl rfl rfl

end Buffer

end Sac2c.NameMangling
