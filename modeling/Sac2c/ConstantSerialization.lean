import Mathlib.Algebra.BigOperators.Group.List.Basic

/-!
The serialisation of constants of constants_serialize.c: a constant is printed as the
C expression that makes it again, with its shape in decimals and its elements as the
string of hexadecimal digits of str.c. The decoder counts the bytes in an int that it
doubles, where the encoder counts them in a size_t; with that the constant comes back
exactly if it has less than 2 ^ 30 bytes.
-/

namespace Sac2c.ConstantSerialization

section Types

inductive SimpleType where
  | unknown | byte | short | int | long | longlong | ubyte | ushort | uint | ulong | ulonglong
  | float | floatvec | double | longdbl | bool | str | char | hidden | classtype | void | dots
  | user | boolDev | intDev | longDev | longlongDev | floatDev | doubleDev | boolShmem | intShmem
  | longShmem | longlongShmem | floatShmem | doubleShmem | boolDist | intDist | longDist
  | longlongDist | floatDist | doubleDist | sync | rc | nothing
  deriving DecidableEq, Repr

/-- The simple types in the order of type_info.mac. -/
def simpleTypes : List SimpleType :=
  [.unknown, .byte, .short, .int, .long, .longlong, .ubyte, .ushort, .uint,
    .ulong, .ulonglong, .float, .floatvec, .double, .longdbl, .bool, .str, .char,
    .hidden, .classtype, .void, .dots, .user, .boolDev, .intDev, .longDev, .longlongDev,
    .floatDev, .doubleDev, .boolShmem, .intShmem, .longShmem, .longlongShmem, .floatShmem, .doubleShmem, .boolDist,
    .intDist, .longDist, .longlongDist, .floatDist, .doubleDist, .sync, .rc, .nothing]

/-- The number of a simple type in the enumeration. -/
def typeNumber (type : SimpleType) : Nat := simpleTypes.idxOf type

/-- global.basetype_size, for the C types of a 64 bit machine. -/
def basetypeSize : SimpleType → Nat
  | .unknown | .void | .dots | .user | .rc | .nothing => 0
  | .byte | .ubyte | .bool | .char | .boolDev | .boolShmem | .boolDist => 1
  | .short | .ushort => 2
  | .int | .uint | .float | .intDev | .floatDev | .intShmem | .floatShmem | .intDist | .floatDist => 4
  | .long | .longlong | .ulong | .ulonglong | .double | .str | .hidden | .classtype | .longDev
  | .longlongDev | .doubleDev | .longShmem | .longlongShmem | .doubleShmem | .longDist
  | .longlongDist | .doubleDist | .sync => 8
  | .floatvec | .longdbl => 16

theorem type_of_number (type : SimpleType) : simpleTypes[typeNumber type]? = some type := by
  cases type <;> rfl

end Types

section HexStrings

/-- Hex2Dig. -/
def hex2Dig (x : Char) : UInt8 :=
  if '0' ≤ x ∧ x ≤ '9' then UInt8.ofNat x.toNat - 48 else 10 + UInt8.ofNat x.toNat - 65

/-- Dig2Hex. -/
def dig2Hex (x : UInt8) : Char :=
  if x < 10 then Char.ofNat ('0'.toNat + x.toNat) else Char.ofNat ('A'.toNat + x.toNat - 10)

/-- STRbytes2Hex, without the terminator. -/
def bytes2Hex (array : List UInt8) : List Char :=
  array.flatMap fun x => [dig2Hex (x / 16), dig2Hex (x % 16)]

/-- The loop of STRhex2Bytes, on the characters from `string[pos * 2]` up to the
terminator. It is none where the behaviour is undefined: if `pos * 2` overflows, if the
string is read behind its terminator or the array written behind its end. -/
def hex2BytesFrom : List Char → Nat → List UInt8 → Option (List UInt8)
  | [], pos, array => if pos * 2 < 2 ^ 31 then some array else none
  | [_], _, _ => none
  | high :: low :: string, pos, array =>
      if pos * 2 < 2 ^ 31 ∧ pos < array.length then
        hex2BytesFrom string (pos + 1) (array.set pos (hex2Dig high * 16 + hex2Dig low))
      else none

/-- STRhex2Bytes. -/
def hex2Bytes (array : List UInt8) (string : List Char) : Option (List UInt8) :=
  hex2BytesFrom string 0 array

end HexStrings

section Constants

structure Shape where
  dim : Nat
  elems : List Nat
  fits : elems.length = dim
  deriving DecidableEq, Repr

/-- The struct CONSTANT, with the bytes of the elements. -/
structure Constant where
  type : SimpleType
  mshape : Shape
  elems : List UInt8
  vlen : Nat
  deriving DecidableEq, Repr

/-- CONSTANT_SIZEOF. -/
def Constant.sizeof (cnst : Constant) (type : SimpleType) : Nat := cnst.vlen * basetypeSize type

/-- A constant that stands for an array. -/
structure ArrayConstant extends Constant where
  unrolled : vlen = mshape.elems.prod
  sized : elems.length = vlen * basetypeSize type

/-- The conversions %d and %zu. -/
def decimal (n : Nat) : List Char := Nat.toDigits 10 n

/-- The constant parts of the formats. -/
def constantCall : List Char := "COdeserializeConstant( ".toList
def shapeCall : List Char := "SHcreateShape( ".toList
def comma : List Char := ", ".toList
def closing : List Char := ")".toList
def openString : List Char := ", \"".toList
def closeString : List Char := "\")".toList

/-- SHserializeShape. -/
def serializeShape : Option Shape → List Char
  | none => "NULL".toList
  | some shp =>
      shapeCall ++ decimal shp.dim ++
        shp.elems.flatMap (fun ext => comma ++ decimal ext) ++ closing

/-- COserializeConstant. -/
def serializeConstant : Option Constant → List Char
  | none => "NULL".toList
  | some cnst =>
      constantCall ++ decimal (typeNumber cnst.type) ++ comma ++
        serializeShape (some cnst.mshape) ++ comma ++ decimal cnst.vlen ++ openString ++
        bytes2Hex (cnst.elems.take (cnst.sizeof cnst.type)) ++ closeString

/-- Memory of a size, with the contents that it happens to have. -/
def malloc (garbage : Nat → UInt8) (size : Nat) : List UInt8 := (List.range size).map garbage

/-- COINTallocCV. -/
def allocCV (garbage : Nat → UInt8) (type : SimpleType) (length : Nat) : List UInt8 :=
  malloc garbage (basetypeSize type * length)

/-- COdeserializeConstant. -/
def deserializeConstant (garbage : Nat → UInt8) (type : SimpleType) (shp : Shape) (vlen : Nat)
    (vec : List Char) : Option Constant :=
  (hex2Bytes (allocCV garbage type vlen) vec).map fun data => ⟨type, shp, data, vlen⟩

/-- SHcreateShape. It is none if there are not enough arguments. -/
def createShape (dim : Nat) (args : List Nat) : Option Shape :=
  if enough : dim ≤ args.length then
    some ⟨dim, args.take dim, by simp [enough]⟩
  else none

end Constants

section Evaluation

/-- The text behind some given text. -/
def expect (given text : List Char) : Option (List Char) :=
  if given.isPrefixOf text then some (text.drop given.length) else none

/-- A decimal constant and the text behind it. -/
def readNumber (text : List Char) : Option (Nat × List Char) :=
  let digits := text.takeWhile Char.isDigit
  if digits = [] then none else some (Nat.ofDigitChars 10 digits 0, text.dropWhile Char.isDigit)

/-- Some more arguments of a call. -/
def readArguments : Nat → List Char → Option (List Nat × List Char)
  | 0, text => some ([], text)
  | n + 1, text =>
      (expect comma text).bind fun text => (readNumber text).bind fun first =>
        (readArguments n first.2).map fun rest => (first.1 :: rest.1, rest.2)

/-- The value of a call of SHcreateShape. -/
def evalShape (text : List Char) : Option (Shape × List Char) :=
  (expect shapeCall text).bind fun text => (readNumber text).bind fun dim =>
    (readArguments dim.1 dim.2).bind fun args => (expect closing args.2).bind fun text =>
      (createShape dim.1 args.1).map fun shp => (shp, text)

/-- The value of a printed call of COdeserializeConstant. -/
def evalConstant (garbage : Nat → UInt8) (text : List Char) : Option Constant :=
  (expect constantCall text).bind fun text =>
    (readNumber text).bind fun type => (expect comma type.2).bind fun text =>
      (evalShape text).bind fun shp => (expect comma shp.2).bind fun text =>
        (readNumber text).bind fun vlen => (expect openString vlen.2).bind fun text =>
          (expect closeString (text.dropWhile (· ≠ '"'))).bind fun _ =>
            simpleTypes[type.1]?.bind fun type =>
              deserializeConstant garbage type shp.1 vlen.1 (text.takeWhile (· ≠ '"'))

end Evaluation

section Digits

theorem digit_read {d : Nat} (small : d < 16) : hex2Dig (dig2Hex (UInt8.ofNat d)) = UInt8.ofNat d := by
  have all : ∀ d < 16, hex2Dig (dig2Hex (UInt8.ofNat d)) = UInt8.ofNat d := by decide
  exact all d small

theorem digit_unquoted {d : Nat} (small : d < 16) : dig2Hex (UInt8.ofNat d) ≠ '"' := by
  have all : ∀ d < 16, dig2Hex (UInt8.ofNat d) ≠ '"' := by decide
  exact all d small

theorem high_digit (x : UInt8) : x / 16 = UInt8.ofNat (x.toNat / 16) := by
  apply UInt8.toNat_inj.mp
  have bound := x.toNat_lt
  simp
  omega

theorem low_digit (x : UInt8) : x % 16 = UInt8.ofNat (x.toNat % 16) := by
  apply UInt8.toNat_inj.mp
  have bound := x.toNat_lt
  simp
  omega

theorem byte_of_digits (x : UInt8) :
    hex2Dig (dig2Hex (x / 16)) * 16 + hex2Dig (dig2Hex (x % 16)) = x := by
  have bound := x.toNat_lt
  rw [high_digit, low_digit, digit_read (by omega), digit_read (by omega)]
  apply UInt8.toNat_inj.mp
  simp
  omega

theorem hex2bytes_from (array before old : List UInt8) (same : old.length = array.length) :
    hex2BytesFrom (bytes2Hex array) before.length (before ++ old) =
      if (before.length + array.length) * 2 < 2 ^ 31 then some (before ++ array) else none := by
  -- The bytes of `before` have been decoded, and `old` is still the fresh memory.
  induction array generalizing before old with
  | nil =>
      have empty : old = [] := List.length_eq_zero_iff.mp same
      simp [bytes2Hex, hex2BytesFrom, empty]
  | cons x array ih =>
      cases old with
      | nil => simp at same
      | cons y old =>
          have rest := ih (before ++ [x]) old (by simpa using same)
          have written : (before ++ y :: old).set before.length x = before ++ [x] ++ old := by simp
          rw [List.length_append, List.length_singleton] at rest
          simp only [bytes2Hex, List.flatMap_cons, List.cons_append, List.nil_append,
            hex2BytesFrom, byte_of_digits, written] at rest ⊢
          rw [rest]
          simp only [List.length_append, List.length_cons, List.append_assoc, List.cons_append,
            List.nil_append]
          split
          · congr 3
            omega
          · rw [if_neg]
            omega

end Digits

section Texts

theorem expect_given (given text : List Char) : expect given (given ++ text) = some text := by
  simp [expect]

theorem decimal_digits (n : Nat) : ∀ c ∈ decimal n, c.isDigit = true :=
  fun _ member => Nat.isDigit_of_mem_toDigits (by decide) (by decide) member

/-- A text that a number ends in front of. -/
def Stops (text : List Char) : Prop := ∀ c ∈ text.head?, c.isDigit = false

theorem stops_comma (text : List Char) : Stops (comma ++ text) := by
  simp [Stops, comma]

theorem stops_closing (text : List Char) : Stops (closing ++ text) := by
  simp [Stops, closing]

theorem number_read (n : Nat) {text : List Char} (stop : Stops text) :
    readNumber (decimal n ++ text) = some (n, text) := by
  have digits : (decimal n ++ text).takeWhile Char.isDigit = decimal n := by
    rw [List.takeWhile_append_of_pos (decimal_digits n)]
    cases text with
    | nil => simp
    | cons c text => simp [stop c rfl]
  have behind : (decimal n ++ text).dropWhile Char.isDigit = text := by
    rw [List.dropWhile_append_of_pos (decimal_digits n)]
    cases text with
    | nil => rfl
    | cons c text => simp [stop c rfl]
  have some_digit : decimal n ≠ [] := Nat.toDigits_ne_nil
  have value : Nat.ofDigitChars 10 (decimal n) 0 = n := Nat.ofDigitChars_ten_toDigits
  simp only [readNumber, digits, behind, if_neg some_digit, value]

/-- The further arguments of a call, each behind a comma. -/
def printedArguments (args : List Nat) : List Char :=
  args.flatMap fun ext => comma ++ decimal ext

theorem stops_arguments (args : List Nat) (text : List Char) :
    Stops (printedArguments args ++ (closing ++ text)) := by
  cases args with
  | nil => exact stops_closing text
  | cons ext args =>
      rw [printedArguments, List.flatMap_cons, List.append_assoc, List.append_assoc]
      exact stops_comma _

theorem arguments_read (args : List Nat) (text : List Char) :
    readArguments args.length (printedArguments args ++ (closing ++ text)) =
      some (args, closing ++ text) := by
  induction args with
  | nil => rfl
  | cons ext args ih =>
      have number := number_read ext (stops_arguments args text)
      have unfolded : printedArguments (ext :: args) =
          comma ++ (decimal ext ++ printedArguments args) := by
        simp only [printedArguments, List.flatMap_cons, List.append_assoc]
      rw [unfolded, List.append_assoc, List.append_assoc]
      simp only [List.length_cons, readArguments, expect_given, Option.bind_some, number, ih,
        Option.map_some]

theorem created_shape (shp : Shape) : createShape shp.dim shp.elems = some shp := by
  cases shp with
  | mk dim elems fits => simp [createShape, fits]

theorem shape_read (shp : Shape) (text : List Char) :
    evalShape (serializeShape (some shp) ++ text) = some (shp, text) := by
  have number := number_read shp.dim (stops_arguments shp.elems text)
  have arguments := arguments_read shp.elems text
  rw [shp.fits] at arguments
  have printed : serializeShape (some shp) ++ text = shapeCall ++
      (decimal shp.dim ++ (printedArguments shp.elems ++ (closing ++ text))) := by
    simp only [serializeShape, printedArguments, List.append_assoc]
  rw [printed]
  simp only [evalShape, expect_given, Option.bind_some, number, arguments, created_shape,
    Option.map_some]

theorem hex_unquoted (array : List UInt8) : ∀ c ∈ bytes2Hex array, decide (c ≠ '"') = true := by
  intro c member
  obtain ⟨x, _, digit⟩ := List.mem_flatMap.mp member
  have bound := x.toNat_lt
  rw [high_digit, low_digit] at digit
  simp only [List.mem_cons, List.not_mem_nil, or_false] at digit
  cases digit with
  | inl high => simpa [high] using digit_unquoted (by omega)
  | inr low => simpa [low] using digit_unquoted (by omega)

/-- What is printed evaluates to the call of COdeserializeConstant with the parts of the
constant. -/
theorem constant_evaluates (garbage : Nat → UInt8) (cnst : Constant) :
    evalConstant garbage (serializeConstant (some cnst)) =
      deserializeConstant garbage cnst.type cnst.mshape cnst.vlen
        (bytes2Hex (cnst.elems.take (cnst.sizeof cnst.type))) := by
  have string : ∀ array, (bytes2Hex array ++ closeString).takeWhile (· ≠ '"') = bytes2Hex array := by
    intro array
    rw [List.takeWhile_append_of_pos (hex_unquoted array)]
    simp [closeString]
  have behind : ∀ array, (bytes2Hex array ++ closeString).dropWhile (· ≠ '"') = closeString := by
    intro array
    rw [List.dropWhile_append_of_pos (hex_unquoted array)]
    simp [closeString]
  -- Each argument is read up to the text that the printer puts behind it.
  have closed : expect closeString closeString = some [] := by
    simpa using expect_given closeString []
  have stop : ∀ text, Stops (openString ++ text) := by
    intro text
    simp [Stops, openString]
  simp only [serializeConstant, evalConstant, List.append_assoc, expect_given, Option.bind_some,
    number_read _ (stops_comma _), number_read _ (stop _), shape_read, string, behind, closed,
    type_of_number]

end Texts

section RoundTrip

theorem hex2bytes_inverts (garbage : Nat → UInt8) (array : List UInt8) :
    hex2Bytes (malloc garbage array.length) (bytes2Hex array) =
      if array.length < 2 ^ 30 then some array else none := by
  have read := hex2bytes_from array [] (malloc garbage array.length) (by simp [malloc])
  rw [List.nil_append, List.length_nil, Nat.zero_add] at read
  rw [hex2Bytes]
  rw [show hex2BytesFrom _ 0 _ = _ from read]
  split
  · rw [if_pos (by omega)]
    rfl
  · rw [if_neg (by omega)]

theorem constant_comes_back (garbage : Nat → UInt8) (cnst : ArrayConstant) :
    evalConstant garbage (serializeConstant (some cnst.toConstant)) =
      if cnst.elems.length < 2 ^ 30 then some cnst.toConstant else none := by
  have whole : cnst.elems.take (cnst.sizeof cnst.type) = cnst.elems := by
    rw [Constant.sizeof, ← cnst.sized, List.take_length]
  have allocated : basetypeSize cnst.type * cnst.vlen = cnst.elems.length := by
    rw [cnst.sized, Nat.mul_comm]
  rw [constant_evaluates, whole, deserializeConstant, allocCV, allocated, hex2bytes_inverts]
  split <;> rfl

theorem serialized_round_trip_iff (garbage : Nat → UInt8) (cnst : ArrayConstant)
    (array : List UInt8) :
    (evalConstant garbage (serializeConstant (some cnst.toConstant)) = some cnst.toConstant ↔
      cnst.elems.length < 2 ^ 30) ∧
    (hex2Bytes (malloc garbage array.length) (bytes2Hex array) = some array ↔
      array.length < 2 ^ 30) := by
  constructor
  · rw [constant_comes_back]
    split <;> simp_all
  · rw [hex2bytes_inverts]
    split <;> simp_all

/-- An array of bytes that are all zero. -/
def zeros (n : Nat) : ArrayConstant where
  type := .ubyte
  mshape := ⟨1, [n], rfl⟩
  elems := List.replicate n 0
  vlen := n
  unrolled := by simp
  sized := by simp [basetypeSize]

theorem gigabyte_lost :
    ¬ ∀ (garbage : Nat → UInt8) (cnst : ArrayConstant),
      evalConstant garbage (serializeConstant (some cnst.toConstant)) = some cnst.toConstant := by
  intro restored
  have back := restored (fun _ => 0) (zeros (2 ^ 30))
  have large : ¬ (zeros (2 ^ 30)).elems.length < 2 ^ 30 := by
    unfold zeros
    rw [List.length_replicate]
    exact Nat.lt_irrefl _
  rw [constant_comes_back, if_neg large] at back
  exact Option.some_ne_none _ back.symm

end RoundTrip

end Sac2c.ConstantSerialization
