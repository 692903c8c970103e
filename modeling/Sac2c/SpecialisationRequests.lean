import Mathlib.Tactic.Ring
import Sac2c.ConstantSerialization
import Sac2c.TerminatedArrays
import Sac2c.TokenSubstitution

/-!
How requests for specialisations are told apart (libsac/rtspec): SAC_lookup_function
(registry.c) makes a key of the unique id, the types and the shapes as encodeShapes
(persistence.c) prints them; SAC_UUID_wasProcessed (uuid_reqqueue.c) compares the name of the
function and the shapes.
-/

namespace Sac2c.SpecialisationRequests

open ConstantSerialization (decimal)
open TerminatedArrays
open TokenSubstitution (nul)

section Model

def maxIntDigits : Nat := 21

/-- A sum of type int, none where it overflows. -/
def addInt (a b : Nat) : Option Nat := if a + b < 2 ^ 31 then some (a + b) else none

/-- The text of "%d". -/
def printedInt (value : Int) : List Char :=
  if value < 0 then '-' :: decimal (-value).toNat else decimal value.toNat

/-- The rounds for one argument: its dimension and, if that is positive, its extents. -/
def rounds (dim : Int) : Nat := if dim > 0 then dim.toNat + 1 else 1

/-- The size of the string and the position in the shape array. -/
structure Measure where
  shapeStringSize : Nat
  k : Nat

def measureInts : Nat → Measure → Option Measure
  | 0, measure => some measure
  | left + 1, measure => do
      let k ← addInt measure.k 1
      measureInts left ⟨measure.shapeStringSize + maxIntDigits, k⟩

def measureArgs (shapes : List Int) : Nat → Measure → Option Measure
  | 0, measure => some measure
  | left + 1, measure => do
      let dim ← shapes[measure.k]?
      let measure ← measureInts (rounds dim) measure
      measureArgs shapes left measure

/-- The memory, the number of characters in it, and the position in the shape array. -/
structure Printing where
  current : List Char
  length : Nat
  k : Nat

/-- `length += sprintf (current + length, ...)` -/
def sprintf (printing : Printing) (text : List Char) : Option Printing := do
  let current ← write printing.current printing.length (text ++ [nul])
  let length ← addInt printing.length text.length
  some { printing with current := current, length := length }

def printInts (shapes : List Int) : Nat → Printing → Option Printing
  | 0, printing => some printing
  | left + 1, printing => do
      let value ← shapes[printing.k]?
      let printing ← sprintf printing ('-' :: printedInt value)
      let k ← addInt printing.k 1
      printInts shapes left { printing with k := k }

def printArgs (shapes : List Int) : Nat → Printing → Option Printing
  | 0, printing => some printing
  | left + 1, printing => do
      let dim ← shapes[printing.k]?
      let printing ← printInts shapes (rounds dim) printing
      printArgs shapes left printing

/-- The memory that is returned; none where the code reads or writes outside of an array or an
int overflows. `garbage` is what malloc's memory has in it. -/
def encodeShapes (garbage : Nat → Char) : Option (List Int) → Option (List Char)
  | none => some [nul]
  | some shapes => do
      let numArgs ← shapes[0]?
      let measure ← measureArgs shapes numArgs.toNat ⟨maxIntDigits + 1, 1⟩
      let current := (List.range measure.shapeStringSize).map garbage
      let current ← write current 0 [nul]
      let printing ← sprintf ⟨current, 0, 1⟩ (printedInt numArgs)
      let printing ← printArgs shapes numArgs.toNat printing
      some printing.current

/-- uuid_queue_node_t without the link. -/
structure Request where
  funcName : List Char
  uuid : List Char
  typeInfo : List Char
  shapeInfo : Option (List Int)
  shapeInfoSize : Nat
  shape : List Char
  modName : List Char
  key : List Char
  deriving DecidableEq

/-- SAC_lookup_function: the pointer that is returned and the request that is put into the
queue. The registry and the persistence library are functions of what they are asked. -/
def lookupFunction {Pointer : Type} (registry : List Char → Option Pointer)
    (persistenceGet : (key funcName uuid types shape modName : List Char) → Option Pointer)
    (garbage : Nat → Char) (funcName uuid types : List Char) (shapes : Option (List Int))
    (shapeSize : Nat) (modName : List Char) (funcPtr : Pointer) :
    Option (Pointer × Option Request) :=
  if modName = "_MAIN".toList then some (funcPtr, none)
  else do
    let current ← encodeShapes garbage shapes
    let shape := current.takeWhile (fun c => decide (c ≠ nul))
    let key := uuid ++ types ++ shape
    match registry key with
    | some pointer => some (pointer, none)
    | none =>
        match persistenceGet key funcName uuid types shape modName with
        | some specialization => some (specialization, none)
        | none =>
            some (funcPtr,
              some ⟨funcName, uuid, types, shapes, shapeSize, shape, modName, key⟩)

/-- memcmp is zero on the first `count` ints of two arrays. -/
def sameInts (count : Nat) (array array' : Option (List Int)) : Bool :=
  array.map (List.take count) == array'.map (List.take count)

/-- SAC_UUID_wasProcessed, from the first of the processed requests on. -/
def wasProcessed (node : Request) : List Request → Bool
  | [] => false
  | current :: rest =>
      if current.shapeInfoSize = node.shapeInfoSize
          ∧ sameInts node.shapeInfoSize current.shapeInfo node.shapeInfo = true
          ∧ current.funcName = node.funcName then true
      else wasProcessed node rest

/-- SAC_UUID_addProcessed puts the request in front. -/
def addProcessed (processed : List Request) (node : Request) : List Request := node :: processed

end Model

section Descriptors

/-- The dimension of an argument, and its extents if the dimension is positive. -/
structure Argument where
  dim : Int
  extents : List Int
  fits : extents.length = dim.toNat

def Argument.ints (arg : Argument) : List Int := arg.dim :: arg.extents

/-- A shape descriptor: the number of the arguments and what is known about each. -/
def descriptor (args : List Argument) : List Int :=
  (args.length : Int) :: args.flatMap Argument.ints

/-- An int of the machine. -/
def IsInt (value : Int) : Prop := -2 ^ 31 ≤ value ∧ value < 2 ^ 31

def chunk (value : Int) : List Char := '-' :: printedInt value

/-- The text for a descriptor. -/
def encoding (args : List Argument) : List Char :=
  printedInt args.length ++ (args.flatMap Argument.ints).flatMap chunk

theorem descriptor_injective {args args' : List Argument}
    (same : descriptor args = descriptor args') : args = args' := by
  unfold descriptor at same
  rw [List.cons.injEq, Nat.cast_inj] at same
  obtain ⟨count, ints⟩ := same
  induction args generalizing args' with
  | nil => exact (List.length_eq_zero_iff.mp count.symm).symm
  | cons arg args ih =>
      cases args' with
      | nil => simp at count
      | cons arg' args' =>
          obtain ⟨dim, extents, fits⟩ := arg
          obtain ⟨dim', extents', fits'⟩ := arg'
          simp only [List.flatMap_cons, Argument.ints, List.cons_append, List.cons.injEq] at ints
          obtain ⟨rfl, ints⟩ := ints
          obtain ⟨rfl, others⟩ := List.append_inj ints (fits.trans fits'.symm)
          rw [ih (by simpa using count) others]

end Descriptors

section Texts

open ConstantSerialization (Stops number_read decimal_digits)

theorem decimal_unterminated (n : Nat) : nul ∉ decimal n := by
  intro member
  exact absurd (decimal_digits n nul member) (by decide)

theorem printed_unterminated (value : Int) : nul ∉ printedInt value := by
  unfold printedInt
  split
  · simpa [nul] using decimal_unterminated (-value).toNat
  · exact decimal_unterminated value.toNat

theorem chunks_unterminated (values : List Int) : nul ∉ values.flatMap chunk := by
  intro member
  obtain ⟨value, _, inside⟩ := List.mem_flatMap.mp member
  rcases List.mem_cons.mp inside with dash | printed
  · exact absurd dash (by decide)
  · exact printed_unterminated value printed

theorem decimal_length {n : Nat} (small : n < 10 ^ 10) : (decimal n).length ≤ 10 :=
  (Nat.length_toDigits_le_iff (by decide) (by decide)).mpr small

theorem chunk_length {value : Int} (isInt : IsInt value) : (chunk value).length ≤ maxIntDigits := by
  obtain ⟨low, high⟩ := isInt
  have negative := decimal_length (n := (-value).toNat) (by omega)
  have positive := decimal_length (n := value.toNat) (by omega)
  unfold chunk printedInt maxIntDigits
  split <;> simp only [List.length_cons] <;> omega

theorem decimal_undashed (n : Nat) (text rest : List Char) : decimal n ++ text ≠ '-' :: rest := by
  intro same
  cases digits : decimal n with
  | nil => exact Nat.toDigits_ne_nil digits
  | cons digit others =>
      rw [digits, List.cons_append, List.cons.injEq] at same
      have isDigit := decimal_digits n digit (digits ▸ List.mem_cons_self ..)
      rw [same.1] at isDigit
      exact absurd isDigit (by decide)

/-- A number with what stands behind it can be read back. -/
theorem printed_injective {value value' : Int} {text text' : List Char} (stops : Stops text)
    (stops' : Stops text') (same : printedInt value ++ text = printedInt value' ++ text') :
    value = value' ∧ text = text' := by
  have numbers : ∀ n n' : Nat, decimal n ++ text = decimal n' ++ text' → n = n' ∧ text = text' := by
    intro n n' same
    have read := number_read n stops
    rw [same, number_read n' stops'] at read
    simpa [eq_comm] using read
  unfold printedInt at same
  split at same <;> split at same
  · simp only [List.cons_append, List.cons.injEq, true_and] at same
    obtain ⟨number, rest⟩ := numbers _ _ same
    exact ⟨by omega, rest⟩
  · exact absurd same.symm (decimal_undashed _ _ _)
  · exact absurd same (decimal_undashed _ _ _)
  · obtain ⟨number, rest⟩ := numbers _ _ same
    exact ⟨by omega, rest⟩

theorem chunks_stop (values : List Int) : Stops (values.flatMap chunk) := by
  cases values with
  | nil => simp [Stops]
  | cons value values => simp [Stops, chunk]

theorem chunks_injective {values values' : List Int}
    (same : values.flatMap chunk = values'.flatMap chunk) : values = values' := by
  induction values generalizing values' with
  | nil =>
      cases values' with
      | nil => rfl
      | cons value' values' => simp [chunk] at same
  | cons value values ih =>
      cases values' with
      | nil => simp [chunk] at same
      | cons value' values' =>
          simp only [List.flatMap_cons, chunk, List.cons_append, List.cons.injEq, true_and] at same
          obtain ⟨rfl, rest⟩ := printed_injective (chunks_stop values) (chunks_stop values') same
          rw [ih rest]

theorem printed_long (value : Int) : 1 ≤ (printedInt value).length := by
  have digits : ∀ n, 1 ≤ (decimal n).length := fun n => List.length_pos_iff.mpr Nat.toDigits_ne_nil
  unfold printedInt
  split
  · exact Nat.le_add_left 1 _
  · exact digits _

theorem chunks_long (values : List Int) : values.length ≤ (values.flatMap chunk).length := by
  induction values with
  | nil => exact le_rfl
  | cons value values ih =>
      simp only [List.flatMap_cons, List.length_append, List.length_cons, chunk]
      omega

theorem encoding_injective {args args' : List Argument} (same : encoding args = encoding args') :
    args = args' := by
  obtain ⟨count, ints⟩ := printed_injective (chunks_stop _) (chunks_stop _) same
  apply descriptor_injective
  rw [descriptor, descriptor, count, chunks_injective ints]

end Texts

section Walks

variable {shapes : List Int}

theorem rounds_ints (arg : Argument) : rounds arg.dim = arg.ints.length := by
  rw [Argument.ints, List.length_cons, arg.fits, rounds]
  split <;> omega

theorem add_int {a b : Nat} (fits : a + b < 2 ^ 31) : addInt a b = some (a + b) := if_pos fits

theorem add_int_some {a b c : Nat} (added : addInt a b = some c) : c = a + b ∧ c < 2 ^ 31 := by
  unfold addInt at added
  split at added
  · injection added with isSum
    omega
  · cases added

theorem measure_ints (count : Nat) (measure : Measure) (few : measure.k + count < 2 ^ 31) :
    measureInts count measure =
      some ⟨measure.shapeStringSize + maxIntDigits * count, measure.k + count⟩ := by
  induction count generalizing measure with
  | zero => rfl
  | succ count ih =>
      simp only [measureInts, add_int (by omega : measure.k + 1 < 2 ^ 31), Option.bind_eq_bind,
        Option.bind_some]
      rw [ih _ (by simp only; omega)]
      simp only [Option.some.injEq, Measure.mk.injEq]
      constructor <;> ring

/-- The walk along the dimensions passes all ints of the descriptor. -/
theorem measure_args (args : List Argument) (front : List Int) (size : Nat)
    (split : shapes = front ++ args.flatMap Argument.ints)
    (few : shapes.length < 2 ^ 31) :
    measureArgs shapes args.length ⟨size, front.length⟩ =
      some ⟨size + maxIntDigits * (args.flatMap Argument.ints).length, shapes.length⟩ := by
  induction args generalizing front size with
  | nil => simp [measureArgs, split]
  | cons arg args ih =>
      have here : shapes[front.length]? = some arg.dim := by
        rw [split, List.getElem?_append_right le_rfl]
        simp [Argument.ints]
      have total := congrArg List.length split
      simp only [List.flatMap_cons, List.length_append] at total
      have passed := ih (front ++ arg.ints) (size + maxIntDigits * arg.ints.length)
        (by rw [split, List.flatMap_cons, List.append_assoc])
      simp only [List.length_append] at passed
      simp only [List.length_cons, measureArgs, here, Option.bind_eq_bind, Option.bind_some,
        rounds_ints, measure_ints arg.ints.length ⟨size, front.length⟩ (by simp only; omega), passed]
      simp only [List.flatMap_cons, List.length_append, mul_add, Nat.add_assoc]

/-- One number is printed behind the others. -/
theorem sprintf_holds {printing : Printing} {str text : List Char}
    (holds : Holds nul printing.current str) (length : printing.length = str.length)
    (room : str.length + text.length + 1 ≤ printing.current.length)
    (inside : nul ∉ text) (short : (str ++ text).length < 2 ^ 31) :
    ∃ after, sprintf printing text = some ⟨after, (str ++ text).length, printing.k⟩ ∧
      Holds nul after (str ++ text) ∧ after.length = printing.current.length := by
  obtain ⟨after, written, holds⟩ := holds.append room inside
  refine ⟨after, ?_, holds, write_length written⟩
  rw [List.length_append] at short ⊢
  simp only [sprintf, length, written, add_int short, Option.bind_eq_bind, Option.bind_some]

theorem sprintf_some {printing after : Printing} {text : List Char}
    (printed : sprintf printing text = some after) :
    after.length = printing.length + text.length ∧ after.length < 2 ^ 31 ∧
      after.k = printing.k := by
  simp only [sprintf, Option.bind_eq_bind, Option.bind_eq_some_iff, Option.some.injEq] at printed
  obtain ⟨current, _, length, added, rfl⟩ := printed
  exact ⟨(add_int_some added).1, (add_int_some added).2, rfl⟩

theorem print_ints (values : List Int) (front rest : List Int) (printing : Printing)
    (str : List Char) (split : shapes = front ++ values ++ rest)
    (position : printing.k = front.length) (holds : Holds nul printing.current str)
    (length : printing.length = str.length)
    (room : str.length + maxIntDigits * values.length + 1 ≤ printing.current.length)
    (ints : ∀ value ∈ values, IsInt value)
    (few : front.length + values.length < 2 ^ 31)
    (short : (str ++ values.flatMap chunk).length < 2 ^ 31) :
    ∃ after, printInts shapes values.length printing =
        some ⟨after, (str ++ values.flatMap chunk).length, front.length + values.length⟩ ∧
      Holds nul after (str ++ values.flatMap chunk) := by
  induction values generalizing front printing str with
  | nil =>
      refine ⟨printing.current, ?_, by simpa using holds⟩
      simp [printInts, ← length, ← position]
  | cons value values ih =>
      have here : shapes[printing.k]? = some value := by
        rw [split, position, List.append_assoc, List.getElem?_append_right le_rfl]
        simp
      have narrow := chunk_length (ints value (List.mem_cons_self ..))
      have inside : nul ∉ chunk value := by simpa using chunks_unterminated [value]
      simp only [List.flatMap_cons, List.length_append, List.length_cons, mul_add, mul_one]
        at room few short
      obtain ⟨current, printed, holds, size⟩ := sprintf_holds holds length
        (by omega : str.length + (chunk value).length + 1 ≤ _) inside
        (by rw [List.length_append]; omega)
      obtain ⟨after, later, holds⟩ := ih (front ++ [value]) ⟨current, _, printing.k + 1⟩
        (str ++ chunk value) (by simp [split]) (by simp [position]) holds rfl
        (by simp only [List.length_append, size]; omega)
        (fun other member => ints other (List.mem_cons_of_mem value member))
        (by simp only [List.length_append, List.length_singleton]; omega)
        (by simp only [List.length_append]; omega)
      refine ⟨after, ?_, by simpa using holds⟩
      have next : addInt printing.k 1 = some (printing.k + 1) := add_int (by omega)
      simp only [List.length_cons, printInts, here, Option.bind_eq_bind, Option.bind_some]
      rw [show '-' :: printedInt value = chunk value from rfl, printed]
      simp only [Option.bind_some, next, later]
      simp only [Option.some.injEq, Printing.mk.injEq, List.flatMap_cons, List.length_append,
        List.length_singleton, true_and]
      omega

theorem print_ints_some {values front rest : List Int} {printing after : Printing}
    (split : shapes = front ++ values ++ rest) (position : printing.k = front.length)
    (printed : printInts shapes values.length printing = some after) :
    after.k = front.length + values.length ∧
      after.length = printing.length + (values.flatMap chunk).length ∧
      (printing.length < 2 ^ 31 → after.length < 2 ^ 31) := by
  induction values generalizing front printing with
  | nil =>
      simp only [List.length_nil, printInts, Option.some.injEq] at printed
      subst printed
      simp [position]
  | cons value values ih =>
      have here : shapes[printing.k]? = some value := by
        rw [split, position, List.append_assoc, List.getElem?_append_right le_rfl]
        simp
      simp only [List.length_cons, printInts, here, Option.bind_eq_bind, Option.bind_some,
        Option.bind_eq_some_iff] at printed
      obtain ⟨middle, one, k, next, printed⟩ := printed
      obtain ⟨isSum, below, same⟩ := sprintf_some one
      obtain ⟨moved, sum, bound⟩ := ih (by simp [split] : shapes = (front ++ [value]) ++ values ++ rest)
        (by simp [(add_int_some next).1, same, position]) printed
      simp only [List.length_append, List.length_singleton] at moved
      simp only [List.flatMap_cons, List.length_append, List.length_cons, chunk] at sum isSum ⊢
      exact ⟨by omega, by omega, fun _ => bound below⟩

/-- The walk along the dimensions prints all ints of the descriptor. -/
theorem print_args (args : List Argument) (front : List Int) (printing : Printing)
    (split : shapes = front ++ args.flatMap Argument.ints) (position : printing.k = front.length) :
    printArgs shapes args.length printing =
      printInts shapes (args.flatMap Argument.ints).length printing := by
  induction args generalizing front printing with
  | nil => rfl
  | cons arg args ih =>
      have here : shapes[printing.k]? = some arg.dim := by
        rw [split, position, List.getElem?_append_right le_rfl]
        simp [Argument.ints]
      have passes : ∀ count more printing, printInts shapes (count + more) printing =
          (printInts shapes count printing).bind (printInts shapes more) := by
        intro count more
        induction count with
        | zero => simp [printInts]
        | succ count ih =>
            intro printing
            rw [Nat.succ_add]
            simp only [printInts, Option.bind_eq_bind, ih, Option.bind_assoc]
      simp only [List.length_cons, printArgs, here, Option.bind_eq_bind, Option.bind_some,
        rounds_ints, List.flatMap_cons, List.length_append, passes]
      apply Option.bind_congr
      intro middle printed
      have walked := print_ints_some (by rw [split, List.flatMap_cons, List.append_assoc]) position
        printed
      exact ih (front ++ arg.ints) middle (by rw [split, List.flatMap_cons, List.append_assoc])
        (by rw [walked.1, List.length_append])

end Walks

section Results

/-- A call of SAC_lookup_function with a shape descriptor. -/
structure Call where
  funcName : List Char
  uuid : List Char
  types : List Char
  args : List Argument
  modName : List Char

def Call.key (call : Call) : List Char := call.uuid ++ call.types ++ encoding call.args

/-- The request for what the call asks for. -/
def Call.request (call : Call) : Request where
  funcName := call.funcName
  uuid := call.uuid
  typeInfo := call.types
  shapeInfo := some (descriptor call.args)
  shapeInfoSize := (descriptor call.args).length
  shape := encoding call.args
  modName := call.modName
  key := call.key

/-- The arguments are described in ints, and so is their number. -/
def Described (args : List Argument) : Prop :=
  args.length < 2 ^ 31 ∧ ∀ value ∈ args.flatMap Argument.ints, IsInt value

/-- encodeShapes stays within its memory and fills it with the text of the descriptor. -/
def Encodes (garbage : Nat → Char) (args : List Argument) : Prop :=
  ∃ current, encodeShapes garbage (some (descriptor args)) = some current ∧
    Holds nul current (encoding args)

theorem encoding_unterminated (args : List Argument) : nul ∉ encoding args := by
  intro member
  rcases List.mem_append.mp member with printed | chunks
  · exact printed_unterminated _ printed
  · exact chunks_unterminated _ chunks

theorem print_descriptor (args : List Argument) (current : List Char) (length : Nat) :
    printArgs (descriptor args) args.length ⟨current, length, 1⟩ =
      printInts (descriptor args) (args.flatMap Argument.ints).length ⟨current, length, 1⟩ :=
  print_args args [(args.length : Int)] ⟨current, length, 1⟩ rfl rfl

theorem encoded_short {garbage : Nat → Char} {args : List Argument} {current : List Char}
    (encoded : encodeShapes garbage (some (descriptor args)) = some current) :
    (encoding args).length < 2 ^ 31 := by
  have first : (descriptor args)[0]? = some (args.length : Int) := rfl
  have ended : descriptor args = [(args.length : Int)] ++ args.flatMap Argument.ints ++ [] := by
    rw [List.append_nil]
    rfl
  simp only [encodeShapes, first, Option.bind_eq_bind, Option.bind_some, Int.toNat_natCast,
    Option.bind_eq_some_iff] at encoded
  obtain ⟨_, _, emptied, _, ⟨start, length, k⟩, number, printed, walked, _⟩ := encoded
  obtain ⟨isLength, below, rfl⟩ := sprintf_some number
  rw [print_descriptor] at walked
  obtain ⟨_, sum, bound⟩ := print_ints_some ended rfl walked
  rw [encoding, List.length_append]
  simp only [zero_add] at isLength sum bound below
  have := bound below
  omega

/-- There is room for the text, as long as the counter of its characters does not overflow. -/
theorem encodes_short (garbage : Nat → Char) {args : List Argument} (described : Described args)
    (short : (encoding args).length < 2 ^ 31) : Encodes garbage args := by
  have first : (descriptor args)[0]? = some (args.length : Int) := rfl
  have walk : descriptor args = [(args.length : Int)] ++ args.flatMap Argument.ints := rfl
  have isNumber : IsInt args.length := by
    have := described.1
    constructor <;> omega
  have narrow := chunk_length isNumber
  have wide := chunks_long (args.flatMap Argument.ints)
  have digits := printed_long args.length
  rw [chunk, List.length_cons] at narrow
  have split := short
  rw [encoding, List.length_append] at split
  have few : (descriptor args).length < 2 ^ 31 := by
    rw [walk, List.length_append, List.length_singleton]
    omega
  have measured := measure_args args [(args.length : Int)] (maxIntDigits + 1) walk few
  rw [List.length_singleton] at measured
  have allocated : ((List.range (maxIntDigits + 1 + maxIntDigits *
      (args.flatMap Argument.ints).length)).map garbage).length =
        maxIntDigits + 1 + maxIntDigits * (args.flatMap Argument.ints).length := by simp
  obtain ⟨emptied, terminated, holds⟩ := holds_empty (by rw [allocated]; omega)
  have size := (write_length terminated).trans allocated
  have blank : Holds nul (Printing.mk emptied 0 1).current [] := holds
  obtain ⟨start, number, holds, kept⟩ := sprintf_holds blank rfl
    (by simp only [size, List.length_nil]; omega) (printed_unterminated args.length)
    (by rw [List.nil_append]; omega)
  rw [List.nil_append] at number holds
  have ended : descriptor args = [(args.length : Int)] ++ args.flatMap Argument.ints ++ [] := by
    rw [walk, List.append_nil]
  obtain ⟨after, walked, holds⟩ := print_ints (args.flatMap Argument.ints) [(args.length : Int)] []
    ⟨start, _, 1⟩ (printedInt args.length) ended rfl holds rfl
    (by simp only [kept, size]; omega) described.2 (by rw [List.length_singleton]; omega) short
  refine ⟨after, ?_, holds⟩
  simp only [encodeShapes, first, Option.bind_eq_bind, Option.bind_some, Int.toNat_natCast]
  rw [measured, Option.bind_some, terminated, Option.bind_some, number, Option.bind_some,
    print_descriptor, walked]
  rfl

/-- If there is no specialisation yet, the call puts its request into the queue. -/
theorem lookup_enqueues {Pointer : Type} {registry : List Char → Option Pointer}
    {persistenceGet : (key funcName uuid types shape modName : List Char) → Option Pointer}
    {garbage : Nat → Char} {call : Call} (funcPtr : Pointer)
    (library : call.modName ≠ "_MAIN".toList) (encodes : Encodes garbage call.args)
    (unregistered : registry call.key = none)
    (unstored : persistenceGet call.key call.funcName call.uuid call.types (encoding call.args)
      call.modName = none) :
    lookupFunction registry persistenceGet garbage call.funcName call.uuid call.types
      (some (descriptor call.args)) (descriptor call.args).length call.modName funcPtr =
        some (funcPtr, some call.request) := by
  obtain ⟨current, encoded, holds⟩ := encodes
  rw [Call.key] at unregistered unstored
  simp only [lookupFunction, if_neg library, encoded, holds.read, Option.bind_eq_bind,
    Option.bind_some, unregistered, unstored]
  rfl

/-- The list of the processed requests after some were added, one after another. -/
def processedAfter (added : List Request) : List Request := added.foldl addProcessed []

theorem mem_processed_after (added : List Request) (node : Request) :
    node ∈ processedAfter added ↔ node ∈ added := by
  have grows : ∀ processed, node ∈ added.foldl addProcessed processed ↔
      node ∈ processed ∨ node ∈ added := by
    induction added with
    | nil => simp
    | cons first added ih =>
        intro processed
        rw [List.foldl_cons, ih, addProcessed, List.mem_cons, List.mem_cons, or_assoc, or_left_comm]
  simp [processedAfter, grows]

/-- Two requests agree if they are for the same name and the same shapes. -/
theorem was_processed_iff (calls : List Call) (call : Call) (processed : List Request)
    (built : ∀ request, request ∈ processed ↔ request ∈ calls.map Call.request) :
    wasProcessed call.request processed = true ↔
      ∃ other ∈ calls, other.funcName = call.funcName ∧ other.args = call.args := by
  have scanned : wasProcessed call.request processed = true ↔ ∃ current ∈ processed,
      current.shapeInfoSize = call.request.shapeInfoSize ∧
        sameInts call.request.shapeInfoSize current.shapeInfo call.request.shapeInfo = true ∧
        current.funcName = call.request.funcName := by
    clear built
    induction processed with
    | nil => simp [wasProcessed]
    | cons current rest ih =>
        simp only [wasProcessed, List.exists_mem_cons_iff]
        split
        · rename_i agrees
          exact iff_of_true rfl (Or.inl agrees)
        · rename_i differs
          rw [ih]
          exact (or_iff_right differs).symm
  have agrees : ∀ other : Call, (other.request.shapeInfoSize = call.request.shapeInfoSize ∧
      sameInts call.request.shapeInfoSize other.request.shapeInfo call.request.shapeInfo = true ∧
        other.request.funcName = call.request.funcName) ↔
      other.funcName = call.funcName ∧ other.args = call.args := by
    intro other
    simp only [Call.request, sameInts, Option.map_some, List.take_length, beq_iff_eq,
      Option.some.injEq]
    constructor
    · rintro ⟨size, ints, name⟩
      rw [← size, List.take_length] at ints
      exact ⟨name, descriptor_injective ints⟩
    · rintro ⟨name, args⟩
      rw [args]
      exact ⟨rfl, List.take_length .., name⟩
  rw [scanned]
  constructor
  · rintro ⟨current, member, same⟩
    obtain ⟨other, inside, rfl⟩ := List.mem_map.mp ((built current).mp member)
    exact ⟨other, inside, (agrees other).mp same⟩
  · rintro ⟨other, inside, same⟩
    exact ⟨other.request, (built _).mpr (List.mem_map_of_mem inside), (agrees other).mpr same⟩

/-- Shapes are encoded within the memory and without loss, and a request is taken for processed
only if one with its key was. -/
structure Identified (garbage : Nat → Char) (added : List Call) (call : Call) : Prop where
  encodes : Encodes garbage call.args
  injective : ∀ garbage' args' current current' text,
    encodeShapes garbage (some (descriptor call.args)) = some current → Holds nul current text →
    encodeShapes garbage' (some (descriptor args')) = some current' → Holds nul current' text →
    Described args' → args' = call.args
  processed : wasProcessed call.request (processedAfter (added.map Call.request)) = true →
    ∃ other ∈ added, other.request.key = call.request.key

/-- The name and the shapes identify a request only if none was added before with these and
another key, unless one with the same key was added too. -/
theorem identified_iff (garbage : Nat → Char) (added : List Call) (call : Call)
    (described : Described call.args) :
    Identified garbage added call ↔
      (encoding call.args).length < 2 ^ 31 ∧
        ((∀ other ∈ added, ¬ (other.funcName = call.funcName ∧ other.args = call.args)) ∨
          ∃ other ∈ added, other.key = call.key) := by
  have found := was_processed_iff added call (processedAfter (added.map Call.request))
    (mem_processed_after (added.map Call.request))
  constructor
  · rintro ⟨encodes, _, processed⟩
    obtain ⟨current, encoded, _⟩ := encodes
    refine ⟨encoded_short encoded, ?_⟩
    by_cases agrees : ∃ other ∈ added, other.funcName = call.funcName ∧ other.args = call.args
    · exact Or.inr (processed (found.mpr agrees))
    · refine Or.inl fun other inside same => agrees ⟨other, inside, same⟩
  · rintro ⟨short, condition⟩
    have printed : ∀ garbage args current text, Described args →
        encodeShapes garbage (some (descriptor args)) = some current → Holds nul current text →
        text = encoding args := by
      intro garbage args current text described encoded holds
      obtain ⟨filled, same, encoding⟩ := encodes_short garbage described (encoded_short encoded)
      obtain rfl : current = filled := Option.some.inj (encoded.symm.trans same)
      exact holds.unique encoding
    refine ⟨encodes_short garbage described short, ?_, ?_⟩
    · intro garbage' args' current current' text encoded holds encoded' holds' described'
      apply encoding_injective
      rw [← printed garbage' args' current' text described' encoded' holds',
        printed garbage call.args current text described encoded holds]
    · intro processed
      obtain ⟨other, inside, same⟩ := found.mp processed
      rcases condition with none | known
      · exact absurd same (none other inside)
      · exact known

def scalar : Argument := ⟨0, [], rfl⟩

def matrix : Argument := ⟨2, [3, -1], rfl⟩

def call (uuid types : String) (args : List Argument) : Call :=
  ⟨"f".toList, uuid.toList, types.toList, args, "A".toList⟩

/-- One function with two kinds of arguments. -/
theorem identified_iff_matrix :
    Identified (fun _ => 'x') [call "u" "int" [scalar]] (call "u" "int" [scalar, matrix]) ↔
      (encoding [scalar, matrix]).length < 2 ^ 31 ∧
        ((∀ other ∈ [call "u" "int" [scalar]],
          ¬ (other.funcName = "f".toList ∧ other.args = [scalar, matrix])) ∨
          ∃ other ∈ [call "u" "int" [scalar]],
            other.key = (call "u" "int" [scalar, matrix]).key) := by
  have described : Described [scalar, matrix] :=
    ⟨by decide, by simp [scalar, matrix, Argument.ints, IsInt]⟩
  exact identified_iff (fun _ => 'x') [call "u" "int" [scalar]] (call "u" "int" [scalar, matrix])
    described

/-- A request for other types is suppressed. -/
theorem request_suppressed :
    ¬ Identified (fun _ => 'x') [call "u" "int" [scalar]] (call "u" "double" [scalar]) := by
  intro identified
  have found : wasProcessed (call "u" "double" [scalar]).request
      (processedAfter ([call "u" "int" [scalar]].map Call.request)) = true := by decide
  obtain ⟨other, inside, same⟩ := identified.processed found
  rw [List.mem_singleton] at inside
  subst inside
  exact absurd same (by decide)

end Results

end Sac2c.SpecialisationRequests
