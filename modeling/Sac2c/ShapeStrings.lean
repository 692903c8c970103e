import Mathlib.Data.List.Basic
import Sac2c.NewTypes

/-!
SHshape2String of constants/shape.c, and ArrayType2String of typecheck/new_types.c, which prints
the shapes of array types with it. Both print into a string buffer that they flush at their end,
so that a call starts with an empty one: the buffer is the text printed so far. One character
is printed for each dot, so that the running counter stays within a size_t.
-/

namespace Sac2c.ShapeStrings

open NewTypes

section Model

/-- An int as "%d" prints it. -/
def decimal : Int → List Char
  | .ofNat n => Nat.toDigits 10 n
  | .negSucc n => '-' :: Nat.toDigits 10 (n + 1)

/-- The loop over the dots, and where it leaves `i`. -/
def printDots : Nat → Nat → List Char → Nat × List Char
  | 0, i, buf => (i, buf)
  | left + 1, i, buf => printDots left (i + 1) (buf ++ if i = 0 then ['.'] else [',', '.'])

/-- The loop over the extents, of which `left` are still to come. It counts them by `j` but
indexes the shape by `i`; none if an element outside the shape is read. -/
def printExtents (shp : List Int) : Nat → Nat → List Char → Option (List Char)
  | 0, _, buf => some buf
  | left + 1, i, buf => do
      let ext ← shp[i]?
      printExtents shp left (i + 1) (buf ++ if i = 0 then decimal ext else ',' :: decimal ext)

/-- SHshape2String. -/
def shape2String (dots : Nat) (shp : List Int) : Option (List Char) := do
  let (i, buf) := printDots dots 0 ['[']
  let buf ← printExtents shp shp.length i buf
  some (buf ++ [']'])

/-- ArrayType2String. The texts of the scalar type and of the data of a constant come from
TYScalarType2String and COconstantData2String. -/
def arrayType2String {Val : Type} (scalarType2String : ScalarType → List Char)
    (constantData2String : Constant Val → List Char) (unique : Bool) (type : ArrayType Val) :
    Option (List Char) :=
  let buf := scalarType2String type.getScalar ++ if unique then ['!'] else []
  match type with
  | .akv _ const => do
      let shape ← (if 0 < const.shape.length then shape2String 0 (const.shape.map Int.ofNat)
        else some [])
      some (buf ++ shape ++ '{' :: (constantData2String const ++ ['}']))
  | .aks _ shape => do
      let shape ← (if 0 < shape.length then shape2String 0 (shape.map Int.ofNat) else some [])
      some (buf ++ shape)
  | .akd _ dots shape _ => do
      let shape ← shape2String dots (shape.map Int.ofNat)
      some (buf ++ shape)
  | .audgz _ => some (buf ++ ['[', '+', ']'])
  | .aud _ => some (buf ++ ['[', '*', ']'])

end Model

section Meaning

/-- The text of a shape: the dots and then the extents, separated by commas. -/
def shapeText (dots : Nat) (shp : List Int) : List Char :=
  '[' :: ([','].intercalate (List.replicate dots ['.'] ++ shp.map decimal) ++ [']'])

/-- The text behind the scalar type and the uniqueness of an array type. -/
def suffixText {Val : Type} (constantData2String : Constant Val → List Char) :
    ArrayType Val → List Char
  | .akv _ const =>
      (if const.shape = [] then [] else shapeText 0 (const.shape.map Int.ofNat)) ++
        '{' :: (constantData2String const ++ ['}'])
  | .aks _ shape => if shape = [] then [] else shapeText 0 (shape.map Int.ofNat)
  | .akd _ dots shape _ => shapeText dots (shape.map Int.ofNat)
  | .audgz _ => ['[', '+', ']']
  | .aud _ => ['[', '*', ']']

/-- What both loops print of a list of items, the first of them with number `i`: a comma before
every item but the very first. -/
def listing (i : Nat) : List (List Char) → List Char
  | [] => []
  | item :: items => (if i = 0 then item else ',' :: item) ++ listing (i + 1) items

end Meaning

section Loops

theorem listing_append (i : Nat) (first second : List (List Char)) :
    listing i (first ++ second) = listing i first ++ listing (i + first.length) second := by
  induction first generalizing i with
  | nil => rfl
  | cons item items ih =>
      have later : i + 1 + items.length = i + (item :: items).length := by
        simp only [List.length_cons]
        omega
      simp only [List.cons_append, listing, ih, later, List.append_assoc]

theorem listing_later (i : Nat) (items : List (List Char)) :
    listing (i + 1) items = items.flatMap (',' :: ·) := by
  induction items generalizing i with
  | nil => rfl
  | cons item items ih => simp [listing, ih]

theorem listing_intercalate (items : List (List Char)) :
    listing 0 items = [','].intercalate items := by
  cases items with
  | nil => rfl
  | cons item items =>
      simp only [listing, if_true, listing_later]
      induction items generalizing item with
      | nil => simp [List.intercalate]
      | cons next items ih =>
          have rest := ih next
          simp only [List.intercalate, List.intersperse, List.flatMap_cons, List.flatten_cons]
            at rest ⊢
          rw [← rest]
          simp

theorem print_dots (left i : Nat) (buf : List Char) :
    printDots left i buf = (i + left, buf ++ listing i (List.replicate left ['.'])) := by
  induction left generalizing i buf with
  | zero => simp [printDots, listing]
  | succ left ih =>
      simp only [printDots, ih, List.replicate_succ, listing, Prod.mk.injEq]
      refine ⟨by omega, ?_⟩
      by_cases first : i = 0 <;> simp [first]

/-- The loop prints the extents from `i` on, if there are as many as it asks for. -/
theorem print_extents (shp : List Int) (left i : Nat) (buf : List Char)
    (room : i + left ≤ shp.length) :
    printExtents shp left i buf =
      some (buf ++ listing i (((shp.drop i).take left).map decimal)) := by
  induction left generalizing i buf with
  | zero => simp [printExtents, listing]
  | succ left ih =>
      have inside : i < shp.length := by omega
      have rest := ih (i + 1) (buf ++ if i = 0 then decimal shp[i] else ',' :: decimal shp[i])
        (by omega)
      rw [List.drop_eq_getElem_cons inside]
      simp only [printExtents, List.getElem?_eq_getElem inside, Option.bind_eq_bind,
        Option.bind_some, rest, List.take_succ_cons, List.map_cons, listing, List.append_assoc]

/-- The last extent that is asked for decides whether the loop stays in the shape. -/
theorem print_extents_outside (shp : List Int) (left i : Nat) (buf : List Char)
    (outside : shp.length < i + left) (some_ : 0 < left) : printExtents shp left i buf = none := by
  induction left generalizing i buf with
  | zero => omega
  | succ left ih =>
      by_cases inside : i < shp.length
      · simp only [printExtents, List.getElem?_eq_getElem inside, Option.bind_eq_bind,
          Option.bind_some]
        exact ih (i + 1) _ (by omega) (by omega)
      · simp [printExtents, inside]

end Loops

section Requests

theorem shape_unread {dots : Nat} {shp : List Int} (some_ : 0 < dots) (extents : shp ≠ []) :
    shape2String dots shp = none := by
  have nonempty : 0 < shp.length := List.length_pos_iff.mpr extents
  -- `i` is the number of dots when the second loop starts
  simp only [shape2String, print_dots, Nat.zero_add]
  rw [print_extents_outside shp shp.length dots _ (by omega) nonempty]
  rfl

theorem shape_text {dots : Nat} {shp : List Int} (plain : dots = 0 ∨ shp = []) :
    shape2String dots shp = some (shapeText dots shp) := by
  simp only [shape2String, print_dots, Nat.zero_add, shapeText, ← listing_intercalate,
    listing_append, List.length_replicate]
  rcases plain with rfl | rfl
  · rw [print_extents shp shp.length 0 _ (by omega)]
    simp [listing]
  · simp [printExtents, listing]

/-- A shape is printed as it should be if it comes without dots or without extents. -/
theorem shape_printed_iff (dots : Nat) (shp : List Int) :
    shape2String dots shp = some (shapeText dots shp) ↔ dots = 0 ∨ shp = [] := by
  constructor
  · intro printed
    by_contra mixed
    rw [shape_unread (by omega) (by simp_all)] at printed
    cases printed
  · exact shape_text

/-- The shape of the comment of SHshape2String. -/
theorem comment_shape_unread :
    shape2String 2 [2, 3, 4] ≠ some (shapeText 2 [2, 3, 4]) := by
  decide

theorem optional_shape (shape : List Nat) :
    (if 0 < shape.length then shape2String 0 (shape.map Int.ofNat) else some []) =
      some (if shape = [] then [] else shapeText 0 (shape.map Int.ofNat)) := by
  cases shape with
  | nil => rfl
  | cons ext shape => simpa using shape_text (.inl rfl)

/-- Of the array types only those with dots and inner extents are not printed. -/
theorem array_type_printed_iff {Val : Type} (scalarType2String : ScalarType → List Char)
    (constantData2String : Constant Val → List Char) (unique : Bool) (type : ArrayType Val) :
    arrayType2String scalarType2String constantData2String unique type =
        some (scalarType2String type.getScalar ++ (if unique then ['!'] else []) ++
          suffixText constantData2String type) ↔
      ∀ base dots shape some_, type = .akd base dots shape some_ → shape = [] := by
  cases type with
  | akv base const =>
      simp only [arrayType2String, optional_shape, suffixText, Option.bind_eq_bind,
        Option.bind_some, List.append_assoc, reduceCtorEq, false_implies, implies_true]
  | aks base shape =>
      simp only [arrayType2String, optional_shape, suffixText, Option.bind_eq_bind,
        Option.bind_some, reduceCtorEq, false_implies, implies_true]
  | akd base dots shape some_ =>
      simp only [arrayType2String, suffixText, ArrayType.akd.injEq]
      constructor
      · rintro printed _ _ _ _ ⟨rfl, rfl, rfl⟩
        by_contra extents
        rw [shape_unread (by omega) (by simpa using extents)] at printed
        cases printed
      · intro inner
        have empty : shape = [] := inner base dots shape some_ ⟨rfl, rfl, rfl⟩
        subst empty
        simp only [List.map_nil, shape_text (.inr rfl), Option.bind_eq_bind, Option.bind_some]
  | audgz base => simp [arrayType2String, suffixText]
  | aud base => simp [arrayType2String, suffixText]

end Requests

end Sac2c.ShapeStrings
