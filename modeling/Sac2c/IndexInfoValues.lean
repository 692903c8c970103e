import Mathlib.Data.List.GetD
import Sac2c.IndexInfos

/-!
The index infos of a with-loop body have the values of their variables, as long as the compiler gets
through: it stops exactly at a function of a constant and a vector with a constant component, which
it tries to fold with the vector variant of the function.
-/

namespace Sac2c.IndexInfos

open LinearTransformations (Prf)

section Lists

variable {α β : Type} {f : α → Option β}

/-- An optional map over a list has a value when each element has one. -/
theorem mapM_isSome_iff (l : List α) : (l.mapM f).isSome ↔ ∀ x ∈ l, (f x).isSome := by
  induction l with
  | nil => simp
  | cons x l ih =>
      rw [List.mapM_cons]
      cases head : f x with
      | none => simp [head]
      | some y =>
          cases tail : l.mapM f with
          | none => simpa [head, tail] using ih
          | some ys => simpa [head, tail] using ih

theorem mapM_get {l : List α} {r : List β} (mapped : l.mapM f = some r) :
    r.length = l.length ∧
      ∀ (i : Nat) y, r[i]? = some y → ∃ x, l[i]? = some x ∧ f x = some y := by
  induction l generalizing r with
  | nil =>
      cases mapped
      simp
  | cons x l ih =>
      rw [List.mapM_cons] at mapped
      obtain ⟨y, head, rest⟩ := Option.bind_eq_some_iff.mp mapped
      obtain ⟨ys, tail, done⟩ := Option.bind_eq_some_iff.mp rest
      cases done
      obtain ⟨length, elements⟩ := ih tail
      refine ⟨by simp [length], fun i z found => ?_⟩
      cases i with
      | zero =>
          cases found
          exact ⟨x, rfl, head⟩
      | succ i => exact elements i z found

end Lists

section Chains

variable {arith : Prf → Int → Int → Int} {locals : List Assigned} {iv : Nat → Int}

/-- The value that an entry applies its function to: an index or the value of the info it
continues. -/
def Starts (arith : Prf → Int → Int → Int) (locals : List Assigned) (iv : Nat → Int)
    (entry : Entry) (i : Nat) (val : Int) : Prop :=
  (entry.last = none ∧ ∃ dim, entry.permutation = dim + 1 ∧ val = iv dim) ∨
    ∃ assign defined prev, entry.last = some assign ∧ entry.permutation ≠ 0 ∧
      locals[assign]? = some defined ∧ defined.index = some prev ∧
        Evaluates arith locals iv prev i val

theorem Starts.evaluates {info : IndexInfo} {entry : Entry} {i : Nat} {old val : Int}
    (found : info.entry i = some entry) (starts : Starts arith locals iv entry i old)
    (applied : info.apply arith entry old = some val) : Evaluates arith locals iv info i val := by
  rcases starts with ⟨noLast, dim, permutation, rfl⟩ | ⟨assign, defined, prev, last, nonzero,
    here, index, chain⟩
  · exact .base found permutation noLast applied
  · exact .last found nonzero last here index chain applied

theorem Starts.nonzero {entry : Entry} {i : Nat} {val : Int}
    (starts : Starts arith locals iv entry i val) : entry.permutation ≠ 0 := by
  rcases starts with ⟨_, dim, permutation, _⟩ | ⟨_, _, _, _, nonzero, _⟩
  · omega
  · exact nonzero

/-- Later assignments leave the chains of earlier ones alone. -/
theorem Evaluates.append {info : IndexInfo} {i : Nat} {val : Int}
    (chain : Evaluates arith locals iv info i val) (more : List Assigned) :
    Evaluates arith (locals ++ more) iv info i val := by
  induction chain with
  | const found zero stored => exact .const found zero stored
  | base found nonzero noLast applied => exact .base found nonzero noLast applied
  | last found nonzero last here index _ applied ih =>
      refine .last found nonzero last ?_ index ih applied
      rw [List.getElem?_append_left (List.getElem?_eq_some_iff.mp here).1]
      exact here

/-- A component without an index evaluates to the constant stored in it. -/
theorem Evaluates.constant {info : IndexInfo} {i : Nat} {val : Int} {entry : Entry}
    (chain : Evaluates arith locals iv info i val) (found : info.entry i = some entry)
    (zero : entry.permutation = 0) : entry.constArg = some val := by
  cases chain with
  | const found' _ stored =>
      cases found.symm.trans found'
      exact stored
  | base found' nonzero =>
      cases found.symm.trans found'
      omega
  | last found' nonzero =>
      cases found.symm.trans found'
      exact absurd zero nonzero

end Chains

section Invariant

def Const.shape : Const → Shape
  | .scalar _ => .scalar
  | .vector elems => .vector elems.length

/-- The components of a value are those of a constant. -/
def Const.Agrees (v : Components) : Const → Prop
  | .scalar val => ∀ i, v i = val
  | .vector elems => ∀ (i : Nat) (inside : i < elems.length), v i = elems[i]

theorem Const.Agrees.component {v : Components} {c : Const} (agrees : c.Agrees v) {i : Nat}
    (inside : i < c.shape.extent ∨ c.shape = .scalar) : c.component i = v i := by
  cases c with
  | scalar val => exact (agrees i).symm
  | vector elems =>
      rcases inside with inside | scalar
      · rw [agrees i inside]
        exact List.getD_eq_getElem elems 0 inside
      · cases scalar

/-- The record of an info fits the shape of its variable; scalars always go back to an index. -/
def InfoShape (info : IndexInfo) : Shape → Prop
  | .scalar => info.vector = 0 ∧ ∃ entry, info.entries = [entry] ∧ entry.permutation ≠ 0
  | .vector extent => info.vector = extent ∧ info.entries.length = extent

/-- The chains of an info have the components of a value. -/
def InfoDenotes (arith : Prf → Int → Int → Int) (locals : List Assigned) (iv : Nat → Int)
    (info : IndexInfo) (v : Components) : Shape → Prop
  | .scalar => ∀ i, Evaluates arith locals iv info i (v 0)
  | .vector extent => ∀ i, i < extent → Evaluates arith locals iv info i (v i)

/-- What is recorded about the variables is right for every index vector. -/
structure Sound (arith : Prf → Int → Int → Int) (locals : List Assigned)
    (vals : (Nat → Int) → List Components) : Prop where
  length : ∀ iv, (vals iv).length = locals.length
  int : ∀ (n : Nat) a c, locals[n]? = some a → a.int = some c →
    ∀ iv v, (vals iv)[n]? = some v → ∀ i, v i = c
  akv : ∀ (n : Nat) a c, locals[n]? = some a → a.akv = some c →
    c.shape = a.shape ∧ ∀ iv v, (vals iv)[n]? = some v → c.Agrees v
  index : ∀ (n : Nat) a info, locals[n]? = some a → a.index = some info →
    InfoShape info a.shape ∧ ∀ iv v, (vals iv)[n]? = some v →
      InfoDenotes arith locals iv info v a.shape

variable {arith : Prf → Int → Int → Int} {rank : Nat} {locals : List Assigned}
variable {vals : (Nat → Int) → List Components}

theorem InfoShape.entry_of_vector {info : IndexInfo} {extent i : Nat}
    (fits : InfoShape info (.vector extent)) (inside : i < extent) :
    info.entry i = info.entries[i]? ∧ i < info.entries.length := by
  obtain ⟨vector, length⟩ := fits
  have positive : info.vector ≠ 0 := by omega
  exact ⟨by simp [IndexInfo.entry, positive], by omega⟩

theorem Sound.val_of_get (sound : Sound arith locals vals) {n : Nat} {a : Assigned}
    (found : locals[n]? = some a) (iv : Nat → Int) :
    (vals iv)[n]? = some (evalVar iv (vals iv) (.assigned n)) := by
  have inside : n < (vals iv).length := by
    rw [sound.length]
    exact (List.getElem?_eq_some_iff.mp found).1
  rw [List.getElem?_eq_getElem inside, evalVar, List.getD_eq_getElem _ _ inside]

theorem int_var_eq (sound : Sound arith locals vals) {x : Var} {c : Int}
    (found : intVar locals x = some c) (iv : Nat → Int) (i : Nat) :
    evalVar iv (vals iv) x i = c := by
  cases x with
  | vec => cases found
  | index dim => cases found
  | assigned n =>
      obtain ⟨a, here, int⟩ := Option.bind_eq_some_iff.mp found
      exact sound.int n a c here int iv _ (sound.val_of_get here iv) i

theorem int_elem_eq (sound : Sound arith locals vals) {elem : Elem} {c : Int}
    (found : intElem locals elem = some c) (iv : Nat → Int) :
    evalElem iv (vals iv) elem = c := by
  cases elem with
  | num val =>
      cases found
      rfl
  | id x => exact int_var_eq sound found iv 0

theorem int_arg_eq (sound : Sound arith locals vals) {a : Arg} {c : Int}
    (found : intArg locals a = some c) (iv : Nat → Int) (i : Nat) :
    evalArg iv (vals iv) a i = c := by
  cases a with
  | num val =>
      cases found
      rfl
  | id x => exact int_var_eq sound found iv i
  | array elems => cases found

theorem const_elem_eq (sound : Sound arith locals vals) {elem : Elem} {c : Int}
    (found : constElem locals elem = some c) (iv : Nat → Int) :
    evalElem iv (vals iv) elem = c := by
  cases elem with
  | num val =>
      cases found
      rfl
  | id x =>
      cases x with
      | vec => cases found
      | index dim => cases found
      | assigned n =>
          simp only [constElem] at found
          split at found
          · rename_i val akv
            cases found
            obtain ⟨a, here, akv⟩ := Option.bind_eq_some_iff.mp akv
            exact (sound.akv n a _ here akv).2 iv _ (sound.val_of_get here iv) 0
          · cases found

/-- The constant of an argument has its shape and its components. -/
theorem const_arg_agrees (sound : Sound arith locals vals) {a : Arg} {c : Const}
    (found : constArg locals a = some c) {shape : Shape}
    (shaped : argShape rank (locals.map Assigned.shape) a = some shape) :
    c.shape = shape ∧ ∀ iv, c.Agrees (evalArg iv (vals iv) a) := by
  cases a with
  | num val =>
      cases found
      cases shaped
      exact ⟨rfl, fun _ _ => rfl⟩
  | id x =>
      cases x with
      | vec => cases found
      | index dim => cases found
      | assigned n =>
          obtain ⟨a, here, akv⟩ := Option.bind_eq_some_iff.mp found
          obtain ⟨same, agrees⟩ := sound.akv n a c here akv
          simp only [argShape, varShape, List.getElem?_map, here, Option.map_some,
            Option.some.injEq] at shaped
          exact ⟨same.trans shaped, fun iv => agrees iv _ (sound.val_of_get here iv)⟩
  | array elems =>
      obtain ⟨cs, mapped, rfl⟩ := Option.map_eq_some_iff.mp found
      obtain ⟨length, elements⟩ := mapM_get mapped
      simp only [argShape] at shaped
      split at shaped
      · cases shaped
        refine ⟨congrArg Shape.vector length, fun iv i inside => ?_⟩
        obtain ⟨elem, here, const⟩ := elements i cs[i] (List.getElem?_eq_getElem inside)
        simp only [evalArg, here, Option.map_some, Option.getD_some]
        exact const_elem_eq sound const iv
      · cases shaped

theorem fold_const_agrees (arith : Prf → Int → Int → Int) (op : Prf) {c d : Const}
    {v w : Components} (first : c.Agrees v)
    (second : d.Agrees w) {shape : Shape} (shaped : prfShape c.shape d.shape = some shape) :
    (foldConst arith op c d).shape = shape ∧
      (foldConst arith op c d).Agrees fun i => arith op (v i) (w i) := by
  cases c with
  | scalar a =>
      cases d with
      | scalar b =>
          cases shaped
          refine ⟨rfl, fun i => ?_⟩
          change arith op (v i) (w i) = arith op a b
          rw [first i, second i]
      | vector bs =>
          cases shaped
          refine ⟨by simp [foldConst, Const.shape], fun i inside => ?_⟩
          simp only [List.length_map] at inside
          change arith op (v i) (w i) = (bs.map (arith op a))[i]
          rw [first i, second i inside, List.getElem_map]
  | vector as =>
      cases d with
      | scalar b =>
          cases shaped
          refine ⟨by simp [foldConst, Const.shape], fun i inside => ?_⟩
          simp only [List.length_map] at inside
          change arith op (v i) (w i) = (as.map fun a => arith op a b)[i]
          rw [first i inside, second i, List.getElem_map]
      | vector bs =>
          simp only [Const.shape, prfShape] at shaped
          split at shaped
          · rename_i same
            cases shaped
            refine ⟨by simp [foldConst, Const.shape, same], fun i inside => ?_⟩
            simp only [List.length_zipWith, Nat.lt_min] at inside
            change arith op (v i) (w i) = (List.zipWith (arith op) as bs)[i]
            rw [first i inside.1, second i inside.2, List.getElem_zipWith]
          · cases shaped

end Invariant

section Builders

variable {arith : Prf → Int → Int → Int} {rank : Nat} {locals : List Assigned}
variable {vals : (Nat → Int) → List Components}

theorem valid_local_id_some {x : Var} {n : Nat} {info : IndexInfo}
    (found : validLocalId locals x = some (n, info)) :
    x = .assigned n ∧ ∃ a, locals[n]? = some a ∧ a.index = some info := by
  cases x with
  | vec => cases found
  | index dim => cases found
  | assigned m =>
      obtain ⟨_, index, pair⟩ := Option.map_eq_some_iff.mp found
      cases pair
      obtain ⟨a, here, index⟩ := Option.bind_eq_some_iff.mp index
      exact ⟨rfl, a, here, index⟩

theorem shape_of_assigned {n : Nat} {a : Assigned} {shape : Shape} (here : locals[n]? = some a)
    (shaped : varShape rank (locals.map Assigned.shape) (.assigned n) = some shape) :
    a.shape = shape := by
  simpa [varShape, here] using shaped

/-- A scalar variable with an info: its only entry starts at its value. -/
theorem scalar_starts (sound : Sound arith locals vals) {x : Var} {n : Nat} {info : IndexInfo}
    (found : validLocalId locals x = some (n, info))
    (shaped : varShape rank (locals.map Assigned.shape) x = some .scalar) :
    info.vector = 0 ∧ ∃ entry, info.entries = [entry] ∧
      ∀ iv i (cval : Option Int), Starts arith locals iv ⟨entry.permutation, some n, cval⟩ i
        (evalVar iv (vals iv) x 0) := by
  obtain ⟨rfl, a, here, index⟩ := valid_local_id_some found
  obtain ⟨fits, denotes⟩ := sound.index n a info here index
  rw [shape_of_assigned here shaped] at fits denotes
  obtain ⟨vector, entry, entries, nonzero⟩ := fits
  refine ⟨vector, entry, entries, fun iv i cval => ?_⟩
  exact Or.inr ⟨n, a, info, rfl, nonzero, here, index,
    denotes iv _ (sound.val_of_get here iv) i⟩

/-- An element is a constant, held by the entry, or the entry starts at its value. -/
theorem scalar_entry_spec (sound : Sound arith locals vals) {elem : Elem} {entry : Entry}
    (made : scalarEntry locals elem = some entry)
    (shaped : elemShape rank (locals.map Assigned.shape) elem = some .scalar) :
    (entry.permutation = 0 ∧
        ∀ iv, entry.constArg = some (evalElem iv (vals iv) elem)) ∨
      ∀ iv i (cval : Option Int), Starts arith locals iv { entry with constArg := cval } i
        (evalElem iv (vals iv) elem) := by
  have constant : ∀ {e : Elem}, (intElem locals e).map
      (fun val => (⟨0, none, some val⟩ : Entry)) = some entry →
      entry.permutation = 0 ∧ ∀ iv, entry.constArg = some (evalElem iv (vals iv) e) := by
    intro e mapped
    obtain ⟨val, found, rfl⟩ := Option.map_eq_some_iff.mp mapped
    exact ⟨rfl, fun iv => congrArg some (int_elem_eq sound found iv).symm⟩
  cases elem with
  | num val => exact Or.inl (constant made)
  | id x =>
      simp only [scalarEntry] at made
      split at made
      · rename_i assign first rest _ _ found
        cases made
        obtain ⟨_, entry, entries, starts⟩ := scalar_starts sound found shaped
        simp only [List.cons.injEq] at entries
        cases entries.1
        exact Or.inr starts
      · split at made
        · rename_i positive
          cases made
          cases x with
          | vec => simp [locateIndexVar] at positive
          | index dim =>
              refine Or.inr fun iv i cval => Or.inl ⟨rfl, dim, ?_, rfl⟩
              simp only [locateIndexVar]
              omega
          | assigned n => simp [locateIndexVar] at positive
        · exact Or.inl (constant made)

/-- The entries of an array literal, each with the value of its element. -/
theorem scalar_2_array_index_spec (sound : Sound arith locals vals) {elems : List Elem}
    {info : IndexInfo} (made : scalar2ArrayIndex locals elems = some info) {shape : Shape}
    (shaped : argShape rank (locals.map Assigned.shape) (.array elems) = some shape) :
    shape = .vector elems.length ∧ InfoShape info shape ∧ info.argNo = 0 ∧
      ∀ (i : Nat) entry, info.entries[i]? = some entry →
        (entry.permutation = 0 ∧
            ∀ iv, entry.constArg = some (evalArg iv (vals iv) (.array elems) i)) ∨
          ∀ iv (cval : Option Int), Starts arith locals iv { entry with constArg := cval } i
            (evalArg iv (vals iv) (.array elems) i) := by
  obtain ⟨entries, mapped, rfl⟩ := Option.map_eq_some_iff.mp made
  obtain ⟨length, elements⟩ := mapM_get mapped
  simp only [argShape] at shaped
  split at shaped
  · rename_i scalars
    cases shaped
    refine ⟨rfl, ⟨rfl, length⟩, rfl, fun i entry here => ?_⟩
    obtain ⟨elem, found, made⟩ := elements i entry here
    have scalar : elemShape rank (locals.map Assigned.shape) elem = some .scalar := by
      simpa using List.all_eq_true.mp scalars elem (List.mem_of_getElem? found)
    have value : ∀ iv, evalArg iv (vals iv) (.array elems) i = evalElem iv (vals iv) elem := by
      intro iv
      simp [evalArg, found]
    rcases scalar_entry_spec sound made scalar with constant | starts
    · refine Or.inl ⟨constant.1, fun iv => ?_⟩
      rw [value]
      exact constant.2 iv
    · refine Or.inr fun iv cval => ?_
      rw [value]
      exact starts iv i cval
  · cases shaped

/-- What an assignment may be given: an info that fits its shape and has its value. -/
def Right (arith : Prf → Int → Int → Int) (locals : List Assigned)
    (vals : (Nat → Int) → List Components) (expr : Expr) (shape : Shape) (info : IndexInfo) : Prop :=
  InfoShape info shape ∧
    ∀ iv, InfoDenotes arith locals iv info (evalExpr arith iv (vals iv) expr) shape

theorem array_right (sound : Sound arith locals vals) {elems : List Elem} {info : IndexInfo}
    (made : scalar2ArrayIndex locals elems = some info) {shape : Shape}
    (shaped : argShape rank (locals.map Assigned.shape) (.array elems) = some shape) :
    Right arith locals vals (.arg (.array elems)) shape info := by
  obtain ⟨rfl, fits, noPrf, entries⟩ := scalar_2_array_index_spec sound made shaped
  refine ⟨fits, fun iv i inside => ?_⟩
  obtain ⟨lookup, below⟩ := fits.entry_of_vector inside
  have here : info.entry i = some info.entries[i] := by
    rw [lookup, List.getElem?_eq_getElem below]
  rcases entries i _ (List.getElem?_eq_getElem below) with constant | starts
  · exact .const here constant.1 (constant.2 iv)
  · refine (starts iv info.entries[i].constArg).evaluates here ?_
    simp [IndexInfo.apply, noPrf, evalExpr]

theorem id_right (sound : Sound arith locals vals) {x : Var} {info : IndexInfo}
    (made : createIndexInfoId rank locals x = some info) {shape : Shape}
    (shaped : varShape rank (locals.map Assigned.shape) x = some shape) :
    Right arith locals vals (.arg (.id x)) shape info := by
  cases x with
  | vec =>
      cases made
      cases shaped
      have fits : InfoShape (vecInfo rank) (.vector rank) := ⟨rfl, by simp [vecInfo]⟩
      refine ⟨fits, fun iv i inside => ?_⟩
      have here : (vecInfo rank).entry i = some ⟨i + 1, none, none⟩ := by
        rw [(fits.entry_of_vector inside).1]
        simp [vecInfo, inside]
      exact .base here rfl rfl rfl
  | index dim =>
      cases made
      simp only [varShape] at shaped
      split at shaped
      · cases shaped
        refine ⟨⟨rfl, _, rfl, by simp⟩, fun iv i => ?_⟩
        exact .base rfl rfl rfl rfl
      · cases shaped
  | assigned n =>
      obtain ⟨⟨m, _⟩, found, rfl⟩ := Option.map_eq_some_iff.mp made
      obtain ⟨same, a, here, index⟩ := valid_local_id_some found
      cases same
      obtain ⟨fits, denotes⟩ := sound.index n a _ here index
      rw [shape_of_assigned here shaped] at fits denotes
      exact ⟨fits, fun iv => denotes iv _ (sound.val_of_get here iv)⟩

/-- A function of a constant, as argument `argNo`, and another value. -/
def sided (arith : Prf → Int → Int → Int) (op : Prf) (argNo : Nat) (const val : Int) : Int :=
  if argNo = 1 then arith op const val else arith op val const

theorem apply_sided {info : IndexInfo} {entry : Entry} {op : Prf} {const : Int}
    (prf : info.mprf = some op) (side : info.argNo ≠ 0) (stored : entry.constArg = some const)
    (val : Int) : info.apply arith entry val = some (sided arith op info.argNo const val) := by
  simp [IndexInfo.apply, prf, side, stored, sided]

theorem scalar_info_spec (sound : Sound arith locals vals) {op : Prf} {argNo : Nat}
    (side : argNo ≠ 0) {cval : Int} {x : Var} {info : IndexInfo}
    (made : scalarInfo locals op argNo cval x = some info)
    (shaped : varShape rank (locals.map Assigned.shape) x = some .scalar) :
    InfoShape info .scalar ∧ ∀ iv i, Evaluates arith locals iv info i
      (sided arith op argNo cval (evalVar iv (vals iv) x 0)) := by
  simp only [scalarInfo] at made
  split at made
  · rename_i assign prev found
    obtain ⟨_, entry, entries, starts⟩ := scalar_starts sound found shaped
    simp only [entries, List.head?_cons, Option.map_some, Option.some.injEq] at made
    subst made
    refine ⟨⟨rfl, _, rfl, (starts (fun _ => 0) 0 none).nonzero⟩, fun iv i => ?_⟩
    exact (starts iv i (some cval)).evaluates rfl (apply_sided rfl side rfl _)
  · split at made
    · cases made
    · cases made
      cases x with
      | vec => cases shaped
      | index dim =>
          have position : (locateIndexVar (.index dim)).toNat = dim + 1 := by
            simp only [locateIndexVar]
            omega
          refine ⟨⟨rfl, _, rfl, by simp [position]⟩, fun iv i => ?_⟩
          exact .base rfl position rfl (apply_sided rfl side rfl _)
      | assigned n => rename_i outside; exact absurd rfl outside

/-- The constant of a scalar function is its second argument, or else its first. -/
theorem sxs_cases {op : Prf} {a b : Arg} {info : IndexInfo}
    (made : createIndexInfoSxS locals op a b = some info) :
    (∃ x cval, a = .id x ∧ intArg locals b = some cval ∧
        scalarInfo locals op 2 cval x = some info) ∨
      ∃ x cval, b = .id x ∧ intArg locals a = some cval ∧
        scalarInfo locals op 1 cval x = some info := by
  simp only [createIndexInfoSxS] at made
  split at made
  · exact Or.inl ⟨_, _, rfl, ‹_›, made⟩
  · split at made
    · exact Or.inr ⟨_, _, rfl, ‹_›, made⟩
    · cases made

/-- The scalar functions record the variable, the constant and its side. -/
theorem sxs_right (sound : Sound arith locals vals) {op : Prf} {a b : Arg} {info : IndexInfo}
    (made : createIndexInfoSxS locals op a b = some info)
    (first : argShape rank (locals.map Assigned.shape) a = some .scalar)
    (second : argShape rank (locals.map Assigned.shape) b = some .scalar) :
    Right arith locals vals (.prf op a b) .scalar info := by
  rcases sxs_cases made with ⟨x, cval, rfl, const, made⟩ | ⟨x, cval, rfl, const, made⟩
  · obtain ⟨fits, evaluates⟩ := scalar_info_spec sound (by omega) made first
    refine ⟨fits, fun iv i => ?_⟩
    change Evaluates arith locals iv info i
      (arith op (evalVar iv (vals iv) x 0) (evalArg iv (vals iv) b 0))
    rw [int_arg_eq sound const iv 0]
    exact evaluates iv i
  · obtain ⟨fits, evaluates⟩ := scalar_info_spec sound (by omega) made second
    refine ⟨fits, fun iv i => ?_⟩
    change Evaluates arith locals iv info i
      (arith op (evalArg iv (vals iv) a 0) (evalVar iv (vals iv) x 0))
    rw [int_arg_eq sound const iv 0]
    exact evaluates iv i

/-- The vector variants have no value for two integers. -/
theorem fold_component_none {shape1 shape2 : Option Shape}
    (vector : ¬ (shape1 = some .scalar ∧ shape2 = some .scalar)) (op : Prf)
    (tmpinfo : Option IndexInfo) (i : Nat) (val : Int) :
    foldComponent arith shape1 shape2 op tmpinfo i val = none := by
  cases tmpinfo with
  | none => rfl
  | some info =>
      cases entry : info.entries[i]? with
      | none => simp [foldComponent, entry]
      | some entry' =>
          cases stored : entry'.constArg with
          | none => simp [foldComponent, entry, stored]
          | some const => simp [foldComponent, newTypeCheckExpr, vector]

/-- The entries of a vector function, where a component without an index is not folded. -/
theorem renewed_entries {olds entries : List Entry} {extent : Nat} {renew : Nat → Entry → Entry}
    {fold : Nat → Option Entry} (none_ : ∀ i, fold i = none)
    (mapped : ((List.range extent).mapM fun i => olds[i]?.bind fun entry =>
      if entry.permutation ≠ 0 then some (renew i entry) else fold i) = some entries) :
    entries.length = extent ∧ ∀ i < extent, ∃ old, olds[i]? = some old ∧ old.permutation ≠ 0 ∧
      entries[i]? = some (renew i old) := by
  obtain ⟨length, elements⟩ := mapM_get mapped
  rw [List.length_range] at length
  refine ⟨length, fun i inside => ?_⟩
  have lookup := List.getElem?_eq_getElem (length.symm ▸ inside)
  obtain ⟨j, position, entry⟩ := elements i _ lookup
  rw [List.getElem?_range inside] at position
  cases position
  obtain ⟨old, found, stored⟩ := Option.bind_eq_some_iff.mp entry
  split at stored
  next nonzero => exact ⟨old, found, nonzero, lookup.trans stored.symm⟩
  next =>
    rw [none_] at stored
    cases stored

variable {shape1 shape2 : Option Shape}

/-- The infos of the vector functions: every component has an index and the constant of its
side. -/
theorem vector_info_spec (sound : Sound arith locals vals)
    (vector : ¬ (shape1 = some .scalar ∧ shape2 = some .scalar)) {op : Prf} {argNo : Nat}
    (side : argNo ≠ 0) {constn : Const} {y : Arg} {info : IndexInfo}
    (made : vectorInfo arith rank locals shape1 shape2 op argNo constn y = some (some info))
    {shape : Shape} (shaped : argShape rank (locals.map Assigned.shape) y = some shape) :
    ∃ extent, shape = .vector extent ∧ InfoShape info shape ∧ ∀ iv i, i < extent →
      Evaluates arith locals iv info i
        (sided arith op argNo (constn.component i) (evalArg iv (vals iv) y i)) := by
  -- an argument is the index vector, a vector with an info of its own or an array of scalars
  cases y with
  | num val => cases made
  | id x =>
      cases x with
      | vec =>
          cases made
          cases shaped
          have fits : InfoShape ⟨rank, (List.range rank).map fun i =>
              ⟨i + 1, none, some (constn.component i)⟩, some op, argNo⟩ (.vector rank) :=
            ⟨rfl, by simp⟩
          refine ⟨rank, rfl, fits, fun iv i inside => ?_⟩
          have here := (fits.entry_of_vector inside).1
          simp only [List.getElem?_map, List.getElem?_range inside, Option.map_some] at here
          exact .base here rfl rfl (apply_sided rfl side rfl _)
      | index dim => cases made
      | assigned n =>
          simp only [vectorInfo] at made
          split at made
          · rename_i elts _ _ tmpinfo here
            obtain ⟨entries, mapped, same⟩ := Option.map_eq_some_iff.mp made
            cases same
            have known : Shape.vector elts = shape := by
              simpa [argShape, varShape, here] using shaped
            subst known
            obtain ⟨prevFits, denotes⟩ := sound.index n _ tmpinfo here rfl
            obtain ⟨length, elements⟩ :=
              renewed_entries (fun i => fold_component_none vector op _ i _) mapped
            have fits : InfoShape ⟨elts, entries, some op, argNo⟩ (.vector elts) := ⟨rfl, length⟩
            refine ⟨elts, rfl, fits, fun iv i inside => ?_⟩
            obtain ⟨old, -, nonzero, lookup⟩ := elements i inside
            have starts : Starts arith locals iv
                ⟨old.permutation, some n, some (constn.component i)⟩ i
                (evalVar iv (vals iv) (.assigned n) i) :=
              .inr ⟨n, _, tmpinfo, rfl, nonzero, here, rfl,
                denotes iv _ (sound.val_of_get here iv) i inside⟩
            have here' := (fits.entry_of_vector inside).1.trans lookup
            exact starts.evaluates here' (apply_sided rfl side rfl _)
          · cases made
  | array elems =>
      simp only [vectorInfo] at made
      split at made
      · cases made
      · rename_i iinfo literal
        obtain ⟨entries, mapped, same⟩ := Option.map_eq_some_iff.mp made
        cases same
        obtain ⟨rfl, prevFits, noPrf, components⟩ :=
          scalar_2_array_index_spec sound literal shaped
        obtain ⟨length, elements⟩ :=
          renewed_entries (fun i => fold_component_none vector op _ i _) mapped
        have fits : InfoShape { iinfo with entries := entries, mprf := some op, argNo := argNo }
            (.vector elems.length) := ⟨prevFits.1, length.trans prevFits.1⟩
        refine ⟨elems.length, rfl, fits, fun iv i inside => ?_⟩
        obtain ⟨old, found, nonzero, lookup⟩ := elements i (prevFits.1.symm ▸ inside)
        rcases components i old found with constant | starts
        · exact absurd constant.1 nonzero
        · have starts' : Starts arith locals iv { old with constArg := some (constn.component i) } i
              (evalArg iv (vals iv) (.array elems) i) := starts iv _
          have here := (fits.entry_of_vector inside).1.trans lookup
          exact starts'.evaluates here (apply_sided rfl side rfl _)

/-- Components with an index get through, constant ones have no folded value. -/
theorem entries_none_iff (entries : List Entry) (kept : Nat → Entry → Entry)
    {folded : Nat → Option Entry} (stops : ∀ i, folded i = none) :
    ((List.range entries.length).mapM fun i => entries[i]?.bind fun entry =>
        if entry.permutation ≠ 0 then some (kept i entry) else folded i) = none ↔
      (entries.any fun entry => entry.permutation = 0) = true := by
  rw [← Option.not_isSome_iff_eq_none, mapM_isSome_iff, List.any_eq_true]
  constructor
  · intro stopped
    by_contra indexed
    refine stopped fun i mem => ?_
    have inside := List.mem_range.mp mem
    have nonzero : entries[i].permutation ≠ 0 := by
      intro zero
      exact indexed ⟨entries[i], List.getElem_mem inside, by simpa using zero⟩
    simp [List.getElem?_eq_getElem inside, nonzero]
  · rintro ⟨entry, mem, zero⟩ through
    obtain ⟨i, inside, rfl⟩ := List.mem_iff_getElem.mp mem
    have here := through i (List.mem_range.mpr inside)
    have zero : entries[i].permutation = 0 := by simpa using zero
    simp [List.getElem?_eq_getElem inside, zero, stops] at here

/-- The compiler stops at a constant component. -/
theorem vector_info_none_iff (sound : Sound arith locals vals)
    (vector : ¬ (shape1 = some .scalar ∧ shape2 = some .scalar)) {op : Prf} {argNo : Nat}
    {constn : Const} {y : Arg} {shape : Shape}
    (shaped : argShape rank (locals.map Assigned.shape) y = some shape) :
    vectorInfo arith rank locals shape1 shape2 op argNo constn y = none ↔
      constantComponent locals y = true := by
  cases y with
  | num val => simp [vectorInfo, constantComponent]
  | id x =>
      cases x with
      | vec => simp [vectorInfo, constantComponent, validLocalId]
      | index dim => simp [vectorInfo, constantComponent, validLocalId]
      | assigned n =>
          cases here : locals[n]? with
          | none => simp [vectorInfo, constantComponent, validLocalId, here]
          | some a =>
              obtain ⟨shape', int, akv, index⟩ := a
              cases index with
              | none => cases shape' <;>
                  simp [vectorInfo, constantComponent, validLocalId, here]
              | some tmpinfo =>
                  obtain ⟨fits, _⟩ := sound.index n _ tmpinfo here rfl
                  cases shape' with
                  | scalar =>
                      obtain ⟨_, entry, entries, nonzero⟩ := fits
                      simp [vectorInfo, constantComponent, validLocalId, here, entries, nonzero]
                  | vector elts =>
                      obtain ⟨_, rfl⟩ := fits
                      simp only [vectorInfo, constantComponent, validLocalId, here,
                        Option.bind_some, Option.map_some, Option.map_eq_none_iff]
                      exact entries_none_iff tmpinfo.entries _
                        (fold_component_none vector op (some tmpinfo) · _)
  | array elems =>
      cases literal : scalar2ArrayIndex locals elems with
      | none => simp [vectorInfo, constantComponent, literal]
      | some iinfo =>
          obtain ⟨rfl, fits, _⟩ := scalar_2_array_index_spec sound literal shaped
          simp only [vectorInfo, constantComponent, literal, Option.map_eq_none_iff]
          rw [fits.1, ← fits.2]
          exact entries_none_iff iinfo.entries _ (fold_component_none vector op none · _)

theorem prf_shape_comm (shapeA shapeB : Shape) :
    prfShape shapeA shapeB = prfShape shapeB shapeA := by
  cases shapeA with
  | scalar => cases shapeB <;> rfl
  | vector n =>
      cases shapeB with
      | scalar => rfl
      | vector m =>
          simp only [prfShape]
          by_cases same : n = m
          · rw [same]
          · rw [if_neg same, if_neg (Ne.symm same)]

/-- What fits a vector is a scalar or a vector of its length. -/
theorem prf_shape_vector {shapeA shape : Shape} {extent : Nat}
    (shaped : prfShape shapeA (.vector extent) = some shape) :
    shape = .vector extent ∧ (shapeA = .scalar ∨ shapeA = .vector extent) := by
  cases shapeA with
  | scalar => exact ⟨(Option.some.inj shaped).symm, .inl rfl⟩
  | vector n =>
      simp only [prfShape] at shaped
      split at shaped
      next equal =>
        subst equal
        exact ⟨(Option.some.inj shaped).symm, .inr rfl⟩
      next => cases shaped

/-- A constant argument is a component of the other argument's length. -/
theorem const_component (sound : Sound arith locals vals) {a : Arg} {constn : Const}
    (const : constArg locals a = some constn) {shapeA : Shape}
    (shaped : argShape rank (locals.map Assigned.shape) a = some shapeA) {extent i : Nat}
    (fitting : shapeA = .scalar ∨ shapeA = .vector extent) (inside : i < extent)
    (iv : Nat → Int) : constn.component i = evalArg iv (vals iv) a i := by
  obtain ⟨constShape, agrees⟩ := const_arg_agrees sound const shaped
  refine (agrees iv).component ?_
  rw [constShape]
  rcases fitting with scalar | vector
  · exact .inr scalar
  · exact .inl (by rw [vector]; exact inside)

/-- The vector functions: one argument is a constant of fitting shape. -/
theorem vector_right (sound : Sound arith locals vals)
    (vector : ¬ (shape1 = some .scalar ∧ shape2 = some .scalar)) {op : Prf} {a b : Arg}
    {info : IndexInfo}
    (made : createIndexInfoA arith rank locals shape1 shape2 op a b = some (some info))
    {shapeA shapeB shape : Shape}
    (first : argShape rank (locals.map Assigned.shape) a = some shapeA)
    (second : argShape rank (locals.map Assigned.shape) b = some shapeB)
    (shaped : prfShape shapeA shapeB = some shape) :
    Right arith locals vals (.prf op a b) shape info := by
  simp only [createIndexInfoA] at made
  split at made
  · rename_i constn const _
    obtain ⟨extent, rfl, fits, evaluates⟩ := vector_info_spec sound vector (by omega) made second
    obtain ⟨rfl, fitting⟩ := prf_shape_vector shaped
    refine ⟨fits, fun iv i inside => ?_⟩
    have value := evaluates iv i inside
    rw [const_component sound const first fitting inside iv] at value
    exact value
  · rename_i constn _ const
    obtain ⟨extent, rfl, fits, evaluates⟩ := vector_info_spec sound vector (by omega) made first
    obtain ⟨rfl, fitting⟩ := prf_shape_vector ((prf_shape_comm _ _).trans shaped)
    refine ⟨fits, fun iv i inside => ?_⟩
    have value := evaluates iv i inside
    rw [const_component sound const second fitting inside iv] at value
    exact value
  · cases made

theorem expr_shape_prf {shapes : List Shape} {op : Prf} {a b : Arg} {shape : Shape}
    (shaped : exprShape rank shapes (.prf op a b) = some shape) :
    ∃ shapeA shapeB, argShape rank shapes a = some shapeA ∧ argShape rank shapes b = some shapeB ∧
      prfShape shapeA shapeB = some shape := by
  simp only [exprShape] at shaped
  split at shaped
  · exact ⟨_, _, ‹_›, ‹_›, shaped⟩
  · cases shaped

/-- The info of an assignment is right. -/
theorem wli_let_right (sound : Sound arith locals vals) {expr : Expr} {shape : Shape}
    (shaped : exprShape rank (locals.map Assigned.shape) expr = some shape) {info : IndexInfo}
    (made : wliLet arith rank locals expr = some (some info)) :
    Right arith locals vals expr shape info := by
  cases expr with
  | arg a =>
      cases a with
      | num val => cases made
      | id x => exact id_right sound (Option.some.inj made) shaped
      | array elems => exact array_right sound (Option.some.inj made) shaped
  | prf op a b =>
      obtain ⟨shapeA, shapeB, first, second, combined⟩ := expr_shape_prf shaped
      simp only [wliLet] at made
      split at made
      · rename_i scalars
        cases first.symm.trans scalars.1
        cases second.symm.trans scalars.2
        cases combined
        exact sxs_right sound (Option.some.inj made) first second
      · rename_i vector
        exact vector_right sound vector made first second combined

/-- The compiler stops at an assignment exactly if it would fold a component. -/
theorem wli_let_none_iff (sound : Sound arith locals vals) {expr : Expr} {shape : Shape}
    (shaped : exprShape rank (locals.map Assigned.shape) expr = some shape) :
    wliLet arith rank locals expr = none ↔ foldFree rank locals expr = false := by
  cases expr with
  | arg a => cases a <;> simp [wliLet, foldFree]
  | prf op a b =>
      obtain ⟨shapeA, shapeB, first, second, _⟩ := expr_shape_prf shaped
      simp only [wliLet, foldFree]
      split
      · simp
      · rename_i vector
        simp only [createIndexInfoA]
        split
        · rw [vector_info_none_iff sound vector second, Bool.not_eq_false']
        · rw [vector_info_none_iff sound vector first, Bool.not_eq_false']
        · simp

/-- A variable after an assignment is an earlier one or the new one. -/
theorem append_get (sound : Sound arith locals vals) {new a : Assigned} {n : Nat}
    {expr : Expr} (found : (locals ++ [new])[n]? = some a) :
    (locals[n]? = some a ∧
        ∀ iv, (vals iv ++ [evalExpr arith iv (vals iv) expr])[n]? = (vals iv)[n]?) ∨
      (a = new ∧ ∀ iv, (vals iv ++ [evalExpr arith iv (vals iv) expr])[n]? =
        some (evalExpr arith iv (vals iv) expr)) := by
  by_cases inside : n < locals.length
  · rw [List.getElem?_append_left inside] at found
    exact Or.inl ⟨found, fun iv =>
      List.getElem?_append_left (by rw [sound.length]; exact inside)⟩
  · rw [List.getElem?_append_right (by omega)] at found
    have last := (List.getElem?_eq_some_iff.mp found).1
    simp only [List.length_singleton] at last
    have zero : n - locals.length = 0 := by omega
    rw [zero] at found
    cases found
    refine Or.inr ⟨rfl, fun iv => ?_⟩
    rw [List.getElem?_append_right (by have := sound.length iv; omega), sound.length, zero]
    rfl

/-- The integer of a definition is its value. -/
theorem expr_int_eq (sound : Sound arith locals vals) {expr : Expr} {c : Int}
    (found : exprInt locals expr = some c) (iv : Nat → Int) (i : Nat) :
    evalExpr arith iv (vals iv) expr i = c := by
  cases expr with
  | arg a => exact int_arg_eq sound found iv i
  | prf op a b => cases found

/-- The constant of a type has the shape and the components of the expression. -/
theorem expr_akv_agrees (sound : Sound arith locals vals) {expr : Expr} {c : Const}
    (found : exprAkv arith locals expr = some c) {shape : Shape}
    (shaped : exprShape rank (locals.map Assigned.shape) expr = some shape) :
    c.shape = shape ∧ ∀ iv, c.Agrees (evalExpr arith iv (vals iv) expr) := by
  cases expr with
  | arg a => exact const_arg_agrees sound found shaped
  | prf op a b =>
      obtain ⟨shapeA, shapeB, first, second, combined⟩ := expr_shape_prf shaped
      simp only [exprAkv] at found
      split at found
      · rename_i constA constB foundA foundB
        cases found
        obtain ⟨rfl, agreesA⟩ := const_arg_agrees sound foundA first
        obtain ⟨rfl, agreesB⟩ := const_arg_agrees sound foundB second
        have folded := fun iv => fold_const_agrees arith op (agreesA iv) (agreesB iv) combined
        exact ⟨(folded fun _ => 0).1, fun iv => (folded iv).2⟩
      · cases found

theorem InfoDenotes.append {iv : Nat → Int} {info : IndexInfo} {v : Components} {shape : Shape}
    (denotes : InfoDenotes arith locals iv info v shape) (more : List Assigned) :
    InfoDenotes arith (locals ++ more) iv info v shape := by
  cases shape with
  | scalar => exact fun i => (denotes i).append more
  | vector extent => exact fun i inside => (denotes i inside).append more

/-- One assignment keeps everything recorded right. -/
theorem wli_assign_sound (sound : Sound arith locals vals) {l : Let} {locals' : List Assigned}
    (shaped : exprShape rank (locals.map Assigned.shape) l.expr = some l.shape)
    (made : wliAssign arith rank locals l = some locals') :
    locals'.map Assigned.shape = locals.map Assigned.shape ++ [l.shape] ∧
      Sound arith locals' fun iv => vals iv ++ [evalExpr arith iv (vals iv) l.expr] := by
  obtain ⟨index, built, rfl⟩ := Option.map_eq_some_iff.mp made
  refine ⟨by simp, by simp [sound.length], ?_, ?_, ?_⟩
  · intro n a c found int iv v value i
    rcases append_get sound found with ⟨old, same⟩ | ⟨rfl, new⟩
    · exact sound.int n a c old int iv v ((same iv).symm.trans value) i
    · cases (new iv).symm.trans value
      exact expr_int_eq sound int iv i
  · intro n a c found akv
    rcases append_get sound found with ⟨old, same⟩ | ⟨rfl, new⟩
    · obtain ⟨shape, agrees⟩ := sound.akv n a c old akv
      exact ⟨shape, fun iv v value => agrees iv v ((same iv).symm.trans value)⟩
    · obtain ⟨shape, agrees⟩ := expr_akv_agrees sound akv shaped
      refine ⟨shape, fun iv v value => ?_⟩
      cases (new iv).symm.trans value
      exact agrees iv
  · intro n a info found attached
    rcases append_get sound found with ⟨old, same⟩ | ⟨rfl, new⟩
    · obtain ⟨fits, denotes⟩ := sound.index n a info old attached
      exact ⟨fits, fun iv v value =>
        (denotes iv v ((same iv).symm.trans value)).append _⟩
    · have attached : index = some info := attached
      subst attached
      obtain ⟨fits, denotes⟩ := wli_let_right sound shaped built
      refine ⟨fits, fun iv v value => ?_⟩
      cases (new iv).symm.trans value
      exact (denotes iv).append _

end Builders

section Runs

variable {arith : Prf → Int → Int → Int} {rank : Nat}

theorem well_typed_cons {shapes : List Shape} {l : Let} {body : List Let}
    (typed : wellTyped rank shapes (l :: body) = true) :
    exprShape rank shapes l.expr = some l.shape ∧
      wellTyped rank (shapes ++ [l.shape]) body = true := by
  simpa [wellTyped] using typed

/-- Everything recorded in a traversal is right. -/
theorem wli_from_sound (body : List Let) : ∀ {locals locals' : List Assigned}
    {vals : (Nat → Int) → List Components}, Sound arith locals vals →
    wellTyped rank (locals.map Assigned.shape) body = true →
    body.foldlM (wliAssign arith rank) locals = some locals' →
    Sound arith locals' fun iv =>
      body.foldl (fun vals l => vals ++ [evalExpr arith iv vals l.expr]) (vals iv) := by
  induction body with
  | nil =>
      intro locals locals' vals sound _ through
      cases through
      exact sound
  | cons l body ih =>
      intro locals locals' vals sound typed through
      rw [List.foldlM_cons] at through
      obtain ⟨next, made, through⟩ := Option.bind_eq_some_iff.mp through
      obtain ⟨shaped, typed⟩ := well_typed_cons typed
      obtain ⟨shapes, sound'⟩ := wli_assign_sound sound shaped made
      exact ih sound' (by rw [shapes]; exact typed) through

/-- A traversal gets through exactly if it folds nothing. -/
theorem wli_from_through_iff (body : List Let) : ∀ {locals : List Assigned}
    {vals : (Nat → Int) → List Components}, Sound arith locals vals →
    wellTyped rank (locals.map Assigned.shape) body = true →
    ((∃ locals', body.foldlM (wliAssign arith rank) locals = some locals') ↔
      foldFreeRun arith rank locals body = true) := by
  induction body with
  | nil =>
      intro locals vals sound _
      exact iff_of_true ⟨locals, rfl⟩ rfl
  | cons l body ih =>
      intro locals vals sound typed
      obtain ⟨shaped, typed⟩ := well_typed_cons typed
      have stops : wliAssign arith rank locals l = none ↔ foldFree rank locals l.expr = false := by
        rw [wliAssign, Option.map_eq_none_iff, wli_let_none_iff sound shaped]
      simp only [List.foldlM_cons, foldFreeRun]
      cases made : wliAssign arith rank locals l with
      | none => simp [stops.mp made]
      | some locals' =>
          have free : foldFree rank locals l.expr = true := by
            rw [← Bool.not_eq_false, ← stops, made]
            simp
          obtain ⟨shapes, sound'⟩ := wli_assign_sound sound shaped made
          simp only [free, Option.bind_eq_bind, Option.bind_some, Bool.true_and]
          exact ih sound' (by rw [shapes]; exact typed)

theorem sound_nil : Sound arith [] fun _ => [] :=
  ⟨fun _ => rfl, by simp, by simp, by simp⟩

theorem Sound.denotes {body : List Let} {locals : List Assigned}
    (sound : Sound arith locals fun iv => evalBody arith iv body) :
    Denotes arith body locals := by
  intro n a info found attached iv i val inside value
  obtain ⟨_, denotes⟩ := sound.index n a info found attached
  have chain : Evaluates arith locals iv info i (val i) := by
    have here := denotes iv val value
    cases shape : a.shape with
    | scalar =>
        rw [shape] at here inside
        have zero : i = 0 := by
          simp only [Shape.extent] at inside
          omega
        subst zero
        exact here 0
    | vector extent =>
        rw [shape] at here inside
        exact here i inside
  exact ⟨chain, fun entry here zero => chain.constant here zero⟩

/-- The compiler gets through a body with all infos right exactly if no function of a constant and
a vector meets a constant component. -/
theorem index_infos_denote_iff {body : List Let} (typed : wellTyped rank [] body = true) :
    (∃ locals, wli arith rank body = some locals ∧ Denotes arith body locals) ↔
      foldFreeRun arith rank [] body = true := by
  rw [← wli_from_through_iff body (@sound_nil arith) typed]
  constructor
  · rintro ⟨locals, through, _⟩
    exact ⟨locals, through⟩
  · rintro ⟨locals, through⟩
    exact ⟨locals, through, (wli_from_sound body sound_nil typed through).denotes⟩

/-- `+`, `-`, `*` and the truncating `/` on ints without overflow. -/
def onInts : Prf → Int → Int → Int
  | .add => (· + ·)
  | .sub => (· - ·)
  | .mul => (· * ·)
  | .div => Int.tdiv

/-- `a = 2 * i; b = a - 1; v = [b, j]; w = v + [1, 3]; x = 7 - w`. -/
def shifted : List Let :=
  [⟨.scalar, .prf .mul (.num 2) (.id (.index 0))⟩,
    ⟨.scalar, .prf .sub (.id (.assigned 0)) (.num 1)⟩,
    ⟨.vector 2, .arg (.array [.id (.assigned 1), .id (.index 1)])⟩,
    ⟨.vector 2, .prf .add (.id (.assigned 2)) (.array [.num 1, .num 3])⟩,
    ⟨.vector 2, .prf .sub (.num 7) (.id (.assigned 3))⟩]

theorem index_infos_denote_shifted :
    ∃ locals, wli onInts 2 shifted = some locals ∧ Denotes onInts shifted locals :=
  (index_infos_denote_iff (by decide)).mpr (by decide)

/-- `v = [i, 3]; w = v - 1`: the compiler stops at the component that is 3. -/
theorem constant_component_stops :
    ¬ ∃ locals, wli onInts 2 [⟨.vector 2, .arg (.array [.id (.index 0), .num 3])⟩,
        ⟨.vector 2, .prf .sub (.id (.assigned 0)) (.num 1)⟩] = some locals ∧
      Denotes onInts [⟨.vector 2, .arg (.array [.id (.index 0), .num 3])⟩,
        ⟨.vector 2, .prf .sub (.id (.assigned 0)) (.num 1)⟩] locals := by
  rintro ⟨locals, through, _⟩
  cases through

end Runs

end Sac2c.IndexInfos
