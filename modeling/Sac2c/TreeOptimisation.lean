import Sac2c.WlTrees

/-!
Neighbours in a with-loop tree that have equal sons become one node, from the
last node to the first and from the leaves to the root (wltransform/wltransform.c).
-/

namespace Sac2c.WlTrees

variable {Code : Type} [DecidableEq Code]

/-- The chains are compared node by node; `head` as long as none has been. `none` is a failed
assertion. -/
def compareChains (head : Bool) : WlNode Code → WlNode Code → Option Bool
  | .null, .null => some true
  -- at its end the first chain is not compared with what is left of the second
  | .null, _ => some !head
  | .block unrolled bound1 bound2 step contents nextdim next, tree2 =>
      match tree2 with
      | .null => if head then some false else none
      | .block unrolled' bound1' bound2' step' contents' nextdim' next' =>
          if unrolled ≠ unrolled' then none
          else if bound1 = bound1' ∧ bound2 = bound2' ∧ step = step' then do
            let equal ←
              if nextdim ≠ .null then
                if contents = .null ∧ contents' = .null then compareChains true nextdim nextdim'
                else none
              else compareChains true contents contents'
            if equal then compareChains false next next' else some false
          else some false
      | _ => none
  | .stride bound1 bound2 step contents next, tree2 =>
      match tree2 with
      | .null => if head then some false else none
      | .stride bound1' bound2' step' contents' next' =>
          if bound1 = bound1' ∧ bound2 = bound2' ∧ step = step' then do
            let equal ← compareChains true contents contents'
            if equal then compareChains false next next' else some false
          else some false
      | _ => none
  | .grid bound1 bound2 nextdim code next, tree2 =>
      match tree2 with
      | .null => if head then some false else none
      | .grid bound1' bound2' nextdim' code' next' =>
          if bound1 = bound1' ∧ bound2 = bound2' then do
            let equal ←
              if nextdim ≠ .null then
                if code = none ∧ code' = none then compareChains true nextdim nextdim' else none
              else some (code = code')
            if equal then compareChains false next next' else some false
          else some false
      | _ => none

def compareWlTrees (tree1 tree2 : WlNode Code) : Option Bool := compareChains true tree1 tree2

def shiftGrids (offset : Int) : WlNode Code → WlNode Code
  | .grid bound1 bound2 nextdim code next =>
      .grid (bound1 - offset) (bound2 - offset) nextdim code (shiftGrids offset next)
  | node => node

/-- The lower bound and the grids of a stride. -/
def normalizeGrids (bound1 : Int) (grids : WlNode Code) : Int × WlNode Code :=
  if 0 < offset grids then (bound1 + offset grids, shiftGrids (offset grids) grids)
  else (bound1, grids)

/-- A first grid that fills the whole step range becomes one of every index. -/
def fillStep (step : Int) : WlNode Code → Int × WlNode Code
  | .grid bound1 bound2 nextdim code next =>
      if bound1 = 0 ∧ bound2 = step then (1, .grid bound1 1 nextdim code next)
      else (step, .grid bound1 bound2 nextdim code next)
  | grids => (step, grids)

/-- The stride with the offset of its grids removed. -/
def normalizeStride (bound1 bound2 step : Int) (contents next : WlNode Code) : WlNode Code :=
  let normal := normalizeGrids bound1 contents
  let filled := fillStep step normal.2
  .stride normal.1 bound2 filled.1 filled.2 next

/-- Whether a node is concatenated with the next. -/
def concats : WlNode Code → Option Bool
  | .block _ _ bound2 step contents nextdim (.block _ bound1' _ step' contents' nextdim' _) =>
      if step = step' ∧ bound2 = bound1' then do
        let equal ← compareWlTrees contents contents'
        if equal then compareWlTrees nextdim nextdim' else some false
      else some false
  | .stride bound1 bound2 step contents (.stride bound1' _ step' contents' _) =>
      if step = step' ∧ (bound2 - bound1).tmod step = 0 ∧ bound2 = bound1' then
        compareWlTrees contents contents'
      else some false
  | .grid _ bound2 nextdim code (.grid bound1' _ nextdim' code' _) =>
      if bound2 = bound1' then
        if code = code' then compareWlTrees nextdim nextdim' else some false
      else some false
  | _ => some false

/-- The node with the upper bound of the next one. -/
def concate : WlNode Code → WlNode Code
  | .block unrolled bound1 _ step contents nextdim (.block _ _ bound2' _ _ _ next') =>
      .block unrolled bound1 bound2' step contents nextdim next'
  | .stride bound1 _ step contents (.stride _ bound2' _ _ next') =>
      .stride bound1 bound2' step contents next'
  | .grid bound1 _ nextdim code (.grid _ bound2' _ _ next') =>
      .grid bound1 bound2' nextdim code next'
  | node => node

def concatenate (node : WlNode Code) : Option (WlNode Code) := do
  if ← concats node then some (concate node) else some node

def optWl : WlNode Code → Option (WlNode Code)
  | .null => some .null
  | .block unrolled bound1 bound2 step contents nextdim next => do
      let next ← optWl next
      let contents ← optWl contents
      let nextdim ← optWl nextdim
      concatenate (.block unrolled bound1 bound2 step contents nextdim next)
  | .stride bound1 bound2 step contents next => do
      let next ← optWl next
      let contents ← optWl contents
      if contents = .null then none
      else concatenate (normalizeStride bound1 bound2 step contents next)
  | .grid bound1 bound2 nextdim code next => do
      let next ← optWl next
      let nextdim ← optWl nextdim
      concatenate (.grid bound1 bound2 nextdim code next)

section Comparison

/-- The second tree is the first with chains prolonged, or sons given to empty nodes. A chain
that is compared as a whole (`head`) has to be there in both. -/
def Prolongs (head : Bool) : WlNode Code → WlNode Code → Prop
  | .null, tree2 => head = true → tree2 = .null
  | .block unrolled bound1 bound2 step contents nextdim next,
    .block unrolled' bound1' bound2' step' contents' nextdim' next' =>
      unrolled = unrolled' ∧ (bound1 = bound1' ∧ bound2 = bound2' ∧ step = step') ∧
        (if nextdim ≠ .null then
          (contents = .null ∧ contents' = .null) ∧ Prolongs true nextdim nextdim'
        else Prolongs true contents contents') ∧ Prolongs false next next'
  | .stride bound1 bound2 step contents next, .stride bound1' bound2' step' contents' next' =>
      (bound1 = bound1' ∧ bound2 = bound2' ∧ step = step') ∧ Prolongs true contents contents' ∧
        Prolongs false next next'
  | .grid bound1 bound2 nextdim code next, .grid bound1' bound2' nextdim' code' next' =>
      (bound1 = bound1' ∧ bound2 = bound2') ∧
        (if nextdim ≠ .null then (code = none ∧ code' = none) ∧ Prolongs true nextdim nextdim'
        else code = code') ∧ Prolongs false next next'
  | _, _ => False

/-- A chain of the first tree goes on where that of the second, the same until then, has ended;
or nodes of different kinds meet. -/
def Breaks (head : Bool) : WlNode Code → WlNode Code → Prop
  | .null, _ => False
  | .block unrolled bound1 bound2 step contents nextdim next,
    .block unrolled' bound1' bound2' step' contents' nextdim' next' =>
      unrolled ≠ unrolled' ∨ (bound1 = bound1' ∧ bound2 = bound2' ∧ step = step') ∧
        if nextdim ≠ .null then
          ¬ (contents = .null ∧ contents' = .null) ∨ Breaks true nextdim nextdim' ∨
            Prolongs true nextdim nextdim' ∧ Breaks false next next'
        else Breaks true contents contents' ∨
          Prolongs true contents contents' ∧ Breaks false next next'
  | .stride bound1 bound2 step contents next, .stride bound1' bound2' step' contents' next' =>
      (bound1 = bound1' ∧ bound2 = bound2' ∧ step = step') ∧ (Breaks true contents contents' ∨
        Prolongs true contents contents' ∧ Breaks false next next')
  | .grid bound1 bound2 nextdim code next, .grid bound1' bound2' nextdim' code' next' =>
      (bound1 = bound1' ∧ bound2 = bound2') ∧
        if nextdim ≠ .null then
          ¬ (code = none ∧ code' = none) ∨ Breaks true nextdim nextdim' ∨
            Prolongs true nextdim nextdim' ∧ Breaks false next next'
        else code = code' ∧ Breaks false next next'
  | _, .null => head = false
  | _, _ => True

omit [DecidableEq Code] in
theorem next_compared {sons rest : Option Bool} :
    ((do if ← sons then rest else some false) = none ↔
      sons = none ∨ sons = some true ∧ rest = none) ∧
    ((do if ← sons then rest else some false) = some true ↔
      sons = some true ∧ rest = some true) := by
  cases sons with
  | none => simp
  | some equal => cases equal <;> simp

/-- What the comparison says. -/
theorem compareChains_iff (head : Bool) (tree1 tree2 : WlNode Code) :
    (compareChains head tree1 tree2 = none ↔ Breaks head tree1 tree2) ∧
      (compareChains head tree1 tree2 = some true ↔ Prolongs head tree1 tree2) := by
  induction tree1 generalizing head tree2 with
  | null => cases tree2 <;> cases head <;> simp [compareChains, Breaks, Prolongs]
  | block unrolled bound1 bound2 step contents nextdim next inner deeper rest =>
      cases tree2 with
      | null => cases head <;> simp [compareChains, Breaks, Prolongs]
      | stride _ _ _ _ _ | grid _ _ _ _ _ => simp [compareChains, Breaks, Prolongs]
      | block unrolled' bound1' bound2' step' contents' nextdim' next' =>
          by_cases kind : unrolled = unrolled'
          · by_cases equal : bound1 = bound1' ∧ bound2 = bound2' ∧ step = step'
            · simp only [compareChains, Breaks, Prolongs, kind, equal, ne_eq, not_true_eq_false,
                ↓reduceIte, true_and, and_self, false_or]
              by_cases last : nextdim = .null
              · simp only [last, not_true_eq_false, ↓reduceIte]
                rw [next_compared.1, next_compared.2, (rest ..).1, (rest ..).2, (inner ..).1,
                  (inner ..).2]
                exact ⟨Iff.rfl, Iff.rfl⟩
              · by_cases empty : contents = .null ∧ contents' = .null
                · simp only [last, empty, not_false_eq_true, not_true_eq_false, and_self,
                    ↓reduceIte, false_or, true_and]
                  rw [next_compared.1, next_compared.2, (rest ..).1, (rest ..).2, (deeper ..).1,
                    (deeper ..).2]
                  exact ⟨Iff.rfl, Iff.rfl⟩
                · simp [last, empty]
            · simp [compareChains, Breaks, Prolongs, kind, equal]
          · simp [compareChains, Breaks, Prolongs, kind]
  | stride bound1 bound2 step contents next inner rest =>
      cases tree2 with
      | null => cases head <;> simp [compareChains, Breaks, Prolongs]
      | block _ _ _ _ _ _ _ | grid _ _ _ _ _ => simp [compareChains, Breaks, Prolongs]
      | stride bound1' bound2' step' contents' next' =>
          simp only [compareChains, Breaks, Prolongs]
          split
          next equal =>
            rw [next_compared.1, next_compared.2, (inner ..).1, (inner ..).2, (rest ..).1,
              (rest ..).2]
            simp only [equal, true_and, and_self]
          next differ => simp [differ]
  | grid bound1 bound2 nextdim code next deeper rest =>
      cases tree2 with
      | null => cases head <;> simp [compareChains, Breaks, Prolongs]
      | block _ _ _ _ _ _ _ | stride _ _ _ _ _ => simp [compareChains, Breaks, Prolongs]
      | grid bound1' bound2' nextdim' code' next' =>
          by_cases equal : bound1 = bound1' ∧ bound2 = bound2'
          · simp only [compareChains, Breaks, Prolongs, equal, and_self, ↓reduceIte, true_and]
            by_cases last : nextdim = .null
            · simp only [last, ne_eq, not_true_eq_false, ↓reduceIte]
              rw [next_compared.1, next_compared.2, (rest ..).1, (rest ..).2]
              simp
            · by_cases empty : code = none ∧ code' = none
              · simp only [last, empty, ne_eq, not_false_eq_true, not_true_eq_false, and_self,
                  ↓reduceIte, false_or, true_and]
                rw [next_compared.1, next_compared.2, (rest ..).1, (rest ..).2, (deeper ..).1,
                  (deeper ..).2]
                exact ⟨Iff.rfl, Iff.rfl⟩
              · simp [last, empty]
          · simp [compareChains, Breaks, Prolongs, equal]

end Comparison

section Normalising

variable {step lower : Int} {grids next : WlNode Code} {bound1 bound2 : Int}

omit [DecidableEq Code]

theorem picks_shift {offset amount : Int} {dim : Nat} {windows : Nat → Window} {iv : Nat → Int}
    {code : Code} : Picks offset dim windows iv code (shiftGrids amount grids) ↔
      Picks (offset + amount) dim windows iv code grids := by
  induction grids with
  | grid bound1 bound2 nextdim code' next deeper rest =>
      have from1 : bound1 - amount ≤ offset ↔ bound1 ≤ offset + amount := by omega
      have to2 : offset < bound2 - amount ↔ offset + amount < bound2 := by omega
      rw [shiftGrids, Picks, Picks, rest, from1, to2]
  | null | block _ _ _ _ _ _ _ | stride _ _ _ _ _ => rfl

theorem shiftGrids_grids {amount : Int} (above : 0 ≤ amount)
    (sorted : Grids step lower grids) : Grids step (lower - amount) (shiftGrids amount grids) := by
  induction grids generalizing lower with
  | grid bound1 bound2 nextdim code' next deeper rest =>
      obtain ⟨from1, wide, within, more⟩ := sorted
      refine ⟨by omega, by omega, by omega, ?_⟩
      rcases more with rfl | sorted
      · exact .inl rfl
      · exact .inr (rest sorted)
  | null | block _ _ _ _ _ _ _ | stride _ _ _ _ _ => cases sorted

theorem shiftGrids_kind (amount : Int) : (shiftGrids amount grids).kind = grids.kind := by
  cases grids with
  | block unrolled _ _ _ _ _ _ => cases unrolled <;> rfl
  | null | stride _ _ _ _ _ | grid _ _ _ _ _ => rfl

theorem shiftGrids_wellFormed (amount : Int) (wf : WellFormed grids) :
    WellFormed (shiftGrids amount grids) := by
  induction grids with
  | grid bound1 bound2 nextdim code' next deeper rest =>
      obtain ⟨wide, sons, follows, wfDim, wfNext⟩ := wf
      refine ⟨by omega, sons, ?_, wfDim, rest wfNext⟩
      rw [Follows, shiftGrids_kind]
      exact follows
  | null | block _ _ _ _ _ _ _ | stride _ _ _ _ _ => exact wf

/-- A stride that begins where its first grid does. -/
theorem shift_same (sorted : Grids step 0 grids) :
    Same (.stride bound1 bound2 step grids next)
      (.stride (bound1 + offset grids) bound2 step (shiftGrids (offset grids) grids) next) := by
  intro base dim windows iv code deep
  have above : 0 ≤ offset grids := sorted.offset_le
  rw [runs_stride sorted step, runs_stride (shiftGrids_grids above sorted) step]
  apply or_congr_left
  constructor
  · rintro ⟨first, ⟨k, start, begins⟩, ends, picked⟩
    refine ⟨first - offset grids, ⟨k, by omega, by omega⟩, ends, ?_⟩
    rw [picks_shift] at picked
    rwa [show iv dim - (first - offset grids) = iv dim - first + offset grids by omega]
  · rintro ⟨first, ⟨k, start, begins⟩, ends, picked⟩
    have range := sorted.from_offset.picks_range picked
    refine ⟨first + offset grids, ⟨k, by omega, by omega⟩, ends, ?_⟩
    rw [picks_shift]
    rwa [show iv dim - (first + offset grids) + offset grids = iv dim - first by omega]

/-- A grid that fills the step range is one of every index. -/
theorem fill_same {nextdim : WlNode Code} {code : Option Code} (positive : 0 < step) :
    Same (.stride bound1 bound2 step (.grid 0 step nextdim code .null) next)
      (.stride bound1 bound2 1 (.grid 0 1 nextdim code .null) next) := by
  intro base dim windows iv executed deep
  have sorted : Grids step 0 (.grid 0 step nextdim code .null) :=
    ⟨Int.le_refl 0, positive, Int.le_refl step, .inl rfl⟩
  have sorted' : Grids 1 0 (.grid 0 1 nextdim code .null) := ⟨by omega, by omega, by omega, .inl rfl⟩
  rw [runs_stride sorted step, runs_stride sorted' 1]
  apply or_congr_left
  constructor
  · rintro ⟨first, ⟨k, start, begins⟩, ends, picked⟩
    obtain ⟨from1, to2, done⟩ := picked.resolve_right id
    have exact : first = iv dim := by omega
    -- the period of `step` indices that this index is in
    have split := Int.emod_add_mul_ediv k step
    have below := Int.emod_lt_of_pos k positive
    have above := Int.emod_nonneg k (Int.ne_of_gt positive)
    have count :=
      Int.toNat_of_nonneg (Int.ediv_nonneg (Int.natCast_nonneg k) (Int.le_of_lt positive))
    have period : ((k : Int) / step).toNat * step = step * (k / step) := by
      rw [count, Int.mul_comm]
    refine ⟨(windows dim).first + bound1 + step * (k / step), ⟨(k / step).toNat, ?_, ?_⟩, ends,
      .inl ⟨?_, ?_, done⟩⟩
    all_goals omega
  · rintro ⟨first, ⟨k, start, begins⟩, ends, picked⟩
    obtain ⟨from1, to2, done⟩ := picked.resolve_right id
    have ahead : 0 ≤ k * step := Int.mul_nonneg (Int.natCast_nonneg k) (Int.le_of_lt positive)
    refine ⟨iv dim, ⟨(iv dim - (windows dim).first - bound1).toNat, ?_, ends⟩, ends,
      .inl ⟨?_, ?_, done⟩⟩
    all_goals omega

theorem fillStep_spec (wf : WellFormed (.stride bound1 bound2 step grids next))
    (none : offset grids = 0) :
    Same (.stride bound1 bound2 step grids next)
        (.stride bound1 bound2 (fillStep step grids).1 (fillStep step grids).2 next) ∧
      WellFormed (.stride bound1 bound2 (fillStep step grids).1 (fillStep step grids).2 next) := by
  obtain ⟨busy, positive, sorted, follows, wfGrids, wfNext⟩ := wf
  cases grids with
  | null | block _ _ _ _ _ _ _ | stride _ _ _ _ _ => cases sorted
  | grid lower upper nextdim code more =>
      rw [fillStep]
      split
      next full =>
        obtain ⟨rfl, rfl⟩ := full
        have alone : more = .null := by
          rcases sorted.2.2.2 with rfl | rest
          · rfl
          · cases more with
            | grid _ _ _ _ _ =>
                obtain ⟨from1, wide, within, -⟩ := rest
                omega
            | null | block _ _ _ _ _ _ _ | stride _ _ _ _ _ => cases rest
        subst alone
        refine ⟨fill_same positive, busy, Int.one_pos, ⟨by omega, by omega, by omega, .inl rfl⟩,
          follows, ⟨by omega, wfGrids.2⟩, wfNext⟩
      next => exact ⟨Same.refl _, busy, positive, sorted, follows, wfGrids, wfNext⟩

theorem normalizeStride_spec (wf : WellFormed (.stride bound1 bound2 step grids next)) :
    Same (.stride bound1 bound2 step grids next) (normalizeStride bound1 bound2 step grids next) ∧
      WellFormed (normalizeStride bound1 bound2 step grids next) := by
  obtain ⟨busy, positive, sorted, follows, wfGrids, wfNext⟩ := wf
  by_cases moved : 0 < offset grids
  · rw [normalizeStride, normalizeGrids, if_pos moved]
    have zero : offset (shiftGrids (offset grids) grids) = 0 := by
      cases grids with
      | grid _ _ _ _ _ => exact Int.sub_self _
      | null | block _ _ _ _ _ _ _ | stride _ _ _ _ _ => rfl
    have shifted : WellFormed (.stride (bound1 + offset grids) bound2 step
        (shiftGrids (offset grids) grids) next) := by
      refine ⟨by omega, positive, ?_, follows, shiftGrids_wellFormed _ wfGrids, wfNext⟩
      simpa using shiftGrids_grids (Int.le_of_lt moved) sorted.from_offset
    obtain ⟨same, wf⟩ := fillStep_spec shifted zero
    exact ⟨(shift_same sorted).trans same, wf⟩
  · rw [normalizeStride, normalizeGrids, if_neg moved]
    have zero : offset grids = 0 := by
      have above := sorted.offset_le
      omega
    exact fillStep_spec ⟨busy, positive, sorted, follows, wfGrids, wfNext⟩ zero

end Normalising

section Joining

variable {window : Window} {bound1 bound2 bound2' step first : Int}

omit [DecidableEq Code]

/-- Where the step divides the width, the last period is complete. -/
theorem starts_room (positive : 0 < step) (whole : step ∣ bound2 - bound1)
    (starts : window.Starts bound1 bound2 step first) : first + step ≤ window.first + bound2 := by
  obtain ⟨m, width⟩ := whole
  obtain ⟨k, start, begins⟩ := starts
  have inside : (k : Int) * step < m * step := by
    rw [Window.stop] at begins
    rw [Int.mul_comm m]
    omega
  have fewer : (k : Int) + 1 ≤ m := Int.lt_of_mul_lt_mul_right inside (Int.le_of_lt positive)
  have complete := Int.mul_le_mul_of_nonneg_right fewer (Int.le_of_lt positive)
  rw [Int.add_mul, Int.one_mul, Int.mul_comm m] at complete
  omega

/-- Then the starts of two neighbours are those of the concatenation. -/
theorem starts_joined (positive : 0 < step) (whole : step ∣ bound2 - bound1)
    (wide : bound1 < bound2) (wide' : bound2 < bound2') :
    window.Starts bound1 bound2' step first ↔
      window.Starts bound1 bound2 step first ∨ window.Starts bound2 bound2' step first := by
  obtain ⟨m, width⟩ := id whole
  have count : 0 < m := by
    apply Int.pos_of_mul_pos_left (b := step) _ positive
    rw [Int.mul_comm]
    omega
  constructor
  · rintro ⟨k, start, begins⟩
    rw [Window.stop] at begins
    by_cases inside : first < window.first + bound2
    · exact .inl ⟨k, start, by rw [Window.stop]; omega⟩
    · have many : m ≤ k := by
        apply Int.le_of_mul_le_mul_left _ positive
        rw [Int.mul_comm step k]
        omega
      refine .inr ⟨(k - m).toNat, ?_, begins⟩
      rw [Int.toNat_of_nonneg (Int.sub_nonneg_of_le many), Int.sub_mul, Int.mul_comm m]
      omega
  · rintro (⟨k, start, begins⟩ | ⟨k, start, begins⟩)
    · refine ⟨k, start, ?_⟩
      rw [Window.stop] at begins ⊢
      omega
    · refine ⟨m.toNat + k, ?_, begins⟩
      rw [Int.natCast_add, Int.toNat_of_nonneg (Int.le_of_lt count), Int.add_mul, Int.mul_comm m]
      omega

variable {contents nextdim next : WlNode Code}

theorem block_join {unrolled unrolled' : Bool} (positive : 0 < step)
    (whole : step ∣ bound2 - bound1) (wide : bound1 < bound2) (wide' : bound2 < bound2') :
    Same (.block unrolled bound1 bound2 step contents nextdim
        (.block unrolled' bound2 bound2' step contents nextdim next))
      (.block unrolled bound1 bound2' step contents nextdim next) := by
  intro base dim windows iv code deep
  simp only [Runs, starts_joined positive whole wide wide', or_and_right, exists_or, or_assoc]
  apply or_congr_left
  apply exists_congr
  intro first
  apply and_congr_right
  intro starts
  have room := starts_room positive whole starts
  have clip : min (first + step) ((windows dim).stop bound2') =
      min (first + step) ((windows dim).stop bound2) := by
    rw [Window.stop, Window.stop]
    omega
  rw [clip]

theorem stride_join {lower : Int} (sorted : Grids step lower contents) (positive : 0 < step)
    (whole : step ∣ bound2 - bound1) (wide : bound1 < bound2) (wide' : bound2 < bound2') :
    Same (.stride bound1 bound2 step contents (.stride bound2 bound2' step contents next))
      (.stride bound1 bound2' step contents next) := by
  intro base dim windows iv code deep
  rw [runs_stride sorted step, runs_stride sorted step, runs_stride sorted step]
  simp only [starts_joined positive whole wide wide', or_and_right, exists_or, or_assoc]
  apply or_congr_left
  apply exists_congr
  intro first
  apply and_congr_right
  intro starts
  have room := starts_room positive whole starts
  apply and_congr_left
  intro picked
  have range := sorted.picks_range picked
  rw [Window.stop, Window.stop]
  omega

theorem grid_join {code : Option Code} (wide : bound1 < bound2) (wide' : bound2 < bound2') :
    Same (.grid bound1 bound2 nextdim code (.grid bound2 bound2' nextdim code next))
      (.grid bound1 bound2' nextdim code next) := by
  intro base dim windows iv executed deep
  simp only [Runs, ← or_assoc]
  apply or_congr_left
  simp only [← and_assoc, ← or_and_right]
  apply and_congr_left
  intro _
  rw [Window.stop, Window.stop]
  omega

end Joining

section Concatenating

/-- A node and its successor have the same sons. -/
def EqualSons : WlNode Code → Prop
  | .block _ _ _ _ contents nextdim (.block _ _ _ _ contents' nextdim' _) =>
      contents = contents' ∧ nextdim = nextdim'
  | .stride _ _ _ contents (.stride _ _ _ contents' _) => contents = contents'
  | .grid _ _ nextdim code (.grid _ _ nextdim' code' _) => nextdim = nextdim' ∧ code = code'
  | _ => True

/-- Where the successor begins anew the node begins anew as well, once it is prolonged. -/
def KeepsPhase : WlNode Code → Prop
  | .block _ bound1 _ step _ _ (.block _ bound1' bound2' step' _ _ _)
  | .stride bound1 _ step _ (.stride bound1' bound2' step' _ _) =>
      ∀ k : Nat, bound1' + k * step' < bound2' → ∃ j : Nat, bound1' + k * step' = bound1 + j * step
  | _ => True

/-- A node is concatenated with a successor of equal sons and in the same phase only. -/
def JoinedRight (node : WlNode Code) : Prop :=
  concats node = some true → EqualSons node ∧ KeepsPhase node

/-- Sons that are compared do not differ in the length of chains only, and the step of a block
divides its width. -/
def Harmless : WlNode Code → Prop
  | .block _ bound1 bound2 step contents nextdim
      (.block _ bound1' _ step' contents' nextdim' _) =>
      step = step' → bound2 = bound1' → ¬ Breaks true contents contents' ∧
        (Prolongs true contents contents' → ¬ Breaks true nextdim nextdim' ∧
          (Prolongs true nextdim nextdim' →
            contents = contents' ∧ nextdim = nextdim' ∧ step ∣ bound2 - bound1))
  | .stride bound1 bound2 step contents (.stride bound1' _ step' contents' _) =>
      step = step' → step ∣ bound2 - bound1 → bound2 = bound1' →
        ¬ Breaks true contents contents' ∧
          (Prolongs true contents contents' → contents = contents')
  | .grid _ bound2 nextdim code (.grid bound1' _ nextdim' code' _) =>
      bound2 = bound1' → code = code' → ¬ Breaks true nextdim nextdim' ∧
        (Prolongs true nextdim nextdim' → nextdim = nextdim')
  | _ => True

/-- `P` holds of each node when it is looked at, with its sons and successors optimised. -/
def Visited (P : WlNode Code → Prop) : WlNode Code → Prop
  | .null => True
  | .block unrolled bound1 bound2 step contents nextdim next =>
      Visited P next ∧ Visited P contents ∧ Visited P nextdim ∧
        ∀ next', optWl next = some next' → ∀ contents', optWl contents = some contents' →
          ∀ nextdim', optWl nextdim = some nextdim' →
          P (.block unrolled bound1 bound2 step contents' nextdim' next')
  | .stride bound1 bound2 step contents next =>
      Visited P next ∧ Visited P contents ∧
        ∀ next', optWl next = some next' → ∀ contents', optWl contents = some contents' →
          P (normalizeStride bound1 bound2 step contents' next')
  | .grid bound1 bound2 nextdim code next =>
      Visited P next ∧ Visited P nextdim ∧
        ∀ next', optWl next = some next' → ∀ nextdim', optWl nextdim = some nextdim' →
          P (.grid bound1 bound2 nextdim' code next')

/-- The optimised tree executes what the tree executes, and nothing is concatenated wrongly. -/
def Preserved (tree : WlNode Code) : Prop :=
  (∃ tree', optWl tree = some tree' ∧ Same tree tree') ∧ Visited JoinedRight tree

section Steps

variable {node : WlNode Code}

omit [DecidableEq Code] in
/-- Two neighbours that meet are in phase if the step divides the width of the first. -/
theorem phase_iff {bound1 bound2 bound2' step : Int} (positive : 0 < step)
    (wide : bound1 < bound2) (wide' : bound2 < bound2') :
    (∀ k : Nat, bound2 + k * step < bound2' → ∃ j : Nat, bound2 + k * step = bound1 + j * step) ↔
      step ∣ bound2 - bound1 := by
  constructor
  · intro phase
    obtain ⟨j, same⟩ := phase 0 (by omega)
    exact ⟨j, by rw [Int.mul_comm step]; omega⟩
  · rintro ⟨m, width⟩ k _
    have count : 0 < m := by
      apply Int.pos_of_mul_pos_left (b := step) _ positive
      rw [Int.mul_comm]
      omega
    refine ⟨m.toNat + k, ?_⟩
    rw [Int.natCast_add, Int.toNat_of_nonneg (Int.le_of_lt count), Int.add_mul, Int.mul_comm m]
    omega

theorem compared (tree1 tree2 : WlNode Code) :
    (compareWlTrees tree1 tree2 = none ↔ Breaks true tree1 tree2) ∧
      (compareWlTrees tree1 tree2 = some true ↔ Prolongs true tree1 tree2) :=
  compareChains_iff true tree1 tree2

/-- A step does no harm exactly if it comes to an end and joins equal sons in phase. -/
theorem harmless_iff (wf : WellFormed node) :
    Harmless node ↔ concats node ≠ none ∧ JoinedRight node := by
  cases node with
  | null => simp [Harmless, concats, JoinedRight]
  | block unrolled bound1 bound2 step contents nextdim next =>
      cases next with
      | null | stride _ _ _ _ _ | grid _ _ _ _ _ => simp [Harmless, concats, JoinedRight]
      | block unrolled' bound1' bound2' step' contents' nextdim' next' =>
          obtain ⟨wide, positive, -, -, -, -, wide', -⟩ := wf
          rw [Harmless, JoinedRight, concats]
          by_cases meet : step = step' ∧ bound2 = bound1'
          · obtain ⟨rfl, rfl⟩ := meet
            simp only [and_self, ↓reduceIte, forall_true_left, ne_eq, EqualSons, KeepsPhase,
              phase_iff positive wide wide']
            rw [next_compared.1, next_compared.2, (compared ..).1, (compared ..).1,
              (compared ..).2, (compared ..).2]
            tauto
          · simp only [if_neg meet]
            tauto
  | stride bound1 bound2 step contents next =>
      cases next with
      | null | block _ _ _ _ _ _ _ | grid _ _ _ _ _ => simp [Harmless, concats, JoinedRight]
      | stride bound1' bound2' step' contents' next' =>
          obtain ⟨busy, positive, sorted, -, -, busy', -, sorted', -⟩ := wf
          have wide : bound1 < bound2 := by
            have above := sorted.offset_le
            omega
          have wide' : bound1' < bound2' := by
            have above := sorted'.offset_le
            omega
          rw [Harmless, JoinedRight, concats]
          by_cases meet : step = step' ∧ (bound2 - bound1).tmod step = 0 ∧ bound2 = bound1'
          · obtain ⟨rfl, whole, rfl⟩ := meet
            have phase := (phase_iff positive wide wide').mpr (Int.dvd_of_tmod_eq_zero whole)
            simp only [whole, and_self, ↓reduceIte, forall_true_left, ne_eq, EqualSons,
              KeepsPhase, Int.dvd_of_tmod_eq_zero whole, (compared ..).1, (compared ..).2]
            tauto
          · simp only [if_neg meet]
            rw [Int.dvd_iff_tmod_eq_zero]
            tauto
  | grid bound1 bound2 nextdim code next =>
      cases next with
      | null | block _ _ _ _ _ _ _ | stride _ _ _ _ _ => simp [Harmless, concats, JoinedRight]
      | grid bound1' bound2' nextdim' code' next' =>
          rw [Harmless, JoinedRight, concats]
          by_cases meet : bound2 = bound1' <;> by_cases same : code = code'
          · simp only [meet, same, ↓reduceIte, forall_true_left, ne_eq, EqualSons, KeepsPhase,
              (compared ..).1, (compared ..).2]
            tauto
          all_goals simp [meet, same]

/-- What a tree and the tree it becomes have in common. -/
structure Optimised (tree tree' : WlNode Code) : Prop where
  same : Same tree tree'
  wf : WellFormed tree'
  kind : tree'.kind = tree.kind
  offset : offset tree' = offset tree
  grids : ∀ step lower, Grids step lower tree → Grids step lower tree'

theorem concate_spec (wf : WellFormed node) (harmless : Harmless node)
    (joined : concats node = some true) : Optimised node (concate node) := by
  obtain ⟨-, right⟩ := (harmless_iff wf).mp harmless
  obtain ⟨equal, phase⟩ := right joined
  cases node with
  | null => cases joined
  | block unrolled bound1 bound2 step contents nextdim next =>
      cases next with
      | null | stride _ _ _ _ _ | grid _ _ _ _ _ => cases joined
      | block unrolled' bound1' bound2' step' contents' nextdim' next' =>
          obtain ⟨wide, positive, sons, follows, wfCont, wfDim, wide', -, -, follows', -, -, wfNext⟩ :=
            wf
          obtain ⟨rfl, rfl⟩ := equal
          obtain ⟨rfl, rfl⟩ : step = step' ∧ bound2 = bound1' := by
            by_contra apart
            rw [concats, if_neg apart] at joined
            cases joined
          have whole := (phase_iff positive wide wide').mp phase
          refine ⟨block_join positive whole wide wide', ?_, ?_, rfl, fun _ _ grids => grids.elim⟩
          · have follows' : Follows (if unrolled then .ublock else .block) next' := by
              cases unrolled <;> cases unrolled' <;> simp_all [Follows, WlNode.kind]
            exact ⟨Int.lt_trans wide wide', positive, sons, follows', wfCont, wfDim, wfNext⟩
          · cases unrolled <;> rfl
  | stride bound1 bound2 step contents next =>
      cases next with
      | null | block _ _ _ _ _ _ _ | grid _ _ _ _ _ => cases joined
      | stride bound1' bound2' step' contents' next' =>
          obtain ⟨busy, positive, sorted, -, wfCont, busy', -, -, follows', -, wfNext⟩ := wf
          have above := sorted.offset_le
          obtain rfl : contents = contents' := equal
          obtain ⟨rfl, whole, rfl⟩ : step = step' ∧ (bound2 - bound1).tmod step = 0 ∧
              bound2 = bound1' := by
            by_contra apart
            rw [concats, if_neg apart] at joined
            cases joined
          refine ⟨stride_join sorted positive (Int.dvd_of_tmod_eq_zero whole) (by omega) (by omega),
            ⟨by omega, positive, sorted, follows', wfCont, wfNext⟩, rfl, rfl,
            fun _ _ grids => grids.elim⟩
  | grid bound1 bound2 nextdim code next =>
      cases next with
      | null | block _ _ _ _ _ _ _ | stride _ _ _ _ _ => cases joined
      | grid bound1' bound2' nextdim' code' next' =>
          obtain ⟨wide, sons, -, wfDim, wide', -, follows', -, wfNext⟩ := wf
          obtain ⟨rfl, rfl⟩ := equal
          obtain rfl : bound2 = bound1' := by
            by_contra apart
            rw [concats, if_neg apart] at joined
            cases joined
          refine ⟨grid_join wide wide', ⟨Int.lt_trans wide wide', sons, follows', wfDim, wfNext⟩,
            rfl, rfl, ?_⟩
          rintro step lower ⟨from1, -, -, more⟩
          obtain ⟨-, -, within, more'⟩ := more.resolve_left (by simp)
          exact ⟨from1, Int.lt_trans wide wide', within, more'⟩

/-- A harmless step comes to an end. -/
theorem concatenate_spec (wf : WellFormed node) (harmless : Harmless node) :
    ∃ node', concatenate node = some node' ∧ Optimised node node' := by
  cases joined : concats node with
  | none => exact absurd joined ((harmless_iff wf).mp harmless).1
  | some join =>
      rw [concatenate, joined]
      cases join with
      | false => exact ⟨node, rfl, Same.refl node, wf, rfl, rfl, fun _ _ grids => grids⟩
      | true => exact ⟨concate node, rfl, concate_spec wf harmless joined⟩

theorem concatenate_none : concatenate node = none ↔ concats node = none := by
  rw [concatenate]
  cases concats node with
  | none => simp
  | some join => cases join <;> simp

omit [DecidableEq Code] in
theorem Follows.of_kind {kind : Kind} {next next' : WlNode Code} (follows : Follows kind next)
    (same : next'.kind = next.kind) : Follows kind next' := by
  rwa [Follows, same]

end Steps

end Concatenating

section Deciding

instance (head : Bool) (tree1 tree2 : WlNode Code) : Decidable (Breaks head tree1 tree2) :=
  decidable_of_iff _ (compareChains_iff head tree1 tree2).1

instance (head : Bool) (tree1 tree2 : WlNode Code) : Decidable (Prolongs head tree1 tree2) :=
  decidable_of_iff _ (compareChains_iff head tree1 tree2).2

instance : DecidablePred (Harmless : WlNode Code → Prop)
  | .block _ _ _ _ _ _ (.block _ _ _ _ _ _ _) =>
      inferInstanceAs (Decidable (_ → _ → _ ∧ (_ → _ ∧ (_ → _ ∧ _ ∧ _))))
  | .stride _ _ _ _ (.stride _ _ _ _ _) => inferInstanceAs (Decidable (_ → _ → _ → _ ∧ (_ → _)))
  | .grid _ _ _ _ (.grid _ _ _ _ _) => inferInstanceAs (Decidable (_ → _ → _ ∧ (_ → _)))
  | .null | .block _ _ _ _ _ _ .null | .block _ _ _ _ _ _ (.stride ..)
  | .block _ _ _ _ _ _ (.grid ..) | .stride _ _ _ _ .null | .stride _ _ _ _ (.block ..)
  | .stride _ _ _ _ (.grid ..) | .grid _ _ _ _ .null | .grid _ _ _ _ (.block ..)
  | .grid _ _ _ _ (.stride ..) => .isTrue trivial

instance decidableFound {α : Type} (found : Option α) (P : α → Prop) [DecidablePred P] :
    Decidable (∀ a, found = some a → P a) :=
  match found with
  | none => .isTrue fun _ none => nomatch none
  | some a => decidable_of_iff (P a) ⟨fun holds _ same => Option.some.inj same ▸ holds,
      fun all => all a rfl⟩

instance decidableVisited (P : WlNode Code → Prop) [DecidablePred P] :
    (tree : WlNode Code) → Decidable (Visited P tree)
  | .null => .isTrue trivial
  | .block _ _ _ _ contents nextdim next =>
      have := decidableVisited P next
      have := decidableVisited P contents
      have := decidableVisited P nextdim
      inferInstanceAs (Decidable (_ ∧ _ ∧ _ ∧ _))
  | .stride _ _ _ contents next =>
      have := decidableVisited P next
      have := decidableVisited P contents
      inferInstanceAs (Decidable (_ ∧ _ ∧ _))
  | .grid _ _ nextdim _ next =>
      have := decidableVisited P next
      have := decidableVisited P nextdim
      inferInstanceAs (Decidable (_ ∧ _ ∧ _))

end Deciding

section Trees

variable {tree : WlNode Code}

omit [DecidableEq Code] in
theorem kind_null {tree tree' : WlNode Code} (same : tree'.kind = tree.kind) (null : tree = .null) :
    tree' = .null := by
  subst null
  cases tree' with
  | null => rfl
  | block unrolled _ _ _ _ _ _ => cases unrolled <;> cases same
  | stride _ _ _ _ _ | grid _ _ _ _ _ => cases same

/-- The last step on a node, once its sons are optimised. -/
theorem last_step {node : WlNode Code} (found : optWl tree = concatenate node)
    (sons : Optimised tree node) :
    (Harmless node ↔ optWl tree ≠ none ∧ JoinedRight node) ∧
      (Harmless node → ∃ tree', optWl tree = some tree' ∧ Optimised tree tree') := by
  rw [found, ne_eq, concatenate_none]
  refine ⟨harmless_iff sons.wf, fun harmless => ?_⟩
  obtain ⟨node', ends, optimised⟩ := concatenate_spec sons.wf harmless
  exact ⟨node', ends, sons.same.trans optimised.same, optimised.wf,
    optimised.kind.trans sons.kind, optimised.offset.trans sons.offset,
    fun step lower grids => optimised.grids step lower (sons.grids step lower grids)⟩

section Sons

variable {contents contents' nextdim nextdim' next next' : WlNode Code} {bound1 bound2 step : Int}

omit [DecidableEq Code]

theorem block_sons {unrolled : Bool}
    (wf : WellFormed (.block unrolled bound1 bound2 step contents nextdim next))
    (optNext : Optimised next next') (optCont : Optimised contents contents')
    (optDim : Optimised nextdim nextdim') :
    Optimised (.block unrolled bound1 bound2 step contents nextdim next)
      (.block unrolled bound1 bound2 step contents' nextdim' next') := by
  obtain ⟨wide, positive, sons, follows, -, -, -⟩ := wf
  refine ⟨Same.block unrolled bound1 bound2 step optCont.same optDim.same optNext.same,
    ⟨wide, positive, ?_, follows.of_kind optNext.kind, optCont.wf, optDim.wf, optNext.wf⟩,
    by cases unrolled <;> rfl, rfl, fun _ _ grids => grids.elim⟩
  exact sons.imp (kind_null optCont.kind) (kind_null optDim.kind)

theorem stride_sons (wf : WellFormed (.stride bound1 bound2 step contents next))
    (optNext : Optimised next next') (optCont : Optimised contents contents') :
    contents' ≠ .null ∧ Optimised (.stride bound1 bound2 step contents next)
      (normalizeStride bound1 bound2 step contents' next') := by
  obtain ⟨busy, positive, sorted, follows, -, -⟩ := wf
  have sorted' := optCont.grids step 0 sorted
  have wf' : WellFormed (.stride bound1 bound2 step contents' next') :=
    ⟨by rwa [optCont.offset], positive, sorted', follows.of_kind optNext.kind, optCont.wf,
      optNext.wf⟩
  obtain ⟨same, normal⟩ := normalizeStride_spec wf'
  constructor
  · rintro rfl
    exact sorted'
  · exact ⟨(Same.stride bound1 bound2 step optCont.same optNext.same).trans same, normal, rfl, rfl,
      fun _ _ grids => grids.elim⟩

theorem grid_sons {code : Option Code} (wf : WellFormed (.grid bound1 bound2 nextdim code next))
    (optNext : Optimised next next') (optDim : Optimised nextdim nextdim') :
    Optimised (.grid bound1 bound2 nextdim code next)
      (.grid bound1 bound2 nextdim' code next') := by
  obtain ⟨wide, sons, follows, -, -⟩ := wf
  refine ⟨Same.grid bound1 bound2 code optDim.same optNext.same,
    ⟨wide, sons.imp_left (kind_null optDim.kind), follows.of_kind optNext.kind, optDim.wf,
      optNext.wf⟩, rfl, rfl, ?_⟩
  rintro pace lower ⟨from1, _, within, more⟩
  exact ⟨from1, wide, within, more.imp (kind_null optNext.kind) (optNext.grids pace bound2)⟩

end Sons

/-- Harmless steps come to an end, with a tree that executes the same. -/
theorem optimises (wf : WellFormed tree) (harmless : Visited Harmless tree) :
    ∃ tree', optWl tree = some tree' ∧ Optimised tree tree' := by
  induction tree with
  | null => exact ⟨.null, rfl, Same.refl _, trivial, rfl, rfl, fun _ _ grids => grids⟩
  | block unrolled bound1 bound2 step contents nextdim next inner deeper rest =>
      obtain ⟨harmlessNext, harmlessCont, harmlessDim, here⟩ := harmless
      obtain ⟨next', foundNext, optNext⟩ := rest wf.2.2.2.2.2.2 harmlessNext
      obtain ⟨contents', foundCont, optCont⟩ := inner wf.2.2.2.2.1 harmlessCont
      obtain ⟨nextdim', foundDim, optDim⟩ := deeper wf.2.2.2.2.2.1 harmlessDim
      apply (last_step _ (block_sons wf optNext optCont optDim)).2
        (here next' foundNext contents' foundCont nextdim' foundDim)
      simp [optWl, foundNext, foundCont, foundDim]
  | stride bound1 bound2 step contents next inner rest =>
      obtain ⟨harmlessNext, harmlessCont, here⟩ := harmless
      obtain ⟨next', foundNext, optNext⟩ := rest wf.2.2.2.2.2 harmlessNext
      obtain ⟨contents', foundCont, optCont⟩ := inner wf.2.2.2.2.1 harmlessCont
      obtain ⟨some, sons⟩ := stride_sons wf optNext optCont
      apply (last_step _ sons).2 (here next' foundNext contents' foundCont)
      simp [optWl, foundNext, foundCont, some]
  | grid bound1 bound2 nextdim code next deeper rest =>
      obtain ⟨harmlessNext, harmlessDim, here⟩ := harmless
      obtain ⟨next', foundNext, optNext⟩ := rest wf.2.2.2.2 harmlessNext
      obtain ⟨nextdim', foundDim, optDim⟩ := deeper wf.2.2.2.1 harmlessDim
      apply (last_step _ (grid_sons wf optNext optDim)).2 (here next' foundNext nextdim' foundDim)
      simp [optWl, foundNext, foundDim]

omit [DecidableEq Code] in
theorem forall_found {P : WlNode Code → Prop} {found : Option (WlNode Code)} {tree' : WlNode Code}
    (known : found = some tree') : (∀ t, found = some t → P t) ↔ P tree' := by
  subst known
  constructor
  · exact fun all => all tree' rfl
  · rintro holds _ ⟨⟩
    exact holds

section Ends

variable {contents nextdim next : WlNode Code} {bound1 bound2 step : Int}

-- The sons are optimised before the node, so they end if the node does.

theorem block_ends {unrolled : Bool}
    (ends : optWl (.block unrolled bound1 bound2 step contents nextdim next) ≠ none) :
    optWl next ≠ none ∧ optWl contents ≠ none ∧ optWl nextdim ≠ none := by
  rw [optWl] at ends
  cases foundNext : optWl next with
  | none => simp [foundNext] at ends
  | some next' =>
      cases foundCont : optWl contents with
      | none => simp [foundNext, foundCont] at ends
      | some contents' =>
          refine ⟨Option.some_ne_none _, Option.some_ne_none _, fun stuck => ?_⟩
          simp [foundNext, foundCont, stuck] at ends

theorem stride_ends (ends : optWl (.stride bound1 bound2 step contents next) ≠ none) :
    optWl next ≠ none ∧ optWl contents ≠ none := by
  rw [optWl] at ends
  cases foundNext : optWl next with
  | none => simp [foundNext] at ends
  | some next' =>
      refine ⟨Option.some_ne_none _, fun stuck => ?_⟩
      simp [foundNext, stuck] at ends

theorem grid_ends {code : Option Code}
    (ends : optWl (.grid bound1 bound2 nextdim code next) ≠ none) :
    optWl next ≠ none ∧ optWl nextdim ≠ none := by
  rw [optWl] at ends
  cases foundNext : optWl next with
  | none => simp [foundNext] at ends
  | some next' =>
      refine ⟨Option.some_ne_none _, fun stuck => ?_⟩
      simp [foundNext, stuck] at ends

end Ends

/-- Steps are harmless exactly if all of them come to an end and join nothing wrongly. -/
theorem visited_harmless_iff (wf : WellFormed tree) :
    Visited Harmless tree ↔ optWl tree ≠ none ∧ Visited JoinedRight tree := by
  induction tree with
  | null => simp [Visited, optWl]
  -- in each case `last` settles the node itself once its subtrees have been optimised
  | block unrolled bound1 bound2 step contents nextdim next inner deeper rest =>
      have wfNext := wf.2.2.2.2.2.2
      have wfCont := wf.2.2.2.2.1
      have wfDim := wf.2.2.2.2.2.1
      have last (harmlessNext : Visited Harmless next) (harmlessCont : Visited Harmless contents)
          (harmlessDim : Visited Harmless nextdim) :
          (∀ next', optWl next = some next' → ∀ contents', optWl contents = some contents' →
            ∀ nextdim', optWl nextdim = some nextdim' →
              Harmless (.block unrolled bound1 bound2 step contents' nextdim' next')) ↔
          optWl (.block unrolled bound1 bound2 step contents nextdim next) ≠ none ∧
            ∀ next', optWl next = some next' → ∀ contents', optWl contents = some contents' →
              ∀ nextdim', optWl nextdim = some nextdim' →
                JoinedRight (.block unrolled bound1 bound2 step contents' nextdim' next') := by
        obtain ⟨next', foundNext, optNext⟩ := optimises wfNext harmlessNext
        obtain ⟨contents', foundCont, optCont⟩ := optimises wfCont harmlessCont
        obtain ⟨nextdim', foundDim, optDim⟩ := optimises wfDim harmlessDim
        simp only [forall_found foundNext, forall_found foundCont, forall_found foundDim]
        exact (last_step (by simp [optWl, foundNext, foundCont, foundDim])
          (block_sons wf optNext optCont optDim)).1
      constructor
      · rintro ⟨harmlessNext, harmlessCont, harmlessDim, here⟩
        obtain ⟨ends, joined⟩ := (last harmlessNext harmlessCont harmlessDim).mp here
        exact ⟨ends, ((rest wfNext).mp harmlessNext).2, ((inner wfCont).mp harmlessCont).2,
          ((deeper wfDim).mp harmlessDim).2, joined⟩
      · rintro ⟨ends, joinedNext, joinedCont, joinedDim, here⟩
        obtain ⟨endsNext, endsCont, endsDim⟩ := block_ends ends
        have harmlessNext := (rest wfNext).mpr ⟨endsNext, joinedNext⟩
        have harmlessCont := (inner wfCont).mpr ⟨endsCont, joinedCont⟩
        have harmlessDim := (deeper wfDim).mpr ⟨endsDim, joinedDim⟩
        exact ⟨harmlessNext, harmlessCont, harmlessDim,
          (last harmlessNext harmlessCont harmlessDim).mpr ⟨ends, here⟩⟩
  | stride bound1 bound2 step contents next inner rest =>
      have wfNext := wf.2.2.2.2.2
      have wfCont := wf.2.2.2.2.1
      have last (harmlessNext : Visited Harmless next)
          (harmlessCont : Visited Harmless contents) :
          (∀ next', optWl next = some next' → ∀ contents', optWl contents = some contents' →
            Harmless (normalizeStride bound1 bound2 step contents' next')) ↔
          optWl (.stride bound1 bound2 step contents next) ≠ none ∧
            ∀ next', optWl next = some next' → ∀ contents', optWl contents = some contents' →
              JoinedRight (normalizeStride bound1 bound2 step contents' next') := by
        obtain ⟨next', foundNext, optNext⟩ := optimises wfNext harmlessNext
        obtain ⟨contents', foundCont, optCont⟩ := optimises wfCont harmlessCont
        obtain ⟨some, sons⟩ := stride_sons wf optNext optCont
        simp only [forall_found foundNext, forall_found foundCont]
        exact (last_step (by simp [optWl, foundNext, foundCont, some]) sons).1
      constructor
      · rintro ⟨harmlessNext, harmlessCont, here⟩
        obtain ⟨ends, joined⟩ := (last harmlessNext harmlessCont).mp here
        exact ⟨ends, ((rest wfNext).mp harmlessNext).2, ((inner wfCont).mp harmlessCont).2, joined⟩
      · rintro ⟨ends, joinedNext, joinedCont, here⟩
        obtain ⟨endsNext, endsCont⟩ := stride_ends ends
        have harmlessNext := (rest wfNext).mpr ⟨endsNext, joinedNext⟩
        have harmlessCont := (inner wfCont).mpr ⟨endsCont, joinedCont⟩
        exact ⟨harmlessNext, harmlessCont, (last harmlessNext harmlessCont).mpr ⟨ends, here⟩⟩
  | grid bound1 bound2 nextdim code next deeper rest =>
      have wfNext := wf.2.2.2.2
      have wfDim := wf.2.2.2.1
      have last (harmlessNext : Visited Harmless next) (harmlessDim : Visited Harmless nextdim) :
          (∀ next', optWl next = some next' → ∀ nextdim', optWl nextdim = some nextdim' →
            Harmless (.grid bound1 bound2 nextdim' code next')) ↔
          optWl (.grid bound1 bound2 nextdim code next) ≠ none ∧
            ∀ next', optWl next = some next' → ∀ nextdim', optWl nextdim = some nextdim' →
              JoinedRight (.grid bound1 bound2 nextdim' code next') := by
        obtain ⟨next', foundNext, optNext⟩ := optimises wfNext harmlessNext
        obtain ⟨nextdim', foundDim, optDim⟩ := optimises wfDim harmlessDim
        simp only [forall_found foundNext, forall_found foundDim]
        exact (last_step (by simp [optWl, foundNext, foundDim]) (grid_sons wf optNext optDim)).1
      constructor
      · rintro ⟨harmlessNext, harmlessDim, here⟩
        obtain ⟨ends, joined⟩ := (last harmlessNext harmlessDim).mp here
        exact ⟨ends, ((rest wfNext).mp harmlessNext).2, ((deeper wfDim).mp harmlessDim).2, joined⟩
      · rintro ⟨ends, joinedNext, joinedDim, here⟩
        obtain ⟨endsNext, endsDim⟩ := grid_ends ends
        have harmlessNext := (rest wfNext).mpr ⟨endsNext, joinedNext⟩
        have harmlessDim := (deeper wfDim).mpr ⟨endsDim, joinedDim⟩
        exact ⟨harmlessNext, harmlessDim, (last harmlessNext harmlessDim).mpr ⟨ends, here⟩⟩

/-- The iteration is preserved exactly if each step of the optimisation is harmless. -/
theorem preserved_iff_harmless (tree : WlNode Code) (wf : WellFormed tree) :
    Preserved tree ↔ Visited Harmless tree := by
  constructor
  · rintro ⟨⟨tree', found, _⟩, joined⟩
    exact (visited_harmless_iff wf).mpr ⟨by simp [found], joined⟩
  · intro harmless
    obtain ⟨tree', found, optimised⟩ := optimises wf harmless
    exact ⟨⟨tree', found, optimised.same⟩, ((visited_harmless_iff wf).mp harmless).2⟩

/-- Two periods of one stride each. -/
def evenStrides : WlNode Bool :=
  .stride 0 2 2 period (.stride 2 4 2 period .null)
where
  period : WlNode Bool := .grid 0 1 .null (some false) (.grid 1 2 .null (some true) .null)

theorem evenStrides_preserved : Preserved evenStrides := by
  apply (preserved_iff_harmless evenStrides _).mpr
  · decide
  · simp [WellFormed, evenStrides, evenStrides.period, Grids, offset, Follows, WlNode.kind]

end Trees

section Mistakes

/-- Even indices up to the second, and every index of the third and fourth. -/
def unevenStrides : WlNode Bool :=
  .stride 0 2 2 (.grid 0 1 .null (some false) .null)
    (.stride 2 4 2 (.grid 0 1 .null (some false) (.grid 1 2 .null (some true) .null)) .null)

/-- Blocks of three, the last of each node cut off. -/
def cutBlocks : WlNode Bool :=
  .block false 0 5 3 period .null (.block false 5 10 3 period .null .null)
where
  period : WlNode Bool :=
    .stride 0 3 3 (.grid 0 1 .null (some false) (.grid 1 3 .null (some true) .null)) .null

theorem unevenStrides_wellFormed : WellFormed unevenStrides := by
  simp [WellFormed, unevenStrides, Grids, offset, Follows, WlNode.kind]

theorem cutBlocks_wellFormed : WellFormed cutBlocks := by
  simp [WellFormed, cutBlocks, cutBlocks.period, Grids, offset, Follows, WlNode.kind]

/-- The end of the second stride and the phase of the second block are lost. -/
theorem iteration_lost :
    (WellFormed unevenStrides ∧
      ¬ ∃ tree', optWl unevenStrides = some tree' ∧ Same unevenStrides tree') ∧
    (WellFormed cutBlocks ∧ ¬ ∃ tree', optWl cutBlocks = some tree' ∧ Same cutBlocks tree') := by
  refine ⟨⟨unevenStrides_wellFormed, ?_⟩, cutBlocks_wellFormed, ?_⟩
  · rintro ⟨tree', found, same⟩
    have joined : optWl unevenStrides =
        some (.stride 0 4 2 (.grid 0 1 .null (some false) .null) .null) := by decide
    cases joined.symm.trans found
    have ran : Runs unevenStrides 0 0 (fun _ => ⟨0, 4⟩) (fun _ => 3) true :=
      .inr (.inl ⟨2, ⟨0, by decide, by decide⟩, .inr (.inl ⟨by decide, by decide, .inr rfl⟩)⟩)
    have runs := (same 0 0 _ _ _ (Nat.le_refl 0)).mpr ran
    simp [Runs] at runs
  · rintro ⟨tree', found, same⟩
    have joined : optWl cutBlocks = some (.block false 0 10 3 cutBlocks.period .null .null) := by
      decide
    cases joined.symm.trans found
    have ran : Runs cutBlocks 0 0 (fun _ => ⟨0, 10⟩) (fun _ => 5) false :=
      .inr (.inl ⟨5, ⟨0, by decide, by decide⟩, .inr (.inl ⟨5, ⟨0, by decide, by decide⟩,
        .inl ⟨by decide, by decide, .inr rfl⟩⟩)⟩)
    have runs := (same 0 0 _ _ _ (Nat.le_refl 0)).mpr ran
    -- the concatenation begins anew at multiples of three only
    rcases runs with ⟨first, ⟨k, start, -⟩, none | inner⟩ | none
    · exact none
    · rcases inner with ⟨first', ⟨j, start', -⟩, here | later⟩ | none
      · obtain ⟨from1, to2, -⟩ := here
        simp only [Function.update_self, Window.stop] at start start' from1 to2
        omega
      · rcases later with ⟨-, -, none | differs⟩ | none
        · exact none
        · cases differs
        · exact none
      · exact none
    · exact none

end Mistakes

end Sac2c.WlTrees
