import Sac2c.OperandTrees
import Mathlib.Algebra.Order.Group.Multiset
import Mathlib.Tactic.Abel

/-!
The rewritten block computes what the block computed. Its variants fit where
they are chosen anew, that is for additions and multiplications, and where the
one variant that is kept happens to be right throughout.
-/

namespace Sac2c.AssociativeLaw

open ArrayValues Totals

variable {Index : Type} {env : Env Index}

section Splitting

variable (info : Info) (defined : Defined) (scope : List (Assign Index)) (prf : Prf)

theorem TCfilterExprs_perm (pred : Operand → Bool) (exprs : List Operand) :
    ((TCfilterExprs pred exprs).1 ++ (TCfilterExprs pred exprs).2).Perm exprs :=
  List.filter_append_perm pred exprs

theorem identifyInverses_perm (inv : InvPrf) (exprs : List Operand)
    (res : List (Operand × Operand)) :
    (pairExprs (identifyInverses scope inv exprs res).1 ++
      (identifyInverses scope inv exprs res).2).Perm (pairExprs res ++ exprs) := by
  fun_induction identifyInverses scope inv exprs res with
  | case1 res => exact .refl _
  | case2 res left exprs right rest found ih =>
      apply ih.trans
      apply List.Perm.trans _ List.perm_middle.symm
      have moved := ((extractInverse_perm found).append_left (pairExprs res)).trans
        List.perm_middle
      exact moved.symm.cons left
  | case3 res left exprs found res' head next ih =>
      rw [next] at ih
      exact (List.perm_middle.trans (ih.cons left)).trans List.perm_middle.symm

theorem inversesOf_perm (exprs : List Operand) :
    (pairExprs (inversesOf scope prf exprs).1 ++ (inversesOf scope prf exprs).2).Perm exprs := by
  unfold inversesOf
  split
  · exact .refl _
  · split
    · exact identifyInverses_perm scope .neg_S exprs []
    · split
      · exact identifyInverses_perm scope .reciproc_S exprs []
      · exact .refl _

theorem filterExternals_perm (exprs : List Operand) :
    ((filterExternals info defined exprs).1 ++ (filterExternals info defined exprs).2).Perm
      exprs := by
  unfold filterExternals
  split
  · exact TCfilterExprs_perm _ exprs
  · split
    · exact TCfilterExprs_perm _ exprs
    · exact .refl _

/-- The parts without inverses, in the order they are combined in. -/
def Parts.lists (parts : Parts) : List (List Operand) :=
  [parts.externals, parts.consts, parts.scalars, parts.vectors]

def Parts.exprs (parts : Parts) : List Operand :=
  pairExprs parts.scalars_inv ++ pairExprs parts.vectors_inv ++ parts.lists.flatten

/-- No operand is lost in the splits, and none is added. -/
theorem splitExprs_perm (exprs : List Operand) :
    (splitExprs info defined scope prf exprs).exprs.Perm exprs := by
  let split := TCfilterExprs (isConst info) exprs
  let ranks := TCfilterExprs (isNonConstScalar info) split.2
  have const := TCfilterExprs_perm (isConst info) exprs
  have rank := TCfilterExprs_perm (isNonConstScalar info) split.2
  have inv := inversesOf_perm scope prf ranks.1
  have inv' := inversesOf_perm scope prf ranks.2
  have ext := filterExternals_perm info defined (inversesOf scope prf ranks.1).2
  have ext' := filterExternals_perm info defined (inversesOf scope prf ranks.2).2
  rw [← Multiset.coe_eq_coe, ← Multiset.coe_add] at const rank inv inv' ext ext'
  -- as multisets the parts add up
  rw [← Multiset.coe_eq_coe, ← const, ← rank, ← inv, ← inv', ← ext, ← ext']
  simp only [splitExprs, Parts.exprs, Parts.lists, List.flatten_cons, List.flatten_nil,
    List.append_nil, ← Multiset.coe_add]
  abel

theorem splitExprs_other (other : prf.isArith = false) (exprs : List Operand) :
    (splitExprs info defined scope prf exprs).scalars_inv = [] ∧
      (splitExprs info defined scope prf exprs).vectors_inv = [] := by
  have none (exprs : List Operand) : (inversesOf scope prf exprs).1 = [] := by
    obtain ⟨notAdd, notMul⟩ := Bool.or_eq_false_iff.mp other
    simp only [inversesOf, notAdd, notMul, Bool.false_eq_true, ↓reduceIte, ite_self]
  exact ⟨none _, none _⟩

end Splitting

section Ranks

variable {ranks rest : List Bool} {groups : List (List Bool)} {variant : Variant}

theorem fitsTree_SxV : FitsTree .SxV ranks ↔ ranks.length ≤ 1 ∨ ranks = [true, false] := by
  match ranks with
  | [] | [_] => simp [FitsTree, Chain]
  | [a, b] => cases a <;> cases b <;> simp [FitsTree, Chain, Variant.ofScl]
  | a :: b :: c :: rest =>
      cases a <;> cases b <;> cases c <;> simp [FitsTree, Chain, Variant.ofScl]

theorem chain_VxS : Chain .VxS false rest ↔ ∀ s ∈ rest, s = true := by
  induction rest with
  | nil => simp [Chain]
  | cons s rest ih => cases s <;> simp [Chain, Variant.ofScl, ih]

theorem fitsTree_VxS : FitsTree .VxS ranks ↔
    ranks.length ≤ 1 ∨ ∃ rest, ranks = false :: rest ∧ ∀ s ∈ rest, s = true := by
  match ranks with
  | [] | [_] => simp [FitsTree, Chain]
  | false :: s :: rest => simp [FitsTree, chain_VxS]
  | true :: s :: rest => cases s <;> simp [FitsTree, Chain, Variant.ofScl]

theorem chain_same {scl : Bool} (same : ∀ s ∈ rest, s = scl) :
    Chain (.ofScl scl scl) scl rest := by
  induction rest with
  | nil => trivial
  | cons s rest ih =>
      obtain ⟨here, same⟩ := List.forall_mem_cons.mp same
      rw [Chain, here, Bool.and_self]
      exact ⟨rfl, ih same⟩

theorem fitsTree_same {scl : Bool} (same : ∀ s ∈ ranks, s = scl) :
    FitsTree (.ofScl scl scl) ranks := by
  cases ranks with
  | nil => trivial
  | cons s rest =>
      obtain ⟨here, same⟩ := List.forall_mem_cons.mp same
      rw [FitsTree, here]
      exact chain_same same

theorem merged_same {scl : Bool} (same : ∀ s ∈ ranks, s = scl) :
    ∀ s ∈ merged and ranks, s = scl := by
  cases ranks with
  | nil => exact same
  | cons s rest =>
      rw [List.forall_mem_cons] at same
      obtain ⟨here, same⟩ := same
      have fold : rest.foldl and scl = scl := by
        induction rest with
        | nil => rfl
        | cons t rest ih =>
            obtain ⟨there, same⟩ := List.forall_mem_cons.mp same
            rw [List.foldl_cons, there, Bool.and_self, ih same]
      intro t member
      rw [List.mem_singleton.mp member, here, fold]

/-- The groups of operands, as scalars or not, a kept variant is right for. -/
def Admits : Variant → List (List Bool) → Prop
  | .SxS, _ | .VxV, _ => True
  | .SxV, groups => groups = [[true], [true, false]]
  | .VxS, groups => ∃ rest groups', groups = (false :: rest) :: groups' ∧
      (∀ s ∈ rest, s = true) ∧ ∀ group ∈ groups', group = [true]

/-- A tree of trees. -/
def FitsGroups (variant : Variant) (groups : List (List Bool)) : Prop :=
  (∀ group ∈ groups, FitsTree variant group) ∧ FitsTree variant (groups.flatMap (merged and))

theorem merged_false : merged and (false :: rest) = [false] := by
  have fold : rest.foldl and false = false := by
    induction rest with
    | nil => rfl
    | cons s rest ih => rw [List.foldl_cons, Bool.false_and, ih]
  rw [merged_cons, fold]

theorem flatMap_merged_singles (singles : ∀ group ∈ groups, group = [true]) :
    ∀ s ∈ groups.flatMap (merged and), s = true := by
  intro s member
  obtain ⟨group, within, member⟩ := List.mem_flatMap.mp member
  rw [singles group within] at member
  exact List.mem_singleton.mp member

theorem merged_short {s : Bool} (short : ranks.length ≤ 1) (single : merged and ranks = [s]) :
    ranks = [s] := by
  match ranks with
  | [] => cases single
  | [_] => exact single
  | _ :: _ :: _ => simp at short

theorem flatMap_merged_nil (nonempty : ∀ group ∈ groups, group ≠ [])
    (none : groups.flatMap (merged and) = []) : groups = [] := by
  cases groups with
  | nil => rfl
  | cons group groups =>
      obtain ⟨s, single⟩ := merged_nonempty and (nonempty group (List.mem_cons_self ..))
      rw [List.flatMap_cons, single] at none
      cases none

/-- A tree with `SxV` throughout has one scalar to the left of a scalar and an array. -/
theorem fitsGroups_SxV (nonempty : ∀ group ∈ groups, group ≠ [])
    (many : 3 ≤ groups.flatten.length) :
    FitsGroups .SxV groups ↔ groups = [[true], [true, false]] := by
  constructor
  · rintro ⟨each, tree⟩
    simp only [fitsTree_SxV] at each tree
    match groups with
    | [] => simp at many
    | [group] =>
        rcases each group (List.mem_cons_self ..) with short | pair
        · simp at many
          omega
        · simp [pair] at many
    | first :: second :: groups =>
        obtain ⟨s, single⟩ := merged_nonempty and (nonempty first (by simp))
        obtain ⟨t, single'⟩ := merged_nonempty and (nonempty second (by simp))
        rw [List.flatMap_cons, List.flatMap_cons, single, single'] at tree
        rcases tree with short | pair
        · simp at short
        obtain ⟨rfl, rfl, none⟩ : s = true ∧ t = false ∧ groups.flatMap (merged and) = [] := by
          simpa using pair
        have rest : groups = [] := by
          apply flatMap_merged_nil _ none
          intro group member
          exact nonempty group (List.mem_cons_of_mem first (List.mem_cons_of_mem second member))
        subst rest
        -- a pair on the left would be an array already
        have scalar : first = [true] := by
          rcases each first (List.mem_cons_self ..) with short | rfl
          · exact merged_short short single
          · cases single
        subst scalar
        rcases each second (by simp) with short | rfl
        · rw [merged_short short single'] at many
          simp at many
        · rfl
  · rintro rfl
    simp [FitsGroups, fitsTree_SxV, merged, total]

/-- A tree with `VxS` throughout takes scalars to one array, one after the other. -/
theorem fitsGroups_VxS (nonempty : ∀ group ∈ groups, group ≠ [])
    (many : 3 ≤ groups.flatten.length) :
    FitsGroups .VxS groups ↔ ∃ rest groups', groups = (false :: rest) :: groups' ∧
      (∀ s ∈ rest, s = true) ∧ ∀ group ∈ groups', group = [true] := by
  constructor
  · rintro ⟨each, tree⟩
    simp only [fitsTree_VxS] at each tree
    cases groups with
    | nil => simp at many
    | cons first groups =>
        obtain ⟨s, single⟩ := merged_nonempty and (nonempty first (List.mem_cons_self ..))
        rw [List.flatMap_cons, single] at tree
        rcases tree with short | ⟨ranks, array, scalars⟩
        · have none : groups = [] := by
            apply flatMap_merged_nil fun group member =>
              nonempty group (List.mem_cons_of_mem first member)
            rw [List.singleton_append, List.length_cons] at short
            exact List.length_eq_zero_iff.mp (by omega)
          subst none
          rcases each first (List.mem_cons_self ..) with short | ⟨rest, same, scalars⟩
          · simp at many
            omega
          · exact ⟨rest, [], by rw [same], scalars, by simp⟩
        · obtain ⟨rfl, rfl⟩ : s = false ∧ groups.flatMap (merged and) = ranks := by
            simpa using array
          have singles : ∀ group ∈ groups, group = [true] := by
            intro group member
            have within := List.mem_cons_of_mem first member
            obtain ⟨t, single'⟩ := merged_nonempty and (nonempty group within)
            have scalar : t = true :=
              scalars t (List.mem_flatMap.mpr ⟨group, member, single' ▸ List.mem_cons_self ..⟩)
            subst scalar
            rcases each group within with short | ⟨rest, rfl, -⟩
            · exact merged_short short single'
            · rw [merged_false] at single'
              cases single'
          rcases each first (List.mem_cons_self ..) with short | ⟨rest, same, scalars⟩
          · exact ⟨[], groups, by rw [merged_short short single], by simp, singles⟩
          · exact ⟨rest, groups, by rw [same], scalars, singles⟩
  · rintro ⟨rest, groups', rfl, scalars, singles⟩
    constructor
    · intro group member
      rcases List.mem_cons.mp member with same | member
      · exact fitsTree_VxS.mpr (.inr ⟨rest, same, scalars⟩)
      · rw [singles group member]
        trivial
    · rw [List.flatMap_cons, merged_false]
      exact fitsTree_VxS.mpr (.inr ⟨_, rfl, flatMap_merged_singles singles⟩)

theorem fitsGroups_same {scl : Bool} (same : ∀ s ∈ groups.flatten, s = scl) :
    FitsGroups (.ofScl scl scl) groups := by
  have each : ∀ group ∈ groups, ∀ s ∈ group, s = scl := fun group within s member =>
    same s (List.mem_flatten.mpr ⟨group, within, member⟩)
  refine ⟨fun group within => fitsTree_same (each group within), fitsTree_same ?_⟩
  intro s member
  obtain ⟨group, within, member⟩ := List.mem_flatMap.mp member
  exact merged_same (each group within) s member

theorem fitsGroups_iff (nonempty : ∀ group ∈ groups, group ≠ [])
    (many : 3 ≤ groups.flatten.length)
    (same : ∀ scl, variant = .ofScl scl scl → ∀ s ∈ groups.flatten, s = scl) :
    FitsGroups variant groups ↔ Admits variant groups := by
  cases variant with
  | SxS => exact iff_of_true (fitsGroups_same (same true rfl)) trivial
  | SxV => exact fitsGroups_SxV nonempty many
  | VxS => exact fitsGroups_VxS nonempty many
  | VxV => exact iff_of_true (fitsGroups_same (same false rfl)) trivial

/-- Empty groups make no difference. -/
theorem fitsGroups_filter :
    FitsGroups variant (groups.filter (!·.isEmpty)) ↔ FitsGroups variant groups := by
  have trees : (groups.filter (!·.isEmpty)).flatMap (merged and) =
      groups.flatMap (merged and) := by
    induction groups with
    | nil => rfl
    | cons group groups ih =>
        cases group with
        | nil => exact ih
        | cons s group => exact congrArg ([group.foldl and s] ++ ·) ih
  rw [FitsGroups, FitsGroups, trees]
  apply and_congr_left'
  constructor
  · intro each group member
    cases group with
    | nil => trivial
    | cons s group => exact each _ (List.mem_filter.mpr ⟨member, rfl⟩)
  · intro each group member
    exact each group (List.mem_of_mem_filter member)

end Ranks

section Rebuilding

variable {prf : Prf} {pre : Pre Index} {parts : Parts} {exprs : List Operand}

/-- What is known of an operand when it has been collected. -/
def Sound (env : Env Index) (prf : Prf) (tmpVar : Avis) (e : Operand) : Prop :=
  e.avis < tmpVar ∧ (prf.isArith = true → e.isSclPrf = (env e.avis).isScl)

theorem Sound.holds (sound : ∀ e ∈ exprs, Sound (pre.exec env) prf pre.tmpVar e) :
    Holds env prf pre exprs (held (pre.exec env) exprs) where
  below e member := (sound e member).1
  values := rfl
  marked arith := by
    rw [held, List.map_map]
    exact List.map_congr_left fun e member => (sound e member).2 arith

theorem combineLists_spec (sound : ∀ list ∈ parts.lists, ∀ e ∈ list,
      Sound (pre.exec env) prf pre.tmpVar e) :
    Grows env prf pre (combineLists prf parts pre).2 ∧
      Holds env prf (combineLists prf parts pre).2 (combineLists prf parts pre).1
        (parts.lists.flatMap fun list => merged prf.op.values (held (pre.exec env) list)) ∧
      (prf.isArith = false → ((combineLists prf parts pre).2.Fits env ↔ pre.Fits env ∧
        ∀ list ∈ parts.lists,
          FitsTree prf.variant ((held (pre.exec env) list).map Value.isScl))) := by
  have holds (list : List Operand) (member : list ∈ parts.lists) :=
    Sound.holds (sound list member)
  have consts := holds parts.consts (by simp [Parts.lists])
  have scalars := holds parts.scalars (by simp [Parts.lists])
  have vectors := holds parts.vectors (by simp [Parts.lists])
  have externals := holds parts.externals (by simp [Parts.lists])
  -- the trees in the order they are built
  obtain ⟨grows1, tree1⟩ := exprs2PrfTree_spec consts
  obtain ⟨grows2, tree2⟩ := exprs2PrfTree_spec (scalars.later grows1)
  have so2 := grows1.trans grows2
  obtain ⟨grows3, tree3⟩ := exprs2PrfTree_spec (vectors.later so2)
  have so3 := so2.trans grows3
  obtain ⟨grows4, tree4⟩ := exprs2PrfTree_spec (externals.later so3)
  refine ⟨so3.trans grows4, ?_, ?_⟩
  · have tree1 := tree1.later (grows2.trans (grows3.trans grows4))
    have tree2 := tree2.later (grows3.trans grows4)
    have tree3 := tree3.later grows4
    have all := tree4.append (tree1.append (tree2.append (tree3.append Holds.nil)))
    simp only [← TCcombineExprs_eq] at all
    exact all
  · intro other
    have fits1 := exprs2PrfTree_fits other consts
    have fits2 := exprs2PrfTree_fits other (scalars.later grows1)
    have fits3 := exprs2PrfTree_fits other (vectors.later so2)
    have fits4 := exprs2PrfTree_fits other (externals.later so3)
    simp only [Parts.lists, List.forall_mem_cons]
    apply fits4.trans
    rw [fits3, fits2, fits1]
    constructor
    · rintro ⟨⟨⟨⟨before, consts⟩, scalars⟩, vectors⟩, externals⟩
      exact ⟨before, externals, consts, scalars, vectors, List.forall_mem_nil _⟩
    · rintro ⟨before, externals, consts, scalars, vectors, -⟩
      exact ⟨⟨⟨⟨before, consts⟩, scalars⟩, vectors⟩, externals⟩

/-- The rebuilt expression holds the total of all parts. -/
theorem rebuild_spec (sound : ∀ e ∈ parts.exprs, Sound (pre.exec env) prf pre.tmpVar e) :
    Grows env prf pre (rebuild prf parts pre).2 ∧
      ∃ vs, total prf.op.values vs = total prf.op.values (held (pre.exec env) parts.exprs) ∧
        Holds env prf (rebuild prf parts pre).2 (rebuild prf parts pre).1.toList
          (merged prf.op.values vs) := by
  have scalars_inv := Sound.holds fun e member =>
    sound e (List.mem_append_left _ (List.mem_append_left _ member))
  have vectors_inv := Sound.holds fun e member =>
    sound e (List.mem_append_left _ (List.mem_append_right _ member))
  obtain ⟨grows, lists, -⟩ := combineLists_spec fun list within e member =>
    sound e (List.mem_append_right _ (List.mem_flatten.mpr ⟨list, within, member⟩))
  obtain ⟨grows1, ws, same1, first⟩ := combineInverses_spec (scalars_inv.later grows) lists
  obtain ⟨grows2, vs, same2, second⟩ :=
    combineInverses_spec (vectors_inv.later (grows.trans grows1)) first
  obtain ⟨grows3, result⟩ := exprs2PrfTree_spec second
  refine ⟨(grows.trans grows1).trans (grows2.trans grows3), vs, ?_, result⟩
  have trees : total prf.op.values (parts.lists.flatMap fun list =>
      merged prf.op.values (held (pre.exec env) list)) =
      total prf.op.values (held (pre.exec env) parts.lists.flatten) := by
    rw [← List.flatMap_map, total_flatten, held, List.map_flatten]
    rfl
  rw [same2, total_append_congr prf.op.values rfl same1,
    total_append_congr prf.op.values rfl (total_append_congr prf.op.values rfl trees),
    ← List.append_assoc, Parts.exprs, held_append, held_append]
  apply total_perm
  exact List.perm_append_comm.append_right _

/-- A kept variant has to fit in the trees of the parts and in the tree of these. -/
theorem rebuild_fits (other : prf.isArith = false)
    (sound : ∀ e ∈ parts.exprs, Sound (pre.exec env) prf pre.tmpVar e)
    (noInverses : parts.scalars_inv = [] ∧ parts.vectors_inv = []) :
    (rebuild prf parts pre).2.Fits env ↔ pre.Fits env ∧ FitsGroups prf.variant
      (parts.lists.map fun exprs => (held (pre.exec env) exprs).map Value.isScl) := by
  obtain ⟨grows, lists, fits⟩ := combineLists_spec fun list within e member =>
    sound e (List.mem_append_right _ (List.mem_flatten.mpr ⟨list, within, member⟩))
  have direct : (rebuild prf parts pre).2 =
      (exprs2PrfTree prf (combineLists prf parts pre).1 (combineLists prf parts pre).2).2 := by
    simp only [rebuild, noInverses.1, noInverses.2, combineInverses]
  have ranks : (parts.lists.flatMap fun list =>
      merged prf.op.values (held (pre.exec env) list)).map Value.isScl =
      (parts.lists.map fun exprs => (held (pre.exec env) exprs).map Value.isScl).flatMap
        (merged and) := by
    rw [List.map_flatMap, List.flatMap_map]
    simp only [merged_isScl]
  rw [direct, exprs2PrfTree_fits other lists, fits other, ranks, FitsGroups, and_assoc,
    List.forall_mem_map]

end Rebuilding

section Statement

variable {info : Info} {defined : Defined} {scope : List (Assign Index)} {tmpVar : Avis}
  {prf : Prf} {arg1 arg2 : Avis}

/-- The operands that are not inverses, group by group, as scalars or not. -/
def Parts.groups (parts : Parts) (env : Env Index) : List (List Bool) :=
  (parts.lists.map fun exprs => (held env exprs).map Value.isScl).filter (!·.isEmpty)

/-- The variants fit in what the statement becomes: they are chosen anew, or nothing changes,
or the one variant is right for the groups the operands are put in. -/
def Keeps (info : Info) (defined : Defined) (scope : List (Assign Index)) (env : Env Index) :
    Rhs Index → Prop
  | .prf prf arg1 arg2 => prf.isArith = true ∨ rewrites info defined scope prf arg1 arg2 = false ∨
      Admits prf.variant
        ((splitExprs info defined scope prf (operands defined scope prf arg1 arg2)).groups env)
  | _ => True

/-- What holds of the assignments before, once they are done. -/
structure Settled (env : Env Index) (tmpVar : Avis) (scope : List (Assign Index)) : Prop where
  equations : ∀ assign ∈ scope, env assign.lhs = assign.rhs.eval env
  fits : ∀ assign ∈ scope, assign.rhs.Fits env
  below : Below tmpVar scope

theorem Settled.operands_sound (settled : Settled env tmpVar scope)
    (fit : (Rhs.prf prf arg1 arg2 : Rhs Index).Fits env) (below1 : arg1 < tmpVar)
    (below2 : arg2 < tmpVar) :
    ∀ e ∈ operands defined scope prf arg1 arg2, Sound env prf tmpVar e := by
  intro e member
  obtain ⟨rank1, rank2⟩ := Variant.ofScl_iff.mp fit
  rcases List.mem_append.mp member with member | member
  · refine ⟨collectExprs_below settled.below below1 e member, fun arith => ?_⟩
    exact collectExprs_marked arith settled.equations settled.fits
      ((Prf.isArgScl_arith arith).1.trans rank1) e member
  · refine ⟨collectExprs_below settled.below below2 e member, fun arith => ?_⟩
    exact collectExprs_marked arith settled.equations settled.fits
      ((Prf.isArgScl_arith arith).2.trans rank2) e member

theorem Settled.operands_total (settled : Settled env tmpVar scope) :
    total prf.op.values (held env (operands defined scope prf arg1 arg2)) =
      some (prf.op.values (env arg1) (env arg2)) := by
  rw [operands, held_append, total_append, collectExprs_total settled.equations,
    collectExprs_total settled.equations]
  rfl

/-- Operands of one rank stay so in all groups. -/
theorem Settled.operands_same {scl : Bool} (settled : Settled env tmpVar scope)
    (fit : (Rhs.prf prf arg1 arg2 : Rhs Index).Fits env) (other : prf.isArith = false)
    (same : prf.variant = .ofScl scl scl) :
    ∀ e ∈ operands defined scope prf arg1 arg2, (env e.avis).isScl = scl := by
  obtain ⟨rank1, rank2⟩ := Variant.ofScl_inj.mp (same.symm.trans fit)
  intro e member
  rcases List.mem_append.mp member with member | member
  · exact collectExprs_same other same settled.equations settled.fits rank1.symm e member
  · exact collectExprs_same other same settled.equations settled.fits rank2.symm e member

theorem splitExprs_groups (other : prf.isArith = false) (exprs : List Operand) :
    ((splitExprs info defined scope prf exprs).groups env).flatten.Perm
      ((held env exprs).map Value.isScl) := by
  have perm := splitExprs_perm info defined scope prf exprs
  obtain ⟨scalars, vectors⟩ := splitExprs_other info defined scope prf other exprs
  rw [Parts.exprs, scalars, vectors] at perm
  rw [Parts.groups, List.flatten_filter_not_isEmpty]
  have ranks := (perm.map fun e => (env e.avis).isScl)
  simpa [pairExprs, held, List.map_flatten, Function.comp_def] using ranks

/-- The groups of a statement that is rewritten admit a kept variant if it fits in their trees. -/
theorem Settled.fitsGroups_iff (settled : Settled env tmpVar scope)
    (fit : (Rhs.prf prf arg1 arg2 : Rhs Index).Fits env) (other : prf.isArith = false)
    (rewritten : rewrites info defined scope prf arg1 arg2 = true) :
    FitsGroups prf.variant ((splitExprs info defined scope prf
        (operands defined scope prf arg1 arg2)).lists.map fun exprs =>
          (held env exprs).map Value.isScl) ↔
      Admits prf.variant ((splitExprs info defined scope prf
        (operands defined scope prf arg1 arg2)).groups env) := by
  have perm : ((splitExprs info defined scope prf (operands defined scope prf arg1 arg2)).groups
      env).flatten.Perm ((held env (operands defined scope prf arg1 arg2)).map Value.isScl) :=
    splitExprs_groups other _
  rw [← fitsGroups_filter]
  apply AssociativeLaw.fitsGroups_iff
  · intro group member
    simpa using (List.mem_filter.mp member).2
  · have enough := (Bool.and_eq_true_iff.mp rewritten).1
    have length := perm.length_eq
    rw [held, List.length_map, List.length_map] at length
    exact (of_decide_eq_true enough).trans_eq length.symm
  · intro scl same s member
    obtain ⟨v, among, rfl⟩ := List.mem_map.mp (perm.mem_iff.mp member)
    obtain ⟨e, within, rfl⟩ := List.mem_map.mp among
    exact settled.operands_same fit other same e within

/-- The expression that takes the place of a rewritten one. -/
theorem Settled.rebuild_value (settled : Settled env tmpVar scope)
    (fit : (Rhs.prf prf arg1 arg2 : Rhs Index).Fits env) (below1 : arg1 < tmpVar)
    (below2 : arg2 < tmpVar) {parts : Parts}
    (perm : parts.exprs.Perm (operands defined scope prf arg1 arg2)) :
    Grows env prf (Pre.new tmpVar) (rebuild prf parts (Pre.new tmpVar : Pre Index)).2 ∧
      ∃ e, (rebuild prf parts (Pre.new tmpVar : Pre Index)).1 = some e ∧
        (rebuild prf parts (Pre.new tmpVar : Pre Index)).2.exec env e.avis =
          prf.op.values (env arg1) (env arg2) := by
  let pre : Pre Index := Pre.new tmpVar
  have sound : ∀ e ∈ parts.exprs, Sound (pre.exec env) prf pre.tmpVar e := fun e member =>
    settled.operands_sound fit below1 below2 e (perm.mem_iff.mp member)
  obtain ⟨grows, vs, same, holds⟩ := rebuild_spec sound
  have value : total prf.op.values vs = some (prf.op.values (env arg1) (env arg2)) := by
    rw [same, ← settled.operands_total]
    exact total_perm _ (perm.map _)
  have values := holds.values
  rw [merged, value] at values
  refine ⟨grows, ?_⟩
  cases found : (rebuild prf parts pre).1 with
  | none => simp [found, held] at values
  | some e =>
      rw [found] at values
      exact ⟨e, rfl, List.singleton_inj.mp values⟩

/-- The rewritten statement assigns what the statement assigns, and new identifiers. -/
theorem ALlet_spec (info : Info) (defined : Defined) {assign : Assign Index}
    (settled : Settled env tmpVar scope) (fit : assign.rhs.Fits env)
    (below : ∀ arg ∈ assign.rhs.args, arg < tmpVar) :
    tmpVar ≤ (ALlet info defined scope assign tmpVar).2 ∧
      (∀ a < tmpVar, exec (ALlet info defined scope assign tmpVar).1 env a = assign.exec env a) ∧
      (Fits (ALlet info defined scope assign tmpVar).1 env ↔
        Keeps info defined scope env assign.rhs) := by
  obtain ⟨lhs, rhs⟩ := assign
  cases rhs with
  | const _ | id _ => exact ⟨Nat.le_refl _, fun _ _ => rfl, iff_of_true ⟨trivial, trivial⟩ trivial⟩
  | inv _ _ => exact ⟨Nat.le_refl _, fun _ _ => rfl, iff_of_true ⟨fit, trivial⟩ trivial⟩
  | prf prf arg1 arg2 =>
      cases rewritten : rewrites info defined scope prf arg1 arg2 with
      | false =>
          simp only [ALlet, ALprf, rewritten]
          exact ⟨Nat.le_refl _, fun _ _ => rfl, iff_of_true ⟨fit, trivial⟩ (.inr (.inl rewritten))⟩
      | true =>
          have below1 := below arg1 (List.mem_cons_self ..)
          have below2 := below arg2 (List.mem_cons_of_mem arg1 (List.mem_cons_self ..))
          let exprs := operands defined scope prf arg1 arg2
          let parts := splitExprs info defined scope prf exprs
          have perm : parts.exprs.Perm exprs := splitExprs_perm info defined scope prf exprs
          obtain ⟨grows, e, found, value⟩ := settled.rebuild_value fit below1 below2 perm
          let pre : Pre Index := (rebuild prf parts (Pre.new tmpVar)).2
          have stmt : ALlet info defined scope ⟨lhs, .prf prf arg1 arg2⟩ tmpVar =
              (pre.preassign.reverse ++ [⟨lhs, .id e.avis⟩], pre.tmpVar) := by
            simp only [ALlet, ALprf, rewritten, ↓reduceIte]
            rw [← Prod.mk.eta (p := rebuild prf parts (Pre.new tmpVar)), found]
          rw [stmt]
          refine ⟨grows.later, ?_, ?_⟩
          · intro a belowA
            rw [exec_append]
            by_cases same : a = lhs
            · subst same
              have copied : exec [⟨a, .id e.avis⟩] (pre.exec env) a = pre.exec env e.avis :=
                Function.update_self ..
              have assigned : (⟨a, .prf prf arg1 arg2⟩ : Assign Index).exec env a =
                  prf.op.values (env arg1) (env arg2) :=
                Function.update_self ..
              exact (copied.trans value).trans assigned.symm
            · apply (Assign.exec_of_ne same).trans
              exact (grows.keeps a belowA).trans (Assign.exec_of_ne same).symm
          · rw [fits_append]
            cases other : prf.isArith with
            | true => exact iff_of_true ⟨grows.fits other trivial, trivial, trivial⟩ (.inl other)
            | false =>
                have sound : ∀ e ∈ parts.exprs,
                    Sound ((Pre.new tmpVar).exec env) prf (Pre.new tmpVar : Pre Index).tmpVar e :=
                  fun e member =>
                    settled.operands_sound fit below1 below2 e (perm.mem_iff.mp member)
                have groups := settled.fitsGroups_iff fit other rewritten
                have trees := (rebuild_fits other sound (splitExprs_other _ _ _ _ other _)).trans
                  (and_iff_right trivial)
                rw [Keeps, other, rewritten]
                apply (and_iff_left ⟨trivial, trivial⟩).trans
                apply trees.trans
                exact groups.trans (by simp only [Bool.false_eq_true, Bool.true_eq_false, false_or])

end Statement

section Blocks

variable (info : Info)

/-- The statements that are rewritten keep fitting; each is looked at in the environment of
the block as it was. -/
def KeepsAll : List (Assign Index) → Schedule → List (Assign Index) → Env Index → Prop
  | scope, some defined :: schedule, assign :: assigns, env =>
      Keeps info defined scope env assign.rhs ∧
        KeepsAll (assign :: scope) schedule assigns (assign.exec env)
  | scope, none :: schedule, assign :: assigns, env =>
      KeepsAll (assign :: scope) schedule assigns (assign.exec env)
  | _, _, _, _ => True

/-- A block, after what is assigned before it, the latest first; `tmpVar` is the next
identifier `TRAVtmpVar` makes. -/
structure Block (Index : Type) where
  scope : List (Assign Index)
  assigns : List (Assign Index)
  tmpVar : Avis
  ssa : SSA (scope.reverse ++ assigns)
  below : Below tmpVar (scope.reverse ++ assigns)

namespace Block

variable (block : Block Index) (env : Env Index)

/-- The environment the block is run in. -/
def start : Env Index := exec block.scope.reverse env

def WellTagged : Prop := Fits (block.scope.reverse ++ block.assigns) env

/-- What the block becomes under a schedule. -/
def rewritten (schedule : Schedule) : List (Assign Index) :=
  (rewriteStmts info block.scope schedule block.assigns block.tmpVar).1

/-- All identifiers hold what they held, and the variants fit. -/
def Preserves (schedule : Schedule) : Prop :=
  (∀ a < block.tmpVar, exec (block.rewritten info schedule) (block.start env) a =
      exec block.assigns (block.start env) a) ∧
    Fits (block.rewritten info schedule) (block.start env)

end Block

section Agreement

variable {scope : List (Assign Index)} {now : Env Index} {n : Avis}
  (agree : ∀ a < n, now a = env a) (below : Below n scope)
include agree below

/-- Only identifiers that were there before matter. -/
theorem Keeps.congr {defined : Defined} {rhs : Rhs Index} (args : ∀ arg ∈ rhs.args, arg < n) :
    Keeps info defined scope now rhs ↔ Keeps info defined scope env rhs := by
  cases rhs with
  | const _ | id _ | inv _ _ => rfl
  | prf prf arg1 arg2 =>
      have bound : ∀ e ∈ operands defined scope prf arg1 arg2, e.avis < n := by
        intro e member
        rcases List.mem_append.mp member with member | member
        · exact collectExprs_below below (args arg1 (List.mem_cons_self ..)) e member
        · have arg2Bound := args arg2 (List.mem_cons_of_mem arg1 (List.mem_cons_self ..))
          exact collectExprs_below below arg2Bound e member
      let parts := splitExprs info defined scope prf (operands defined scope prf arg1 arg2)
      have perm := splitExprs_perm info defined scope prf (operands defined scope prf arg1 arg2)
      have same : ∀ list ∈ parts.lists, held now list = held env list := by
        intro list within
        apply List.map_congr_left
        intro e member
        apply agree e.avis (bound e (perm.mem_iff.mp _))
        exact List.mem_append_right _ (List.mem_flatten.mpr ⟨list, within, member⟩)
      have groups : parts.groups now = parts.groups env :=
        congrArg (List.filter _) (List.map_congr_left fun list within => by rw [same list within])
      exact or_congr_right (or_congr_right (iff_of_eq (congrArg _ groups)))

theorem Settled.of_agree {tmpVar : Avis} (later : n ≤ tmpVar)
    (equations : ∀ assign ∈ scope, env assign.lhs = assign.rhs.eval env)
    (fits : ∀ assign ∈ scope, assign.rhs.Fits env) : Settled now tmpVar scope where
  equations assign member := by
    obtain ⟨lhs, args⟩ := below assign member
    rw [agree assign.lhs lhs, equations assign member]
    exact (Rhs.eval_congr fun arg within => agree arg (args arg within)).symm
  fits assign member := by
    apply (Rhs.fits_congr _).mpr (fits assign member)
    exact fun arg within => agree arg ((below assign member).2 arg within)
  below assign member := by
    obtain ⟨lhs, args⟩ := below assign member
    exact ⟨Nat.lt_of_lt_of_le lhs later,
      fun arg within => Nat.lt_of_lt_of_le (args arg within) later⟩

end Agreement

/-- Statement by statement the new block follows the old one. -/
theorem rewriteStmts_spec {scope assigns : List (Assign Index)} (schedule : Schedule)
    {env now : Env Index} {n tmpVar : Avis} (ssa : SSA (scope.reverse ++ assigns))
    (fits : Fits (scope.reverse ++ assigns) env) (below : Below n (scope.reverse ++ assigns))
    (later : n ≤ tmpVar) (agree : ∀ a < n, now a = exec scope.reverse env a) :
    tmpVar ≤ (rewriteStmts info scope schedule assigns tmpVar).2 ∧
      (∀ a < n, exec (rewriteStmts info scope schedule assigns tmpVar).1 now a =
        exec (scope.reverse ++ assigns) env a) ∧
      (Fits (rewriteStmts info scope schedule assigns tmpVar).1 now ↔
        KeepsAll info scope schedule assigns (exec scope.reverse env)) := by
  induction assigns generalizing scope schedule now with
  | nil =>
      have none : rewriteStmts info scope schedule [] tmpVar = ([], tmpVar) := by
        cases schedule with
        | nil => rfl
        | cons choice schedule => cases choice <;> rfl
      have all : KeepsAll info scope schedule [] (exec scope.reverse env) := by
        cases schedule with
        | nil => trivial
        | cons choice schedule => cases choice <;> trivial
      rw [none, List.append_nil]
      exact ⟨Nat.le_refl _, agree, iff_of_true trivial all⟩
  | cons assign assigns ih =>
      have shift : scope.reverse ++ assign :: assigns = (assign :: scope).reverse ++ assigns := by
        simp
      have here : assign ∈ scope.reverse ++ assign :: assigns := by simp
      have args := (below assign here).2
      have before : Below n scope := fun earlier member => below earlier (by simp [member])
      obtain ⟨fitsBefore, fit, _⟩ := (fits_append ..).mp fits
      have after : exec (assign :: scope).reverse env = assign.exec (exec scope.reverse env) := by
        rw [List.reverse_cons, exec_append]
        rfl
      have ssaBefore : SSA scope.reverse := ssa.of_append
      have fitNow : assign.rhs.Fits now :=
        (Rhs.fits_congr fun arg member => agree arg (args arg member)).mpr fit
      have moves : ∀ a < n, assign.exec now a = exec (assign :: scope).reverse env a := by
        rw [after]
        exact Assign.exec_congr agree args
      rw [shift] at ssa fits below ⊢
      -- a statement that stays, and the statements behind it
      have keep (schedule : Schedule) :
          tmpVar ≤ (rewriteStmts info (assign :: scope) schedule assigns tmpVar).2 ∧
            (∀ a < n, exec (assign :: (rewriteStmts info (assign :: scope) schedule assigns
                tmpVar).1) now a = exec ((assign :: scope).reverse ++ assigns) env a) ∧
            (Fits (assign :: (rewriteStmts info (assign :: scope) schedule assigns tmpVar).1)
                now ↔
              KeepsAll info (assign :: scope) schedule assigns
                (assign.exec (exec scope.reverse env))) := by
        obtain ⟨fresh, values, tags⟩ := ih schedule ssa fits below moves
        rw [after] at tags
        exact ⟨fresh, values, (and_iff_right fitNow).trans tags⟩
      match schedule with
      | [] =>
          have none : rewriteStmts info (assign :: scope) [] assigns tmpVar = (assigns, tmpVar) := by
            cases assigns <;> rfl
          have all : KeepsAll info (assign :: scope) [] assigns
              (assign.exec (exec scope.reverse env)) := by
            cases assigns <;> trivial
          have kept := keep []
          rw [none] at kept
          exact ⟨kept.1, kept.2.1, kept.2.2.trans (iff_of_true all trivial)⟩
      | none :: schedule => exact keep schedule
      | some defined :: schedule =>
          let next := rewriteStmts info (assign :: scope) schedule assigns tmpVar
          obtain ⟨fresh, -, -⟩ := ih schedule ssa fits below moves
          have settled : Settled now next.2 scope := by
            apply Settled.of_agree agree before (Nat.le_trans later fresh)
            · intro earlier member
              exact ssaBefore.settled (List.mem_reverse.mpr member)
            · intro earlier member
              exact ssaBefore.fits fitsBefore (List.mem_reverse.mpr member)
          obtain ⟨fresher, values, tags⟩ := ALlet_spec info defined settled fitNow
            fun arg member => Nat.lt_of_lt_of_le (args arg member) (Nat.le_trans later fresh)
          have moved : ∀ a < n, exec (ALlet info defined scope assign next.2).1 now a =
              exec (assign :: scope).reverse env a := fun a bound =>
            (values a (Nat.lt_of_lt_of_le bound (Nat.le_trans later fresh))).trans (moves a bound)
          obtain ⟨-, values', tags'⟩ := ih schedule ssa fits below moved
          rw [after] at tags'
          refine ⟨Nat.le_trans fresh fresher, ?_, ?_⟩
          · intro a bound
            exact (congrFun (exec_append ..) a).trans (values' a bound)
          · apply (fits_append ..).trans
            exact and_congr (tags.trans (Keeps.congr info agree before args)) tags'

/-- A block is preserved by the rewriting of any of its statements exactly if each of these is
one where the variants keep fitting. -/
theorem reassociation_preserves_iff (block : Block Index) (env : Env Index) (schedule : Schedule)
    (tagged : block.WellTagged env) :
    block.Preserves info env schedule ↔
      KeepsAll info block.scope schedule block.assigns (block.start env) := by
  obtain ⟨_, values, fits⟩ := rewriteStmts_spec info schedule block.ssa tagged block.below
    (Nat.le_refl _) fun _ _ => rfl
  apply Iff.trans _ fits
  apply and_iff_right
  intro a below
  exact (values a below).trans (congrFun (exec_append ..) a)

/-- What the optimisation makes of a block computes what the block computed. -/
theorem ALblock_values (block : Block Index) (env : Env Index) (withids : List Avis)
    (marks : Marks) (tagged : block.WellTagged env) :
    ∀ a < block.tmpVar,
      exec (ALblock info block.scope withids block.assigns marks block.tmpVar).1
        (block.start env) a = exec block.assigns (block.start env) a := by
  obtain ⟨schedule, same⟩ :=
    ALblock_scheduled info block.scope withids block.assigns marks block.tmpVar
  obtain ⟨_, values, _⟩ := rewriteStmts_spec info schedule block.ssa tagged block.below
    (Nat.le_refl _) fun _ _ => rfl
  intro a below
  rw [← same]
  exact (values a below).trans (congrFun (exec_append ..) a)

end Blocks

section Chain

instance (rhs : Rhs Index) (env : Env Index) : Decidable (rhs.Fits env) :=
  match rhs with
  | .prf _ _ _ | .inv _ _ => inferInstanceAs (Decidable (_ = _))
  | .const _ | .id _ => .isTrue trivial

instance decidableFits : (assigns : List (Assign Index)) → (env : Env Index) →
    Decidable (Fits assigns env)
  | [], _ => .isTrue trivial
  | _ :: assigns, _ => @instDecidableAnd _ _ _ (decidableFits assigns _)

instance (block : Block Index) (env : Env Index) : Decidable (block.WellTagged env) :=
  decidableFits ..

/-- `d = b op c; e = a op d` with scalars `a` and `b` and an array `c`. -/
def chain (op : Op) : Block (Fin 2) where
  scope := []
  assigns := [⟨3, .prf ⟨op, .SxV⟩ 1 2⟩, ⟨4, .prf ⟨op, .SxV⟩ 0 3⟩]
  tmpVar := 5
  ssa := by simp [SSA, Rhs.args]
  below := by simp [Below, Rhs.args]

def chainEnv : Env (Fin 2)
  | 0 => .scl (.num ⟨true, 32⟩ 7)
  | 1 => .scl (.num ⟨true, 32⟩ 3)
  | a => .arr fun i => .num ⟨true, 32⟩ (a + i.val)

/-- Both scalars are constants. -/
def chainInfo : Info where
  type a := if a < 2 then .AKV else .AKS 1
  isLoopInvariant _ := false
  isWithLoopBody := false
  isLoopBody := false

theorem chain_add_preserved :
    (chain .add).Preserves chainInfo chainEnv [none, some (· == 3)] :=
  (reassociation_preserves_iff chainInfo (chain .add) chainEnv _ (by decide)).mpr
    ⟨.inl rfl, trivial⟩

/-- The constants of a maximum come together under the variant for a scalar and an array. -/
theorem chain_max_misfits :
    (chain .max).WellTagged chainEnv ∧
      ¬ (chain .max).Preserves chainInfo chainEnv [none, some (· == 3)] ∧
      ¬ Fits (ALblock chainInfo [] [] (chain .max).assigns ⟨fun _ => false, fun _ => false⟩ 5).1
        chainEnv :=
  ⟨by decide, fun preserved => absurd preserved.2 (by decide), by decide⟩

end Chain

end Sac2c.AssociativeLaw
