import Sac2c.GpuKernel
import Sac2c.StrvecPermutations
import Mathlib.Tactic.Ring
import Mathlib.Tactic.Linarith
import Mathlib.Data.Int.CardIntervalMod

/-!
What the mappings of the gpukernel pragma do to an index space. An extent is one
dimension with the value of its upper bound; the other bounds are never computed
and keep their text, which decides what a mapping skips. `forward` is the change
of the extents and `back` the way of one index vector from the coordinates after a
mapping to those before it. Where the host computes the extents without an
overflow, each mapping is an exact change of the index space.
-/

namespace Sac2c.ThreadSpaces

open GpuKernel Reindexing StrvecPermutations

structure Extent where
  lb : Opd
  st : Opd
  wi : Opd
  ub : Int

section Mappings

variable (arith : Arith) (vals : Var → Int)

def shiftExtent (e : Extent) : Option Extent :=
  if e.lb = constZero then some e
  else (arith.norm (e.ub - e.lb.eval vals)).map fun ub => { e with lb := constZero, ub := ub }

def compressExtent (entry : Bool × Extent) : Option Extent :=
  let e := entry.2
  if !entry.1 || e.st = constOne then some e
  else
    let ub := if e.wi = constOne then compressedS arith e.ub (e.st.eval vals)
      else compressedSW arith e.ub (e.st.eval vals) (e.wi.eval vals)
    ub.map fun ub => { e with st := constOne, wi := constOne, ub := ub }

def pruneExtent (e : Extent) : Extent := { e with st := constOne, wi := constOne }

def padExtent (divisibility : Nat) (e : Extent) : Option Extent :=
  (padded arith e.ub divisibility).map fun ub => { e with ub := ub }

def foldExtents (major minor : Extent) : Option Extent :=
  (arith.norm (major.ub * minor.ub)).map fun ub => { major with ub := ub }

def splitExtent (minorlen : Nat) (major : Extent) : Option (List Extent) := do
  let major ← padExtent arith minorlen major
  let ub ← arith.div major.ub minorlen
  some [{ major with ub := ub }, ⟨constZero, constOne, constOne, minorlen⟩]

def forward (mapping : Mapping) (extents : List Extent) : Option (List Extent) :=
  match mapping with
  | .shiftLB => extents.mapM (shiftExtent arith vals)
  | .compressGrid shouldCompress =>
      if shouldCompress.length ≠ extents.length then none
      else (shouldCompress.zip extents).mapM (compressExtent arith vals)
  | .pruneGrid => some (extents.map pruneExtent)
  | .permute permutation =>
      if permutation.length ≠ extents.length then none else permuteStrvec permutation extents
  | .foldLast2 => do
      let (front, major, minor) ← lastTwo extents
      let folded ← foldExtents arith major minor
      some (front ++ [folded])
  | .splitLast minorlen => do
      let (front, major) ← lastOne extents
      let split ← splitExtent arith minorlen major
      some (front ++ split)
  | .padLast divisibility => do
      let (front, last) ← lastOne extents
      let last ← padExtent arith divisibility last
      some (front ++ [last])

/-- The mappings of a pragma, the outermost first -/
def forwards : List Mapping → List Extent → Option (List Extent)
  | [], extents => some extents
  | mapping :: inner, extents => (forwards inner extents).bind (forward arith vals mapping)

end Mappings

section Backs

variable (vals : Var → Int)

def devDiv (a b : Int) : Int := if b = 0 then 0 else wrap (a.tdiv b)

def devMod (a b : Int) : Int := if b = 0 then 0 else wrap (a.tmod b)

def unshift (e : Extent) (i : Int) : Option Int :=
  some (if e.lb = constZero then i else wrap (i + e.lb.eval vals))

def uncompressed (st wi i : Int) : Int := wrap (wrap (devDiv i wi * st) + devMod i wi)

def uncompress (entry : Bool × Extent) (i : Int) : Option Int :=
  let e := entry.2
  some (if !entry.1 || e.st = constOne then i
    else if e.wi = constOne then wrap (i * e.st.eval vals)
    else uncompressed (e.st.eval vals) (e.wi.eval vals) i)

def unprune (e : Extent) (i : Int) : Option Int :=
  if e.st = constOne ∨ devMod i (e.st.eval vals) < e.wi.eval vals then some i else none

def unpad (e : Extent) (i : Int) : Option Int := if e.ub ≤ i then none else some i

def unfold (minor : Extent) : List Int → Option (List Int)
  | [i] => some [devDiv i minor.ub, devMod i minor.ub]
  | _ => none

def unsplit (minorlen : Nat) (major : Extent) : List Int → Option (List Int)
  | [i, j] => (unpad major (wrap (wrap (i * minorlen) + j))).map ([·])
  | _ => none

/-- From the coordinates after a mapping to those before it; `extents` are the
extents before. -/
def back (mapping : Mapping) (extents : List Extent) : List Int → Option (List Int) :=
  match mapping with
  | .shiftLB => mapBacks (unshift vals) extents
  | .compressGrid shouldCompress => mapBacks (uncompress vals) (shouldCompress.zip extents)
  | .pruneGrid => mapBacks (unprune vals) extents
  | .permute permutation => invPermuteStrvec permutation
  | .foldLast2 => fun vector => do
      let (front, _, minor) ← lastTwo extents
      onLast front.length (unfold minor) vector
  | .splitLast minorlen => fun vector => do
      let (front, major) ← lastOne extents
      onLast front.length (unsplit minorlen major) vector
  | .padLast _ => fun vector => do
      let (front, last) ← lastOne extents
      onLast front.length (mapBacks unpad [last]) vector

end Backs

section Arithmetic

theorem host_norm {value result : Int} (computed : host.norm value = some result) :
    result = value ∧ -2 ^ 31 ≤ value ∧ value < 2 ^ 31 := by
  simp only [host] at computed
  split at computed
  · next fits => exact ⟨(Option.some.inj computed).symm, fits⟩
  · cases computed

theorem wrap_eq {a : Int} (low : -2 ^ 31 ≤ a) (high : a < 2 ^ 31) : wrap a = a := by
  apply Int.bmod_eq_of_le <;> norm_num <;> omega

theorem host_div {a b result : Int} (computed : host.div a b = some result) (nonneg : 0 ≤ a) :
    b ≠ 0 ∧ result = a / b := by
  simp only [Arith.div] at computed
  split at computed
  · cases computed
  · next filled => exact ⟨filled, (host_norm computed).1.trans (Int.tdiv_eq_ediv_of_nonneg nonneg)⟩

theorem host_mod {a b result : Int} (computed : host.mod a b = some result) (nonneg : 0 ≤ a) :
    b ≠ 0 ∧ result = a % b := by
  simp only [Arith.mod] at computed
  split at computed
  · cases computed
  · next filled => exact ⟨filled, (host_norm computed).1.trans (Int.tmod_eq_emod_of_nonneg nonneg)⟩

theorem devDiv_eq {a b : Int} (nonneg : 0 ≤ a) (small : a < 2 ^ 31) (pos : 0 < b) :
    devDiv a b = a / b := by
  have low := Int.ediv_nonneg nonneg pos.le
  have high := Int.ediv_le_self b nonneg
  rw [devDiv, if_neg pos.ne', Int.tdiv_eq_ediv_of_nonneg nonneg, wrap_eq] <;> omega

theorem devMod_eq {a b : Int} (nonneg : 0 ≤ a) (small : a < 2 ^ 31) (pos : 0 < b) :
    devMod a b = a % b := by
  have low := Int.emod_nonneg a pos.ne'
  have high : a % b ≤ a := by
    have whole := Int.mul_ediv_add_emod a b
    have := mul_nonneg pos.le (Int.ediv_nonneg nonneg pos.le)
    omega
  rw [devMod, if_neg pos.ne', Int.tmod_eq_emod_of_nonneg nonneg, wrap_eq] <;> omega

/-- Quotient and remainder of a number put together from them. -/
theorem joined {q r d : Int} (low : 0 ≤ r) (high : r < d) :
    (q * d + r) / d = q ∧ (q * d + r) % d = r := by
  have pos : 0 < d := lt_of_le_of_lt low high
  constructor
  · rw [add_comm, Int.add_mul_ediv_right _ _ pos.ne', Int.ediv_eq_zero_of_lt low high, zero_add]
  · rw [add_comm, Int.add_mul_emod_self_right, Int.emod_eq_of_lt low high]

/-- Below `q * d + r` are the numbers with a smaller quotient, and with quotient `q`
those of a smaller remainder. -/
theorem lt_join_iff {i q r d : Int} (low : 0 ≤ r) (high : r ≤ d) (pos : 0 < d) :
    i < q * d + r ↔ i / d < q ∨ (i / d = q ∧ i % d < r) := by
  have whole := Int.mul_ediv_add_emod i d
  have mod0 := Int.emod_nonneg i pos.ne'
  have modD := Int.emod_lt_of_pos i pos
  have commuted : d * (i / d) = i / d * d := mul_comm ..
  rcases lt_trichotomy (i / d) q with less | same | more
  · have := mul_le_mul_of_nonneg_right (show i / d + 1 ≤ q by omega) pos.le
    have expand : (i / d + 1) * d = i / d * d + d := by ring
    exact ⟨fun _ => Or.inl less, fun _ => by omega⟩
  · subst same
    constructor
    · exact fun lt => Or.inr ⟨rfl, by omega⟩
    · rintro (lt | ⟨-, lt⟩)
      · omega
      · omega
  · have := mul_le_mul_of_nonneg_right (show q + 1 ≤ i / d by omega) pos.le
    have expand : (q + 1) * d = q * d + d := by ring
    exact ⟨fun _ => by omega, fun _ => by omega⟩

theorem host_padded {ub result : Int} {divisibility : Nat} (nonneg : 0 ≤ ub)
    (computed : padded host ub divisibility = some result) :
    0 < divisibility ∧ divisibility < 2 ^ 31 ∧ ub ≤ result ∧ result < 2 ^ 31 ∧
      (divisibility : Int) ∣ result := by
  simp only [padded, Option.bind_eq_bind, Option.bind_eq_some_iff] at computed
  obtain ⟨rest, restEq, missing, missingEq, more, moreEq, sumEq⟩ := computed
  obtain ⟨filled, rfl⟩ := host_mod restEq nonneg
  have pos : 0 < (divisibility : Int) := by omega
  have restLt := Int.emod_lt_of_pos ub pos
  obtain ⟨rfl, -, missingSmall⟩ := host_norm missingEq
  obtain ⟨-, rfl⟩ := host_mod moreEq (by omega)
  obtain ⟨rfl, -, small⟩ := host_norm sumEq
  have moreNonneg := Int.emod_nonneg ((divisibility : Int) - ub % divisibility) pos.ne'
  have divides : (divisibility : Int) ∣ ub + (divisibility - ub % divisibility) % divisibility := by
    apply Int.dvd_of_emod_eq_zero
    rw [Int.add_emod, Int.emod_emod, ← Int.add_emod, show ub + (divisibility - ub % divisibility) =
      (ub - ub % divisibility) + divisibility by ring, Int.add_emod_right]
    exact Int.emod_eq_zero_of_dvd (Int.dvd_self_sub_emod)
  refine ⟨by omega, ?_, by omega, small, divides⟩
  rcases nonneg.lt_or_eq with filled | rfl
  · have := Int.le_of_dvd (by omega) divides
    omega
  · rw [Int.zero_emod] at missingSmall
    omega

/-- Both ways to compress count the same. -/
theorem host_compressedS {ub st result : Int} (nonneg : 0 ≤ ub) (pos : 0 < st)
    (computed : compressedS host ub st = some result) :
    result = ub / st * 1 + min (ub % st) 1 := by
  simp only [compressedS, Option.bind_eq_bind, Option.bind_eq_some_iff] at computed
  obtain ⟨sum, sumEq, above, aboveEq, divEq⟩ := computed
  obtain ⟨rfl, -, -⟩ := host_norm sumEq
  obtain ⟨rfl, -, -⟩ := host_norm aboveEq
  obtain ⟨-, rfl⟩ := host_div divEq (by omega)
  have whole := Int.mul_ediv_add_emod ub st
  have mod0 := Int.emod_nonneg ub pos.ne'
  have modD := Int.emod_lt_of_pos ub pos
  have commuted : st * (ub / st) = ub / st * st := mul_comm ..
  by_cases even : ub % st = 0
  · rw [even, show ub + st - 1 = ub / st * st + (st - 1) by omega,
      (joined (by omega) (by omega)).1]
    simp
  · rw [show ub + st - 1 = (ub / st + 1) * st + (ub % st - 1) by rw [add_mul]; omega,
      (joined (by omega) (by omega)).1]
    omega

theorem host_compressedSW {ub st wi result : Int} (nonneg : 0 ≤ ub)
    (computed : compressedSW host ub st wi = some result) :
    result = ub / st * wi + min (ub % st) wi ∧ result < 2 ^ 31 := by
  simp only [compressedSW, Option.bind_eq_bind, Option.bind_eq_some_iff] at computed
  obtain ⟨tmp, tmpEq, full, fullEq, scaled, scaledEq, sumEq⟩ := computed
  obtain ⟨-, rfl⟩ := host_mod tmpEq nonneg
  obtain ⟨-, rfl⟩ := host_div fullEq nonneg
  obtain ⟨rfl, -, -⟩ := host_norm scaledEq
  obtain ⟨rfl, -, small⟩ := host_norm sumEq
  refine ⟨?_, small⟩
  split <;> omega

end Arithmetic

section Axes

variable (vals : Var → Int)

/-- The indices of one dimension -/
def members (e : Extent) : Set Int :=
  {i | e.lb.eval vals ≤ i ∧ i < e.ub ∧
    (i - e.lb.eval vals) % e.st.eval vals < e.wi.eval vals}

structure Extent.Sound (e : Extent) : Prop where
  lb_nonneg : 0 ≤ e.lb.eval vals
  lb_le : e.lb.eval vals ≤ e.ub
  ub_lt : e.ub < 2 ^ 31
  wi_pos : 0 < e.wi.eval vals
  wi_le : e.wi.eval vals ≤ e.st.eval vals
  st_lt : e.st.eval vals < 2 ^ 31

variable {vals}

theorem mem_dense {e : Extent} (zero : e.lb = constZero)
    (dense : e.st.eval vals = e.wi.eval vals)
    (sound : e.Sound vals) (i : Int) : i ∈ members vals e ↔ 0 ≤ i ∧ i < e.ub := by
  have pos := sound.wi_pos
  simp only [members, Set.mem_ofPred_eq, zero, eval_constZero, dense]
  constructor
  · rintro ⟨low, high, -⟩
    exact ⟨low, high⟩
  · rintro ⟨low, high⟩
    exact ⟨low, high, Int.emod_lt_of_pos _ pos⟩

/-- The text alone may already say that a dimension is dense. -/
theorem members_dense {e : Extent} (zero : e.lb = constZero) (dense : e.st = e.wi)
    (sound : e.Sound vals) : members vals e = {i | 0 ≤ i ∧ i < e.ub} :=
  Set.ext (mem_dense zero (congrArg (Opd.eval vals) dense) sound)

theorem shiftExtent_exact {e shifted : Extent} (sound : e.Sound vals)
    (computed : shiftExtent host vals e = some shifted) :
    shifted.Sound vals ∧ Reindexes (members vals shifted) (unshift vals e) (members vals e) := by
  have low := sound.lb_nonneg
  have high := sound.ub_lt
  have ordered := sound.lb_le
  simp only [shiftExtent] at computed
  split at computed
  · next zero =>
      cases computed
      refine ⟨sound, (Reindexes.id _).congr fun o _ => ?_⟩
      simp [unshift, zero]
  · next nonzero =>
      obtain ⟨ub, ubEq, rfl⟩ := Option.map_eq_some_iff.mp computed
      obtain ⟨rfl, -, -⟩ := host_norm ubEq
      refine ⟨⟨le_rfl, ?_, ?_, sound.wi_pos, sound.wi_le, sound.st_lt⟩, ?_⟩
      · simp only [eval_constZero]
        omega
      · show e.ub - e.lb.eval vals < 2 ^ 31
        omega
      have exact : Reindexes
          (members vals { e with lb := constZero, ub := e.ub - e.lb.eval vals })
          (fun o => some (o + e.lb.eval vals)) (members vals e) := by
        apply Reindexes.of_inverse (fun i => i - e.lb.eval vals)
        · rintro o ⟨oLow, oHigh, inGrid⟩
          simp only [eval_constZero, sub_zero] at oLow oHigh inGrid
          refine ⟨by omega, by omega, ?_⟩
          rwa [add_sub_cancel_right]
        · rintro i ⟨iLow, iHigh, inGrid⟩
          refine ⟨?_, ?_, ?_⟩
          · simp only [eval_constZero]
            omega
          · show i - e.lb.eval vals < e.ub - e.lb.eval vals
            omega
          · simpa only [eval_constZero, sub_zero] using inGrid
        · intro i _
          ring
        · intro o _
          ring
      refine exact.congr fun o inside => ?_
      obtain ⟨oLow, oHigh, -⟩ := inside
      simp only [eval_constZero] at oLow oHigh
      simp only [unshift, if_neg nonzero]
      rw [wrap_eq (by omega) (by omega)]

/-- The dense numbers of a compressed dimension and the grid points they stand for. -/
theorem compressed_exact {ub st wi : Int} (wiPos : 0 < wi) (wiLe : wi ≤ st)
    {compressed : Int} (counted : compressed = ub / st * wi + min (ub % st) wi) :
    Reindexes {j | 0 ≤ j ∧ j < compressed} (fun j => some (j / wi * st + j % wi))
      {i | 0 ≤ i ∧ i < ub ∧ i % st < wi} := by
  have stPos : 0 < st := lt_of_lt_of_le wiPos wiLe
  have rest0 := Int.emod_nonneg ub stPos.ne'
  have least : 0 ≤ min (ub % st) wi ∧ min (ub % st) wi ≤ wi := by omega
  have below (j : Int) : j < compressed ↔
      j / wi < ub / st ∨ (j / wi = ub / st ∧ j % wi < min (ub % st) wi) := by
    rw [counted]
    exact lt_join_iff least.1 least.2 wiPos
  have whole (i : Int) : i < ub ↔ i / st < ub / st ∨ (i / st = ub / st ∧ i % st < ub % st) := by
    conv_lhs => rw [show ub = ub / st * st + ub % st by rw [mul_comm, Int.mul_ediv_add_emod]]
    exact lt_join_iff rest0 (Int.emod_lt_of_pos ub stPos).le stPos
  apply Reindexes.of_inverse (fun i => i / st * wi + i % st)
  · rintro j ⟨low, high⟩
    have mod0 := Int.emod_nonneg j wiPos.ne'
    have modLt := Int.emod_lt_of_pos j wiPos
    obtain ⟨quotient, remainder⟩ := joined (q := j / wi) mod0 (show j % wi < st by omega)
    have := mul_nonneg (Int.ediv_nonneg low wiPos.le) stPos.le
    refine ⟨by omega, ?_, by omega⟩
    rw [whole, quotient, remainder]
    rcases (below j).mp high with less | ⟨same, less⟩
    · exact Or.inl less
    · exact Or.inr ⟨same, by omega⟩
  · rintro i ⟨low, high, inGrid⟩
    have mod0 := Int.emod_nonneg i stPos.ne'
    obtain ⟨quotient, remainder⟩ := joined (q := i / st) mod0 inGrid
    have := mul_nonneg (Int.ediv_nonneg low stPos.le) wiPos.le
    refine ⟨by omega, ?_⟩
    rw [below, quotient, remainder]
    rcases (whole i).mp high with less | ⟨same, less⟩
    · exact Or.inl less
    · exact Or.inr ⟨same, by omega⟩
  · rintro i ⟨low, -, inGrid⟩
    obtain ⟨quotient, remainder⟩ := joined (q := i / st) (Int.emod_nonneg i stPos.ne') inGrid
    rw [quotient, remainder, mul_comm, Int.mul_ediv_add_emod]
  · rintro j ⟨low, -⟩
    have mod0 := Int.emod_nonneg j wiPos.ne'
    have modLt := Int.emod_lt_of_pos j wiPos
    obtain ⟨quotient, remainder⟩ := joined (q := j / wi) mod0 (show j % wi < st by omega)
    rw [quotient, remainder, mul_comm, Int.mul_ediv_add_emod]

/-- The ICMs that undo a compression compute the grid point without an overflow. -/
theorem uncompressed_eq {ub st wi j : Int} (small : ub < 2 ^ 31) (wiPos : 0 < wi) (wiLe : wi ≤ st)
    (low : 0 ≤ j) (inside : j / wi * st + j % wi < ub) :
    uncompressed st wi j = j / wi * st + j % wi := by
  have stPos : 0 < st := lt_of_lt_of_le wiPos wiLe
  have mod0 := Int.emod_nonneg j wiPos.ne'
  have full := Int.ediv_nonneg low wiPos.le
  have scaled := mul_nonneg full stPos.le
  have wider := mul_le_mul_of_nonneg_left wiLe full
  have whole := Int.mul_ediv_add_emod j wi
  rw [mul_comm] at whole
  rw [uncompressed, devDiv_eq low (by omega) wiPos, devMod_eq low (by omega) wiPos,
    wrap_eq (a := j / wi * st) (by omega) (by omega), wrap_eq (by omega) (by omega)]

theorem compressExtent_exact {flag : Bool} {e compressed : Extent} (sound : e.Sound vals)
    (normalized : flag = true → e.lb = constZero)
    (computed : compressExtent host vals (flag, e) = some compressed) :
    compressed.Sound vals ∧
      Reindexes (members vals compressed) (uncompress vals (flag, e)) (members vals e) := by
  have wiPos := sound.wi_pos
  have wiLe := sound.wi_le
  have small := sound.ub_lt
  simp only [compressExtent] at computed
  split at computed
  · next skipped =>
      cases computed
      refine ⟨sound, (Reindexes.id _).congr fun o _ => ?_⟩
      simp only [uncompress, if_pos skipped]
  · next taken =>
      have zero : e.lb = constZero := by
        simp only [Bool.or_eq_true, Bool.not_eq_true', not_or, Bool.not_eq_false] at taken
        exact normalized taken.1
      have nonneg : 0 ≤ e.ub := by simpa [zero] using sound.lb_le
      obtain ⟨ub, ubEq, rfl⟩ := Option.map_eq_some_iff.mp computed
      have counted : ub = e.ub / e.st.eval vals * e.wi.eval vals +
          min (e.ub % e.st.eval vals) (e.wi.eval vals) := by
        split at ubEq
        · next one =>
            rw [one, eval_constOne]
            exact host_compressedS nonneg (by omega) ubEq
        · exact (host_compressedSW nonneg ubEq).1
      have stPos : 0 < e.st.eval vals := by omega
      have rest0 := Int.emod_nonneg e.ub stPos.ne'
      have low : 0 ≤ ub := by
        have := mul_nonneg (Int.ediv_nonneg nonneg stPos.le) wiPos.le
        omega
      have high : ub ≤ e.ub := by
        have := mul_le_mul_of_nonneg_left wiLe (Int.ediv_nonneg nonneg stPos.le)
        have whole := Int.mul_ediv_add_emod e.ub (e.st.eval vals)
        rw [mul_comm] at whole
        omega
      have compressedSound : ({ e with st := constOne, wi := constOne, ub := ub } : Extent).Sound
          vals := by
        refine ⟨sound.lb_nonneg, by simpa [zero] using low, by show ub < 2 ^ 31; omega, ?_, ?_, ?_⟩
        · exact one_pos
        · exact le_rfl
        · norm_num
      refine ⟨compressedSound, ?_⟩
      have outer : members vals { e with st := constOne, wi := constOne, ub := ub } =
          {j | 0 ≤ j ∧ j < ub} := members_dense zero rfl compressedSound
      have inner : members vals e =
          {i | 0 ≤ i ∧ i < e.ub ∧ i % e.st.eval vals < e.wi.eval vals} := by
        simp only [members, zero, eval_constZero, sub_zero]
      have exact := compressed_exact wiPos wiLe counted
      rw [outer, inner]
      refine exact.congr fun j inside => ?_
      have landed := exact.sound j inside _ rfl
      have product : j / e.wi.eval vals * e.st.eval vals + j % e.wi.eval vals < e.ub :=
        landed.2.1
      simp only [uncompress, if_neg taken, Option.some.injEq]
      split
      · next one =>
          rw [one, eval_constOne, Int.ediv_one, Int.emod_one, add_zero] at product ⊢
          have := mul_nonneg inside.1 stPos.le
          exact wrap_eq (by omega) (by omega)
      · exact uncompressed_eq small wiPos wiLe inside.1 product

theorem pruneExtent_exact {e : Extent} (sound : e.Sound vals) (zero : e.lb = constZero) :
    (pruneExtent e).Sound vals ∧
      Reindexes (members vals (pruneExtent e)) (unprune vals e) (members vals e) := by
  have stPos : 0 < e.st.eval vals := lt_of_lt_of_le sound.wi_pos sound.wi_le
  have pruned : (pruneExtent e).Sound vals :=
    ⟨sound.lb_nonneg, sound.lb_le, sound.ub_lt, one_pos, le_rfl, by norm_num [pruneExtent]⟩
  have outer (i : Int) : i ∈ members vals (pruneExtent e) ↔ 0 ≤ i ∧ i < e.ub :=
    mem_dense (e := pruneExtent e) zero rfl pruned i
  have inner (i : Int) : i ∈ members vals e ↔
      i ∈ members vals (pruneExtent e) ∧ i % e.st.eval vals < e.wi.eval vals := by
    rw [outer]
    simp only [members, Set.mem_ofPred_eq, zero, eval_constZero, sub_zero]
    tauto
  refine ⟨pruned, (Reindexes.of_filter _ inner).congr fun i inside => ?_⟩
  obtain ⟨low, high⟩ := (outer i).mp inside
  have small := sound.ub_lt
  have wiPos := sound.wi_pos
  simp only [unprune, devMod_eq low (by omega) stPos]
  by_cases one : e.st = constOne
  · have even : i % e.st.eval vals < e.wi.eval vals := by
      rw [one, eval_constOne, Int.emod_one]
      exact wiPos
    rw [if_pos (Or.inl one), if_pos even]
  · simp only [one, false_or]

theorem padExtent_exact {divisibility : Nat} {e paddedE : Extent} (sound : e.Sound vals)
    (computed : padExtent host divisibility e = some paddedE) :
    paddedE.Sound vals ∧ Reindexes (members vals paddedE) (unpad e) (members vals e) := by
  obtain ⟨ub, ubEq, rfl⟩ := Option.map_eq_some_iff.mp computed
  have ordered := sound.lb_le
  obtain ⟨-, -, more, small, -⟩ := host_padded (sound.lb_nonneg.trans ordered) ubEq
  refine ⟨⟨sound.lb_nonneg, ordered.trans more, small, sound.wi_pos, sound.wi_le, sound.st_lt⟩, ?_⟩
  have inner (i : Int) : i ∈ members vals e ↔ i ∈ members vals { e with ub := ub } ∧ i < e.ub := by
    simp only [members, Set.mem_ofPred_eq]
    constructor
    · rintro ⟨low, high, inGrid⟩
      exact ⟨⟨low, by omega, inGrid⟩, high⟩
    · rintro ⟨⟨low, -, inGrid⟩, high⟩
      exact ⟨low, high, inGrid⟩
  refine (Reindexes.of_filter _ inner).congr fun i _ => ?_
  simp only [unpad]
  by_cases within : i < e.ub
  · rw [if_neg (by omega), if_pos within]
  · rw [if_pos (by omega), if_neg within]

/-- Two dense dimensions as one, of the product of their sizes -/
theorem fold_exact {a b : Int} (bPos : 0 ≤ b) :
    Reindexes (Box [{i | 0 ≤ i ∧ i < a * b}])
      (fun vector => some [vector.headD 0 / b, vector.headD 0 % b])
      (Box [{i | 0 ≤ i ∧ i < a}, {i | 0 ≤ i ∧ i < b}]) := by
  have below {i : Int} (pos : 0 < b) : i < a * b ↔ i / b < a := by
    have split := lt_join_iff (i := i) (q := a) le_rfl pos.le pos
    rw [add_zero] at split
    rw [split, or_iff_left]
    rintro ⟨-, less⟩
    exact absurd (Int.emod_nonneg i pos.ne') (by omega)
  apply Reindexes.of_inverse (fun vector => [vector.headD 0 * b + vector.getD 1 0])
  · intro vector inside
    obtain ⟨i, ⟨low, high⟩, rfl⟩ := box_one.mp inside
    have pos : 0 < b := by
      rcases bPos.lt_or_eq with pos | rfl
      · exact pos
      · omega
    refine box_two.mpr ⟨i / b, ⟨Int.ediv_nonneg low bPos, (below pos).mp high⟩, i % b,
      ⟨Int.emod_nonneg i pos.ne', Int.emod_lt_of_pos i pos⟩, rfl⟩
  · intro vector inside
    obtain ⟨i, ⟨low, high⟩, j, ⟨jLow, jHigh⟩, rfl⟩ := box_two.mp inside
    have pos : 0 < b := by omega
    have := mul_nonneg low bPos
    refine box_one.mpr ⟨i * b + j, ⟨by omega, ?_⟩, rfl⟩
    rw [below pos, (joined jLow jHigh).1]
    exact high
  · intro vector inside
    obtain ⟨i, -, j, ⟨jLow, jHigh⟩, rfl⟩ := box_two.mp inside
    obtain ⟨quotient, remainder⟩ := joined (q := i) jLow jHigh
    simp [quotient, remainder]
  · intro vector inside
    obtain ⟨i, -, rfl⟩ := box_one.mp inside
    simp only [List.headD_cons, List.getD_cons_succ, List.getD_cons_zero, List.cons.injEq, and_true]
    rw [mul_comm, Int.mul_ediv_add_emod]

theorem foldExtents_exact {major minor folded : Extent} (sound : major.Sound vals)
    (soundMinor : minor.Sound vals) (zero : major.lb = constZero) (dense : major.st = major.wi)
    (zeroMinor : minor.lb = constZero) (denseMinor : minor.st = minor.wi)
    (computed : foldExtents host major minor = some folded) :
    folded.Sound vals ∧ Reindexes (Box [members vals folded]) (unfold minor)
      (Box [members vals major, members vals minor]) := by
  obtain ⟨ub, ubEq, rfl⟩ := Option.map_eq_some_iff.mp computed
  obtain ⟨rfl, -, small⟩ := host_norm ubEq
  have nonneg : 0 ≤ major.ub := by simpa [zero] using sound.lb_le
  have nonnegMinor : 0 ≤ minor.ub := by simpa [zeroMinor] using soundMinor.lb_le
  have foldedSound : ({ major with ub := major.ub * minor.ub } : Extent).Sound vals :=
    ⟨sound.lb_nonneg, by simpa [zero] using mul_nonneg nonneg nonnegMinor, small, sound.wi_pos,
      sound.wi_le, sound.st_lt⟩
  refine ⟨foldedSound, ?_⟩
  have outer : members vals { major with ub := major.ub * minor.ub } =
      {i | 0 ≤ i ∧ i < major.ub * minor.ub} := members_dense zero dense foldedSound
  rw [outer, members_dense zero dense sound, members_dense zeroMinor denseMinor soundMinor]
  refine (fold_exact nonnegMinor).congr fun vector inside => ?_
  obtain ⟨i, ⟨low, high⟩, rfl⟩ := box_one.mp inside
  have pos : 0 < minor.ub := by
    rcases nonnegMinor.lt_or_eq with pos | none
    · exact pos
    · rw [← none, mul_zero] at high
      omega
  simp only [unfold, List.headD_cons]
  rw [devDiv_eq low (by omega) pos, devMod_eq low (by omega) pos]

/-- A dense dimension in pieces of one length that divides its size -/
theorem split_exact {ub len : Int} (pos : 0 < len) (whole : len ∣ ub) :
    Reindexes (Box [{i | 0 ≤ i ∧ i < ub / len}, {i | 0 ≤ i ∧ i < len}])
      (fun vector => some [vector.headD 0 * len + vector.getD 1 0])
      (Box [{i | 0 ≤ i ∧ i < ub}]) := by
  have exact := fold_exact (a := ub / len) pos.le
  rw [Int.ediv_mul_cancel whole] at exact
  apply Reindexes.of_inverse (fun vector => [vector.headD 0 / len, vector.headD 0 % len])
  · intro vector inside
    obtain ⟨o, ⟨oInside, back⟩, -⟩ := exact.once vector inside
    cases back
    obtain ⟨i, -, rfl⟩ := box_one.mp oInside
    simp only [List.headD_cons, List.getD_cons_succ, List.getD_cons_zero]
    rwa [mul_comm, Int.mul_ediv_add_emod]
  · intro vector inside
    exact exact.sound vector inside _ rfl
  · intro vector inside
    obtain ⟨i, -, rfl⟩ := box_one.mp inside
    simp only [List.headD_cons, List.getD_cons_succ, List.getD_cons_zero, List.cons.injEq, and_true]
    rw [mul_comm, Int.mul_ediv_add_emod]
  · intro vector inside
    obtain ⟨i, -, j, ⟨jLow, jHigh⟩, rfl⟩ := box_two.mp inside
    obtain ⟨quotient, remainder⟩ := joined (q := i) jLow jHigh
    simp [quotient, remainder]

theorem splitExtent_exact {minorlen : Nat} {major : Extent} {split : List Extent}
    (sound : major.Sound vals) (zero : major.lb = constZero) (dense : major.st = major.wi)
    (computed : splitExtent host minorlen major = some split) :
    (∀ e ∈ split, e.Sound vals) ∧ Reindexes (Box (split.map (members vals)))
      (unsplit minorlen major) (Box [members vals major]) := by
  simp only [splitExtent, Option.bind_eq_bind, Option.bind_eq_some_iff, Option.some.injEq]
    at computed
  obtain ⟨pad, padEq, ub, ubEq, rfl⟩ := computed
  obtain ⟨padSound, padExact⟩ := padExtent_exact sound padEq
  obtain ⟨padUb, padUbEq, rfl⟩ := Option.map_eq_some_iff.mp padEq
  have nonneg : 0 ≤ major.ub := by simpa [zero] using sound.lb_le
  obtain ⟨lenPos, lenSmall, more, small, divides⟩ := host_padded nonneg padUbEq
  obtain ⟨-, rfl⟩ := host_div ubEq (by show 0 ≤ padUb; omega)
  have pos : (0 : Int) < minorlen := by omega
  have lessEq : padUb / minorlen ≤ padUb := Int.ediv_le_self _ (by omega)
  have soundMajor : ({ major with ub := padUb / minorlen } : Extent).Sound vals :=
    ⟨sound.lb_nonneg, by simpa [zero] using Int.ediv_nonneg (by omega) pos.le,
      by show padUb / minorlen < 2 ^ 31; omega, sound.wi_pos, sound.wi_le, sound.st_lt⟩
  have soundMinor : (⟨constZero, constOne, constOne, minorlen⟩ : Extent).Sound vals :=
    ⟨le_rfl, pos.le, by show (minorlen : Int) < 2 ^ 31; omega, one_pos, le_rfl, by norm_num⟩
  have padMembers : members vals { major with ub := padUb } = {i | 0 ≤ i ∧ i < padUb} :=
    members_dense zero dense padSound
  have majorMembers : members vals { major with ub := padUb / minorlen } =
      {i | 0 ≤ i ∧ i < padUb / minorlen} := members_dense zero dense soundMajor
  have minorMembers : members vals ⟨constZero, constOne, constOne, minorlen⟩ =
      {i | 0 ≤ i ∧ i < (minorlen : Int)} := members_dense rfl rfl soundMinor
  refine ⟨by simp [soundMajor, soundMinor], ?_⟩
  have pieces := split_exact pos divides
  have cutBack : Reindexes (Box [members vals { major with ub := padUb }])
      (mapBacks unpad [major]) (Box [members vals major]) :=
    Reindexes.box_one padExact (mapBacks_one unpad major)
  simp only [List.map_cons, List.map_nil, majorMembers, minorMembers]
  rw [padMembers] at cutBack
  refine (pieces.comp cutBack).congr fun vector inside => ?_
  have landed := pieces.sound vector inside _ rfl
  obtain ⟨i, ⟨iLow, -⟩, j, ⟨jLow, -⟩, rfl⟩ := box_two.mp inside
  obtain ⟨k, ⟨-, kHigh⟩, same⟩ := box_one.mp landed
  simp only [List.headD_cons, List.getD_cons_succ, List.getD_cons_zero, List.cons.injEq,
    and_true] at same
  have := mul_nonneg iLow pos.le
  simp only [unsplit, List.headD_cons, List.getD_cons_succ, List.getD_cons_zero,
    Option.bind_some, mapBacks_one]
  rw [wrap_eq (a := i * minorlen) (by omega) (by omega), wrap_eq (by omega) (by omega)]

end Axes

section Spaces

variable (vals : Var → Int)

/-- The index vectors of a generator -/
def space (extents : List Extent) : Set (List Int) := Box (extents.map (members vals))

/-- What the host pass asserts of the texts before it compiles a mapping -/
def Asserted (mapping : Mapping) (extents : List Extent) : Prop :=
  match mapping with
  | .compressGrid shouldCompress =>
      ∀ entry ∈ shouldCompress.zip extents, entry.1 = true → entry.2.lb = constZero
  | .pruneGrid => ∀ e ∈ extents, e.lb = constZero
  | .foldLast2 => ∀ front major minor, extents = front ++ [major, minor] →
      (major.lb = constZero ∧ major.st = major.wi) ∧ minor.lb = constZero ∧ minor.st = minor.wi
  | .splitLast _ => ∀ front major, extents = front ++ [major] →
      major.lb = constZero ∧ major.st = major.wi
  | _ => True

variable {vals}

/-- A loop over the dimensions that is exact in each of them -/
theorem mapM_exact {Entry : Type} (extent : Entry → Extent) (step : Entry → Option Extent)
    (undo : Entry → Int → Option Int) (entries : List Entry) {extents : List Extent}
    (exact : ∀ entry ∈ entries, ∀ changed, step entry = some changed →
      changed.Sound vals ∧
        Reindexes (members vals changed) (undo entry) (members vals (extent entry)))
    (computed : entries.mapM step = some extents) :
    (∀ e ∈ extents, e.Sound vals) ∧
      Reindexes (space vals extents) (mapBacks undo entries) (space vals (entries.map extent)) := by
  induction entries generalizing extents with
  | nil =>
      cases computed
      exact ⟨by simp, Reindexes.box_nil rfl⟩
  | cons entry entries ih =>
      simp only [List.mapM_cons, Option.bind_eq_bind, Option.bind_eq_some_iff, Option.pure_def,
        Option.some.injEq] at computed
      obtain ⟨changed, first, rest, others, rfl⟩ := computed
      obtain ⟨headSound, head⟩ := exact entry (List.mem_cons_self ..) changed first
      obtain ⟨tailSound, tail⟩ := ih
        (fun other member => exact other (List.mem_cons_of_mem _ member)) others
      refine ⟨?_, Reindexes.box_cons head tail⟩
      intro e member
      rcases List.mem_cons.mp member with rfl | later
      · exact headSound
      · exact tailSound e later

/-- An exact change of the last dimensions -/
theorem lasts_exact {front : List Extent} (inner outer : List Extent)
    {undo : List Int → Option (List Int)} (sound : ∀ e ∈ front ++ inner, e.Sound vals)
    (exact : (∀ e ∈ outer, e.Sound vals) ∧
      Reindexes (Box (outer.map (members vals))) undo (Box (inner.map (members vals)))) :
    (∀ e ∈ front ++ outer, e.Sound vals) ∧
      Reindexes (space vals (front ++ outer)) (onLast front.length undo)
        (space vals (front ++ inner)) := by
  refine ⟨List.forall_mem_append.mpr ⟨(List.forall_mem_append.mp sound).1, exact.1⟩, ?_⟩
  have whole := exact.2.onLast (front.map (members vals))
  rwa [List.length_map, ← List.map_append, ← List.map_append] at whole

theorem permuteStrvec_map {α β : Type} {permutation : List Nat} {vec newvec : List α} (f : α → β)
    (permuted : permuteStrvec permutation vec = some newvec) :
    permuteStrvec permutation (vec.map f) = some (newvec.map f) := by
  obtain ⟨same, each⟩ := permuteStrvec_eq_some_iff.mp permuted
  rw [permuteStrvec_eq_some_iff]
  refine ⟨by simp [same], fun i lt => ?_⟩
  rw [List.length_map] at lt
  rw [List.getElem?_map, ← each i lt]
  cases permutation[i]? <;> simp

/-- Each mapping is an exact change of the index space. -/
theorem forward_exact {mapping : Mapping} {extents outer : List Extent}
    (sound : ∀ e ∈ extents, e.Sound vals) (checked : mapping.checkArgs = true)
    (asserted : Asserted mapping extents) (computed : forward host vals mapping extents = some outer) :
    (∀ e ∈ outer, e.Sound vals) ∧
      Reindexes (space vals outer) (back vals mapping extents) (space vals extents) := by
  cases mapping with
  | shiftLB =>
      have exact := mapM_exact id (shiftExtent host vals) (unshift vals) extents
        (fun e member _ computed => shiftExtent_exact (sound e member) computed) computed
      rwa [List.map_id] at exact
  | compressGrid shouldCompress =>
      simp only [forward] at computed
      split at computed
      · cases computed
      · next same =>
          have exact := mapM_exact Prod.snd (compressExtent host vals) (uncompress vals)
            (shouldCompress.zip extents)
            (fun entry member _ computed =>
              compressExtent_exact (sound entry.2 (List.of_mem_zip member).2)
                (asserted entry member) computed) computed
          rwa [List.map_snd_zip (by omega)] at exact
  | pruneGrid =>
      cases computed
      have loop : (extents.mapM fun e => some (pruneExtent e)) = some (extents.map pruneExtent) :=
        List.mapM_pure
      have exact := mapM_exact id (fun e => some (pruneExtent e)) (unprune vals) extents
        (fun e member _ computed => by
          cases computed
          exact pruneExtent_exact (sound e member) (asserted e member)) loop
      rwa [List.map_id] at exact
  | permute permutation =>
      simp only [forward] at computed
      split at computed
      · cases computed
      · next same =>
          have perm := checked_perm checked
          refine ⟨?_, permute_exact perm (permuteStrvec_map (members vals) computed) (by simpa using same)⟩
          exact fun e member => sound e (permuted_mem computed member)
  | foldLast2 =>
      simp only [forward, Option.bind_eq_bind, Option.bind_eq_some_iff, Option.some.injEq]
        at computed
      obtain ⟨⟨front, major, minor⟩, split, folded, foldEq, rfl⟩ := computed
      have parts := lastTwo_eq_some.mp split
      obtain ⟨⟨zero, dense⟩, zeroMinor, denseMinor⟩ := asserted front major minor parts
      subst parts
      obtain ⟨foldedSound, exact⟩ := foldExtents_exact (sound major (by simp))
        (sound minor (by simp)) zero dense zeroMinor denseMinor foldEq
      have whole := lasts_exact [major, minor] [folded] sound
        ⟨by simpa using foldedSound, exact⟩
      simpa only [back, split, Option.bind_eq_bind, Option.bind_some] using whole
  | splitLast minorlen =>
      simp only [forward, Option.bind_eq_bind, Option.bind_eq_some_iff, Option.some.injEq]
        at computed
      obtain ⟨⟨front, major⟩, split, pieces, splitEq, rfl⟩ := computed
      have parts := lastOne_eq_some.mp split
      obtain ⟨zero, dense⟩ := asserted front major parts
      subst parts
      have whole := lasts_exact [major] pieces sound
        (splitExtent_exact (sound major (by simp)) zero dense splitEq)
      simpa only [back, split, Option.bind_eq_bind, Option.bind_some] using whole
  | padLast divisibility =>
      simp only [forward, Option.bind_eq_bind, Option.bind_eq_some_iff, Option.some.injEq]
        at computed
      obtain ⟨⟨front, last⟩, split, pad, padEq, rfl⟩ := computed
      have parts := lastOne_eq_some.mp split
      subst parts
      obtain ⟨padSound, exact⟩ := padExtent_exact (sound last (by simp)) padEq
      have whole := lasts_exact [last] [pad] sound
        ⟨by simpa using padSound, Reindexes.box_one exact (mapBacks_one unpad last)⟩
      simpa only [back, split, Option.bind_eq_bind, Option.bind_some] using whole

end Spaces

end Sac2c.ThreadSpaces
