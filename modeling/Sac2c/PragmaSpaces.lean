import Sac2c.ThreadSpaces

/-!
The mappings of a whole pragma as one change of the index space. What the host
computes without an overflow the device computes too, so both passes end with the
same extents. Taken back through all mappings, the coordinates of the threads are
exactly the indices of the generator.
-/

namespace Sac2c.PragmaSpaces

open GpuKernel ThreadSpaces Reindexing

section Targets

/-- What one target computes the other computes as well. -/
structure Below (less more : Arith) : Prop where
  norm : ∀ value result, less.norm value = some result → more.norm value = some result
  byZero : ∀ result, less.byZero = some result → more.byZero = some result

theorem host_below_device : Below host device where
  norm value result computed := by
    obtain ⟨rfl, low, high⟩ := host_norm computed
    exact congrArg some (wrap_eq low high)
  byZero _ computed := nomatch computed

theorem bind_below {α β : Type} {less more : Option α} {next next' : α → Option β} {result : β}
    (computed : less.bind next = some result)
    (first : ∀ a, less = some a → more = some a)
    (second : ∀ a, next a = some result → next' a = some result) :
    more.bind next' = some result := by
  obtain ⟨a, found, rest⟩ := Option.bind_eq_some_iff.mp computed
  rw [first a found, Option.bind_some, second a rest]

theorem mapM_below {α β : Type} {step step' : α → Option β} {entries : List α} {results : List β}
    (computed : entries.mapM step = some results)
    (each : ∀ a b, step a = some b → step' a = some b) : entries.mapM step' = some results := by
  induction entries generalizing results with
  | nil => exact computed
  | cons a entries ih =>
      rw [List.mapM_cons] at computed ⊢
      refine bind_below computed (each a) fun b rest => ?_
      exact bind_below rest (fun _ => ih) fun _ done => done

variable {less more : Arith} (below : Below less more)

include below

theorem Below.div {a b result : Int} (computed : less.div a b = some result) :
    more.div a b = some result := by
  unfold Arith.div at computed ⊢
  split
  · next zero => exact below.byZero _ (by rwa [if_pos zero] at computed)
  · next nonzero => exact below.norm _ _ (by rwa [if_neg nonzero] at computed)

theorem Below.mod {a b result : Int} (computed : less.mod a b = some result) :
    more.mod a b = some result := by
  unfold Arith.mod at computed ⊢
  split
  · next zero => exact below.byZero _ (by rwa [if_pos zero] at computed)
  · next nonzero => exact below.norm _ _ (by rwa [if_neg nonzero] at computed)

theorem Below.padded {ub : Int} {divisibility : Nat} {result : Int}
    (computed : GpuKernel.padded less ub divisibility = some result) :
    GpuKernel.padded more ub divisibility = some result := by
  refine bind_below computed (fun _ => below.mod) fun rest computed => ?_
  refine bind_below computed (below.norm _) fun missing computed => ?_
  exact bind_below computed (fun _ => below.mod) fun more computed => below.norm _ _ computed

theorem Below.compressedS {ub st result : Int}
    (computed : GpuKernel.compressedS less ub st = some result) :
    GpuKernel.compressedS more ub st = some result := by
  refine bind_below computed (below.norm _) fun above computed => ?_
  exact bind_below computed (below.norm _) fun _ => below.div

theorem Below.compressedSW {ub st wi result : Int}
    (computed : GpuKernel.compressedSW less ub st wi = some result) :
    GpuKernel.compressedSW more ub st wi = some result := by
  refine bind_below computed (fun _ => below.mod) fun tmp computed => ?_
  refine bind_below computed (fun _ => below.div) fun full computed => ?_
  exact bind_below computed (below.norm _) fun scaled computed => below.norm _ _ computed

theorem Below.shiftExtent {vals : Var → Int} {e changed : Extent}
    (computed : ThreadSpaces.shiftExtent less vals e = some changed) :
    ThreadSpaces.shiftExtent more vals e = some changed := by
  unfold ThreadSpaces.shiftExtent at computed ⊢
  split
  · next zero => rwa [if_pos zero] at computed
  · next nonzero =>
      rw [if_neg nonzero] at computed
      obtain ⟨ub, found, rfl⟩ := Option.map_eq_some_iff.mp computed
      rw [below.norm _ _ found, Option.map_some]

theorem Below.compressExtent {vals : Var → Int} {entry : Bool × Extent} {changed : Extent}
    (computed : ThreadSpaces.compressExtent less vals entry = some changed) :
    ThreadSpaces.compressExtent more vals entry = some changed := by
  unfold ThreadSpaces.compressExtent at computed ⊢
  simp only at computed ⊢
  split
  · next skip => rwa [if_pos skip] at computed
  · next taken =>
      rw [if_neg taken] at computed
      obtain ⟨ub, found, rfl⟩ := Option.map_eq_some_iff.mp computed
      split at found
      · next narrow => rw [if_pos narrow, below.compressedS found, Option.map_some]
      · next wide => rw [if_neg wide, below.compressedSW found, Option.map_some]

theorem Below.padExtent {divisibility : Nat} {e changed : Extent}
    (computed : ThreadSpaces.padExtent less divisibility e = some changed) :
    ThreadSpaces.padExtent more divisibility e = some changed := by
  obtain ⟨ub, found, rfl⟩ := Option.map_eq_some_iff.mp computed
  rw [ThreadSpaces.padExtent, below.padded found, Option.map_some]

theorem Below.foldExtents {major minor changed : Extent}
    (computed : ThreadSpaces.foldExtents less major minor = some changed) :
    ThreadSpaces.foldExtents more major minor = some changed := by
  obtain ⟨ub, found, rfl⟩ := Option.map_eq_some_iff.mp computed
  rw [ThreadSpaces.foldExtents, below.norm _ _ found, Option.map_some]

theorem Below.splitExtent {minorlen : Nat} {major : Extent} {changed : List Extent}
    (computed : ThreadSpaces.splitExtent less minorlen major = some changed) :
    ThreadSpaces.splitExtent more minorlen major = some changed := by
  refine bind_below computed (fun _ => below.padExtent) fun padded computed => ?_
  exact bind_below computed (fun _ => below.div) fun _ done => done

theorem Below.forward {vals : Var → Int} {mapping : Mapping} {extents outer : List Extent}
    (computed : ThreadSpaces.forward less vals mapping extents = some outer) :
    ThreadSpaces.forward more vals mapping extents = some outer := by
  cases mapping with
  | shiftLB => exact mapM_below computed fun _ _ => below.shiftExtent
  | compressGrid shouldCompress =>
      simp only [ThreadSpaces.forward] at computed ⊢
      split
      · next different => rwa [if_pos different] at computed
      · next same =>
          rw [if_neg same] at computed
          exact mapM_below computed fun _ _ => below.compressExtent
  | pruneGrid => exact computed
  | permute permutation => exact computed
  | foldLast2 =>
      refine bind_below computed (fun _ found => found) fun _ computed => ?_
      exact bind_below computed (fun _ => below.foldExtents) fun _ done => done
  | splitLast minorlen =>
      refine bind_below computed (fun _ found => found) fun _ computed => ?_
      exact bind_below computed (fun _ => below.splitExtent) fun _ done => done
  | padLast divisibility =>
      refine bind_below computed (fun _ found => found) fun _ computed => ?_
      exact bind_below computed (fun _ => below.padExtent) fun _ done => done

end Targets

section Pragmas

variable (vals : Var → Int)

/-- Back through all mappings of a pragma, the outermost first -/
def backs : List Mapping → List Extent → List Int → Option (List Int)
  | [], _, vector => some vector
  | mapping :: inner, extents, vector => do
      let before ← forwards host vals inner extents
      let vector ← back vals mapping before vector
      backs inner extents vector

/-- The parser and the host pass let the pragma through. -/
def Admitted : List Mapping → List Extent → Prop
  | [], _ => True
  | mapping :: inner, extents => Admitted inner extents ∧ mapping.checkArgs = true ∧
      ∀ before, forwards host vals inner extents = some before → Asserted mapping before

variable {vals}

theorem forwards_exact {mappings : List Mapping} {extents outer : List Extent}
    (sound : ∀ e ∈ extents, e.Sound vals) (admitted : Admitted vals mappings extents)
    (computed : forwards host vals mappings extents = some outer) :
    (∀ e ∈ outer, e.Sound vals) ∧
      Reindexes (space vals outer) (backs vals mappings extents) (space vals extents) := by
  induction mappings generalizing outer with
  | nil =>
      cases computed
      exact ⟨sound, Reindexes.id _⟩
  | cons mapping inner ih =>
      obtain ⟨innerAdmitted, checked, asserted⟩ := admitted
      obtain ⟨before, found, computed⟩ := Option.bind_eq_some_iff.mp computed
      obtain ⟨beforeSound, exact⟩ := ih innerAdmitted found
      obtain ⟨outerSound, last⟩ := forward_exact beforeSound checked (asserted before found) computed
      refine ⟨outerSound, (last.comp exact).congr fun vector _ => ?_⟩
      rw [backs, found]
      rfl

/-- A mapping after which every dimension is dense -/
def Densifies : Mapping → Prop
  | .pruneGrid => True
  | .compressGrid shouldCompress => ∀ flag ∈ shouldCompress, flag = true
  | _ => False

def DenseExtent (vals : Var → Int) (e : Extent) : Prop := e.st.eval vals = e.wi.eval vals

theorem mapM_forall {α β : Type} {step : α → Option β} {entries : List α} {results : List β}
    {good : β → Prop} (computed : entries.mapM step = some results)
    (each : ∀ a ∈ entries, ∀ b, step a = some b → good b) : ∀ b ∈ results, good b := by
  have paired := StrvecPermutations.mapM_eq_some_iff.mp computed
  intro b member
  obtain ⟨i, lt, rfl⟩ := List.mem_iff_getElem.mp member
  have same := paired.length_eq
  exact each _ (List.get_mem entries ⟨i, by omega⟩) _ (paired.get (by omega) lt)

theorem compressExtent_dense {entry : Bool × Extent} {changed : Extent}
    (sound : entry.2.Sound vals) (dense : entry.1 = true ∨ DenseExtent vals entry.2)
    (computed : compressExtent host vals entry = some changed) : DenseExtent vals changed := by
  unfold compressExtent at computed
  simp only at computed
  split at computed
  · next skip =>
      cases computed
      rcases dense with taken | dense
      · have one : entry.2.st = constOne := by simpa [taken] using skip
        have low := sound.wi_pos
        have high := sound.wi_le
        rw [one, eval_constOne] at high
        rw [DenseExtent, one, eval_constOne]
        omega
      · exact dense
  · obtain ⟨ub, -, rfl⟩ := Option.map_eq_some_iff.mp computed
    rfl

theorem forward_dense {mapping : Mapping} {extents outer : List Extent}
    (sound : ∀ e ∈ extents, e.Sound vals)
    (dense : Densifies mapping ∨ ∀ e ∈ extents, DenseExtent vals e)
    (computed : forward host vals mapping extents = some outer) :
    ∀ e ∈ outer, DenseExtent vals e := by
  cases mapping with
  | shiftLB =>
      have dense := dense.resolve_left id
      refine mapM_forall computed fun e member changed shifted => ?_
      unfold shiftExtent at shifted
      split at shifted
      · cases shifted
        exact dense e member
      · obtain ⟨ub, -, rfl⟩ := Option.map_eq_some_iff.mp shifted
        exact dense e member
  | compressGrid shouldCompress =>
      simp only [forward] at computed
      split at computed
      · cases computed
      · refine mapM_forall computed fun entry member changed => ?_
        obtain ⟨inFlags, inExtents⟩ := List.of_mem_zip member
        exact compressExtent_dense (sound _ inExtents)
          (dense.imp (fun all => all _ inFlags) fun all => all _ inExtents)
  | pruneGrid =>
      cases computed
      intro e member
      obtain ⟨source, -, rfl⟩ := List.mem_map.mp member
      rfl
  | permute permutation =>
      have dense := dense.resolve_left id
      simp only [forward] at computed
      split at computed
      · cases computed
      · exact fun e member => dense e (StrvecPermutations.permuted_mem computed member)
  | foldLast2 =>
      have dense := dense.resolve_left id
      obtain ⟨⟨front, major, minor⟩, split, rest⟩ := Option.bind_eq_some_iff.mp computed
      obtain ⟨folded, found, equal⟩ := Option.bind_eq_some_iff.mp rest
      cases equal
      obtain ⟨ub, -, rfl⟩ := Option.map_eq_some_iff.mp found
      simp only [lastTwo_eq_some.mp split, List.forall_mem_append, List.forall_mem_cons] at dense
      exact List.forall_mem_append.mpr ⟨dense.1, List.forall_mem_singleton.mpr dense.2.1⟩
  | splitLast minorlen =>
      have dense := dense.resolve_left id
      obtain ⟨⟨front, major⟩, split, rest⟩ := Option.bind_eq_some_iff.mp computed
      obtain ⟨pieces, found, equal⟩ := Option.bind_eq_some_iff.mp rest
      cases equal
      obtain ⟨padded, pads, found⟩ := Option.bind_eq_some_iff.mp found
      obtain ⟨ub, -, equal⟩ := Option.bind_eq_some_iff.mp found
      cases equal
      obtain ⟨padUb, -, rfl⟩ := Option.map_eq_some_iff.mp pads
      simp only [lastOne_eq_some.mp split, List.forall_mem_append, List.forall_mem_singleton] at dense
      refine List.forall_mem_append.mpr ⟨dense.1, List.forall_mem_cons.mpr ⟨dense.2, ?_⟩⟩
      exact List.forall_mem_singleton.mpr rfl
  | padLast divisibility =>
      have dense := dense.resolve_left id
      obtain ⟨⟨front, last⟩, split, rest⟩ := Option.bind_eq_some_iff.mp computed
      obtain ⟨padded, found, equal⟩ := Option.bind_eq_some_iff.mp rest
      cases equal
      obtain ⟨ub, -, rfl⟩ := Option.map_eq_some_iff.mp found
      simp only [lastOne_eq_some.mp split, List.forall_mem_append, List.forall_mem_singleton] at dense
      exact List.forall_mem_append.mpr ⟨dense.1, List.forall_mem_singleton.mpr dense.2⟩

/-- Dense from the start or from some mapping on, the extents stay dense. -/
theorem forwards_dense {mappings : List Mapping} {extents outer : List Extent}
    (sound : ∀ e ∈ extents, e.Sound vals) (admitted : Admitted vals mappings extents)
    (dense : (∃ mapping ∈ mappings, Densifies mapping) ∨ ∀ e ∈ extents, DenseExtent vals e)
    (computed : forwards host vals mappings extents = some outer) :
    ∀ e ∈ outer, DenseExtent vals e := by
  induction mappings generalizing outer with
  | nil =>
      cases computed
      rcases dense with ⟨_, member, _⟩ | dense
      · cases member
      · exact dense
  | cons mapping inner ih =>
      obtain ⟨before, found, computed⟩ := Option.bind_eq_some_iff.mp computed
      refine forward_dense (forwards_exact sound admitted.1 found).1 ?_ computed
      rcases dense with ⟨densifying, member, densifies⟩ | dense
      · rcases List.mem_cons.mp member with rfl | later
        · exact Or.inl densifies
        · exact Or.inr (ih admitted.1 (Or.inl ⟨densifying, later, densifies⟩) found)
      · exact Or.inr (ih admitted.1 (Or.inr dense) found)

end Pragmas

end Sac2c.PragmaSpaces
