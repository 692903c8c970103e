import Sac2c.LivePayloads
import Sac2c.Fragmentation

/-!
A chunk from the moment it is handed out until it is given back. Whatever else is asked for,
freed or stored in between, it stays where it is, with the size and the arena it had, and its
words change by the stores of the program alone.
-/

namespace Sac2c.HeldChunks

open Headers LargeChunks Blocks Links BoundaryTags FreeList LargeMachine LargeArenas Trace
open BinOrder LivePayloads Fragmentation

/-- The chunk at `header` is still held, with the size and the arena it had. -/
structure Kept (header : Int) (before after : State) : Prop where
  held : header ∈ after.headers
  size : after.heap.largechunkSize header = before.heap.largechunkSize header
  owner : after.heap.largechunkArena header = before.heap.largechunkArena header

/-- The units of the chunk behind its first one are the same. -/
def SameWords (header : Int) (before after : State) : Prop :=
  ∀ unit, header < unit → unit < header + before.heap.largechunkSize header →
    after.heap.first unit = before.heap.first unit ∧
      after.heap.second unit = before.heap.second unit

section Steps

variable {arena : Arena} {before after : State} {layout renewed : Layout Status}
  {chain nodes : List Int} {header freep : Int} {chunk : Block Status}

theorem kept_of_live (sound : Sound arena before.heap layout chain)
    (soundNew : Sound arena after.heap renewed nodes)
    (atHeader : layout.block header = some chunk) (atNew : renewed.block header = some chunk)
    (isLive : chunk.state = .live) (held : header ∈ after.headers) : Kept header before after where
  held := held
  size := by
    have isClosed : chunk.state.IsChunk := Or.inl (Or.inl isLive)
    rw [(sound.tagged.sized header chunk atHeader isClosed).2,
      (soundNew.tagged.sized header chunk atNew isClosed).2]
  owner := by
    rw [sound.tagged.owned header chunk atHeader (Or.inl isLive),
      soundNew.tagged.owned header chunk atNew (Or.inl isLive)]

theorem same_words_of_untouched (sound : Sound arena before.heap layout chain)
    (atHeader : layout.block header = some chunk) (isLive : chunk.state = .live)
    (untouched : Untouched layout before.heap after.heap) : SameWords header before after := by
  intro unit above below
  rw [(sound.tagged.sized header chunk atHeader (Or.inl (Or.inl isLive))).2] at below
  exact untouched header chunk atHeader isLive unit above below

/-- The links and the tag of a freed chunk lie where no chunk is live any more. -/
theorem free_untouched (sound : Sound arena before.heap layout chain)
    (atFree : layout.block freep = some chunk) (isLive : chunk.state = .live) :
    Untouched (layout.retag freep chunk atFree .free) before.heap
      (doFreeLargeChunk arena before.heap freep) := by
  have soundNew := sound_free sound atFree isLive
  have freed := layout.retag_self atFree Status.free
  obtain ⟨_, follower, atEnd, _⟩ := soundNew.tagged.ended freep _ freed (Or.inr rfl)
  have sized := (sound.tagged.sized freep chunk atFree (Or.inl (Or.inl isLive))).2
  refine untouched_of_writes [freep + chunk.size, freep + 2, arena.freelist + 2] ?_ ?_
  · intro unit elsewhere
    simp only [List.mem_cons, List.not_mem_nil, or_false, not_or] at elsewhere
    obtain ⟨stop, link, dummy⟩ := elsewhere
    simp only [doFreeLargeChunk, sized, Heap.first_set_nextfree, Heap.first_set_prevsize,
      Heap.second_set_nextfree, Heap.second_set_prevsize, if_neg stop, if_neg link, if_neg dummy,
      and_self]
  · intro unit member
    simp only [List.mem_cons, List.not_mem_nil, or_false] at member
    rcases member with rfl | rfl | rfl
    · exact apart_start atEnd
    · exact apart_link soundNew (Or.inr (List.mem_cons_self ..))
    · exact apart_link soundNew (Or.inl rfl)

variable {arenaAt : Int → Arena}

/-- No step but the one that frees a chunk takes it away, and none but a store writes into it. -/
theorem held_step (large : IsLarge arena) {label : Label} (valid : Valid arena before)
    (step : Step arena arenaAt (Serviceable arena) (FreshBin arena) before label after)
    (held : header ∈ before.headers) (other : label ≠ .free (header + 2)) :
    Kept header before after ∧ (label ≠ .store → SameWords header before after) := by
  obtain ⟨layout, chain, sound, binned, owns⟩ := valid
  obtain ⟨chunk, atHeader, isLive⟩ := (owns.headers header).mp held
  cases step with
  | malloc units pointer supply fuel heap fits fresh returned =>
      have wide : 3 ≤ units := le_trans large.min fits.1
      have outcome := large_malloc_outcome large sound binned wide fits.2 fresh fuel
      rw [returned] at outcome
      obtain ⟨renewed, nodes, soundNew, _, serves⟩ := outcome
      have differ : header ≠ pointer - 2 := by
        rintro rfl
        exact serves.fresh chunk atHeader isLive
      exact ⟨kept_of_live sound soundNew atHeader
          ((serves.others header chunk differ isLive).mpr atHeader) isLive
          (List.mem_cons_of_mem _ held),
        fun _ => same_words_of_untouched sound atHeader isLive
          (large_malloc_untouched large sound binned wide fits.2 fresh returned)⟩
  | free pointer given =>
      obtain ⟨freed, atFreed, freedLive, isFree⟩ :=
        free_large_chunk sound owns large.aligned arenaAt given
      have differ : header ≠ pointer - 2 := by
        rintro rfl
        exact other (by rw [show pointer - 2 + 2 = pointer by omega])
      have atNew : (layout.retag (pointer - 2) freed atFreed .free).block header = some chunk :=
        (layout.retag_other atFreed Status.free differ).trans atHeader
      rw [isFree]
      have soundNew := sound_free sound atFreed freedLive
      refine ⟨kept_of_live sound soundNew atHeader atNew isLive ?_, fun _ unit above below => ?_⟩
      · obtain ⟨entry, member, isHeader⟩ := List.mem_map.mp held
        exact List.mem_map.mpr
          ⟨entry, List.mem_filter.mpr ⟨member, by simpa [isHeader] using differ⟩, isHeader⟩
      · rw [(sound.tagged.sized header chunk atHeader (Or.inl (Or.inl isLive))).2] at below
        exact free_untouched sound atFreed freedLive header chunk atNew isLive unit above below
  | store first second kept =>
      exact ⟨kept_of_live sound (sound_store sound binned.spans owns kept) atHeader atHeader
        isLive held, fun isStore => absurd rfl isStore⟩

end Steps

/-- In any run a chunk is held until it is freed, and without stores it keeps its words. -/
theorem held_until_freed (arena : Arena) (large : IsLarge arena) (arenaAt : Int → Arena)
    (start before after : State) (earlier labels : List Label) (initial : DummyOnly arena start)
    (reached : Run (Step arena arenaAt (Serviceable arena) (FreshBin arena)) start earlier before)
    (run : Run (Step arena arenaAt (Serviceable arena) (FreshBin arena)) before labels after)
    (header : Int) (held : header ∈ before.headers) (kept : .free (header + 2) ∉ labels) :
    Kept header before after ∧ (.store ∉ labels → SameWords header before after) := by
  have stays := valid_step large arenaAt fun units (fits : Serviceable arena units) =>
    ⟨le_trans large.min fits.1, fits.2⟩
  have valid := reached.invariant (Valid arena) stays (dummy_only_valid initial)
  clear reached
  induction run with
  | refl state => exact ⟨⟨held, rfl, rfl⟩, fun _ _ _ _ => ⟨rfl, rfl⟩⟩
  | next moved _ ih =>
      rw [List.mem_cons, not_or] at kept
      obtain ⟨now, same⟩ := held_step large valid moved held (Ne.symm kept.1)
      obtain ⟨later, sameLater⟩ := ih now.held kept.2 (stays _ _ _ valid moved)
      refine ⟨⟨later.held, later.size.trans now.size, later.owner.trans now.owner⟩, ?_⟩
      intro noStore unit above below
      rw [List.mem_cons, not_or] at noStore
      have first := same (Ne.symm noStore.1) unit above below
      have rest := sameLater noStore.2 unit above (by rw [now.size]; exact below)
      exact ⟨rest.1.trans first.1, rest.2.trans first.2⟩

abbrev Moves := Run (Step arena7 (fun _ => arena7) (Serviceable arena7) (FreshBin arena7))

/-- A second chunk is cut off below the first and given back. -/
theorem held_until_freed_neighbour : ∃ before labels after, Moves before labels after ∧
    labels.length = 2 ∧ Kept 24867 before after ∧ SameWords 24867 before after := by
  obtain ⟨earlier, before, labels, after, reached, run, two, held, other, noStore⟩ :
      ∃ earlier before labels after, Moves BinOrder.setUp earlier before ∧
        Moves before labels after ∧ labels.length = 2 ∧ 24867 ∈ before.headers ∧
        .free (24867 + 2) ∉ labels ∧ .store ∉ labels :=
    ⟨_, _, _, _, Run.next (Step.malloc BinOrder.setUp 8000 24869 firstBin 1 _
        ⟨by decide, by decide⟩ (first_bin_free rfl 8000) rfl) (Run.refl _),
      Run.next (Step.malloc _ 8000 16869 nextBin 4 _ ⟨by decide, by decide⟩
        (next_bin_free rfl 8000) rfl) (Run.next (Step.free _ 16869 (by decide)) (Run.refl _)),
      rfl, by decide, by simp, by simp⟩
  obtain ⟨kept, same⟩ := held_until_freed arena7 arena7_is_large _ _ before after _ labels
    set_up_dummy_only7 reached run 24867 held other
  exact ⟨before, labels, after, run, two, kept, same noStore⟩

end Sac2c.HeldChunks
