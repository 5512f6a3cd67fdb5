import Recompiler.Proofs.Arena.New
import Recompiler.Proofs.Emulator.Fetch

/-!
# A new emulator

Nothing is compiled, and no page is under a watch.
-/

namespace Recompiler

namespace CodeStore

variable {settings : Settings} (hs : settings.Valid)

include hs

theorem sourceOf_new (b : BlockId) : (CodeStore.new settings).arena.sourceOf b = none :=
  (Arena.block_new_clean hs b).2.2.2

theorem Indexed.new : (CodeStore.new settings).Indexed := by
  have hnone : ∀ b src, (CodeStore.new settings).arena.sourceOf b = some src → False :=
    fun b src hb => by
      rw [sourceOf_new hs] at hb
      cases hb
  have hfree : (CodeStore.new settings).watches.free = (List.range settings.watches).map .mk := rfl
  have hused : (CodeStore.new settings).watches.used = [] := rfl
  have hcapacity : (CodeStore.new settings).watches.capacity = settings.watches :=
    Array.size_replicate
  refine ⟨?_, fun id => ?_, fun id => ?_, fun b => ?_, fun b src hb => (hnone b src hb).elim,
    fun b src hb => (hnone b src hb).elim, fun b src hb => (hnone b src hb).elim,
    fun b _ src _ hb => (hnone b src hb).elim, rfl⟩
  · rw [hfree, hused, List.append_nil]
    exact List.nodup_range.map fun _ _ h => WatchId.mk.inj h
  · obtain ⟨n⟩ := id
    simp [hfree, hused, hcapacity]
  · have hfresh : ∃ page delay, (CodeStore.new settings).watches.watch id = .fresh page delay := by
      show ∃ page delay, (Array.replicate _ _).getD id.number (Watch.fresh 0 0) = _
      rw [Array.getD_eq_getD_getElem?, Array.getElem?_replicate]
      split
      · exact ⟨0, _, rfl⟩
      · exact ⟨0, 0, rfl⟩
    obtain ⟨page, delay, he⟩ := hfresh
    rw [he]
    exact .fresh (fun b src hb => (hnone b src hb).elim) page delay
  · rw [sourceOf_new hs]
    exact (Arena.block_new_clean hs b).2.2.1

theorem Coherent.new (decoder : Decoder) : (CodeStore.new settings).Coherent
    ⟨settings.blockInstructions, settings.blockBytes, decoder⟩ := by
  refine ⟨⟨Arena.Arranged.new hs, Arena.Linked.new hs⟩, rfl, rfl, ?_, ?_, .new hs,
    fun b src hb => ?_⟩
  · show (Arena.new settings).capacity < _
    rw [Arena.capacity_new]
    exact hs.ids
  · show 0 < (Array.replicate _ _).size
    rw [Array.size_replicate]
    exact hs.watches
  · rw [sourceOf_new hs] at hb
    cases hb

end CodeStore

namespace Emulator

/-- **A new emulator is coherent.** -/
theorem Coherent.new {settings : Settings} {memory : Memory} {decoder : Decoder} {e : Emulator}
    (hm : memory.Unwatched) (hn : Emulator.new settings memory decoder = .ok e) :
    e.Coherent := by
  unfold Emulator.new at hn
  split at hn
  · cases hn
  · next hobjection =>
      cases hn
      have hs := (Settings.objection?_eq_none_iff _).mp hobjection
      refine ⟨hs, .new hs decoder, fun page id => ?_, fun page id hw => ?_, fun page => ?_,
        fun b src hb => ?_⟩
      · rw [hm.watch]
        exact ⟨nofun, fun hu => absurd hu.1 List.not_mem_nil⟩
      · rw [hm.watch] at hw
        cases hw
      · rw [hm.watch]
        exact hm.hasCode page
      · rw [CodeStore.sourceOf_new hs] at hb
        cases hb

def zeroed : Emulator :=
  { settings := ⟨.small, .ia32⟩, guarded := { code := .new .small, memory := ⟨#[.zero]⟩ } }

theorem new_zeroed : Emulator.new .small ⟨#[.zero]⟩ = .ok zeroed := rfl

theorem unwatched_zeroed : Memory.Unwatched ⟨#[.zero]⟩ :=
  ⟨fun page => by cases page <;> rfl, fun page => by cases page <;> rfl⟩

end Emulator

end Recompiler
