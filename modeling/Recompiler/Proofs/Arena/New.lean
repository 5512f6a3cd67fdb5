import Recompiler.Proofs.Arena.Layout
import Recompiler.Proofs.Arena.Links

/-!
# A new arena

One region holds everything, the other descriptors are free, and nothing is
linked.
-/

namespace Recompiler

def Settings.small : Settings :=
  { arenaBytes := 1024, blockBytes := 512, descriptors := 8, watches := 1 }

theorem Settings.valid_small : Settings.small.Valid :=
  (Settings.objection?_eq_none_iff _).mp rfl

namespace Arena

section New

variable {s : Settings} (hs : s.Valid)

theorem capacity_new (s : Settings) : (Arena.new s).capacity = s.descriptors := by
  simp [Arena.new, capacity]

include hs

theorem block_new (id : BlockId) :
    (Arena.new s).block id =
      if id = .trampoline .first then .trampoline .first
      else if id = .trampoline .second then .trampoline .second
      else if id = firstRegion then { start := stubBytes, size := s.arenaBytes }
      else .unused := by
  have hsize := hs.descriptors
  obtain ⟨n⟩ := id
  simp only [Arena.new, block, Array.getD_eq_getD_getElem?, Array.getElem?_setIfInBounds,
    Array.size_setIfInBounds, Array.size_replicate, Array.getElem?_replicate, firstRegion,
    BlockId.lowest, BlockId.trampoline, BlockId.mk.injEq]
  rcases n with _ | _ | _ | n
  · simp [show 0 < s.descriptors by omega]
  · simp [show 1 < s.descriptors by omega]
  · simp [show 2 < s.descriptors by omega]
  · simp only [Nat.add_eq_zero_iff]
    split
    · simp_all
    · simp_all
      split
      · rfl
      · rfl

theorem block_new_clean (id : BlockId) :
    ((Arena.new s).block id).links = .unlinked ∧ ((Arena.new s).block id).ring = .empty ∧
      ((Arena.new s).block id).isLive = false ∧ ((Arena.new s).block id).source = none := by
  rw [block_new hs]
  split
  · exact ⟨rfl, rfl, rfl, rfl⟩
  · split
    · exact ⟨rfl, rfl, rfl, rfl⟩
    · split
      · exact ⟨rfl, rfl, rfl, rfl⟩
      · exact ⟨rfl, rfl, rfl, rfl⟩

theorem generation_new (id : BlockId) : ((Arena.new s).block id).generation = 0 := by
  rw [block_new hs]
  split
  · rfl
  · split
    · rfl
    · split
      · rfl
      · rfl

theorem successor_new (id : BlockId) (slot : Slot) :
    (Arena.new s).successor id slot = .trampoline slot := by
  rw [successor, (block_new_clean hs id).1, Links.get_unlinked]
  rfl

theorem Homed.new : (Arena.new s).Homed := fun d slot _ => successor_new hs d slot

theorem Linked.new : (Arena.new s).Linked := by
  refine .of_unlinked (fun t => ?_) (fun d => (block_new_clean hs d).1)
    fun d => (block_new_clean hs d).2.1
  rw [block_new hs]
  cases t <;> rfl

theorem Arranged.new : (Arena.new s).Arranged := by
  have hfirst : (Arena.new s).block firstRegion =
      { start := stubBytes, size := s.arenaBytes } := by
    rw [block_new hs]
    rfl
  have hblock := hs.block
  have harena := hs.arena
  have hdesc := hs.descriptors
  have hmem : ∀ id, id ∈ [firstRegion] ++ (Arena.new s).free ↔ (Arena.new s).Pooled id := by
    rintro ⟨n⟩
    rw [Pooled, capacity_new]
    simp only [Arena.new, firstRegion, BlockId.lowest, List.cons_append, List.nil_append,
      List.mem_cons, List.mem_map, List.mem_range'_1, BlockId.mk.injEq, exists_eq_right]
    omega
  have hnodup : ([firstRegion] ++ (Arena.new s).free).Nodup := by
    simp only [Arena.new, firstRegion, BlockId.lowest, List.cons_append, List.nil_append,
      List.nodup_cons, List.mem_map, List.mem_range'_1, BlockId.mk.injEq, exists_eq_right]
    refine ⟨by omega, List.Nodup.map (fun x y h => BlockId.mk.inj h) List.nodup_range'⟩
  refine ⟨hnodup, hmem, ?_, rfl, harena, List.mem_singleton_self _, ?_,
    fun id _ => (block_new_clean hs id).2.2.1, fun id h => by cases h⟩
  · refine ⟨stubBytes + s.arenaBytes, ?_, Nat.le_refl _⟩
    show (Arena.new s).Tiles stubBytes [firstRegion] _
    simp only [Tiles, hfirst, and_true, true_and]
    simp only [leastBlockBytes] at hblock
    omega
  · show ((Arena.new s).block firstRegion).start ≤ stubBytes + s.arenaBytes - s.blockBytes
    rw [hfirst]
    show stubBytes ≤ _
    omega

end New

end Arena

end Recompiler
