import Recompiler.Proofs.Guarded.Range
import Recompiler.Proofs.Store.Ledger

/-!
# What writes enter

A write ends the blocks that were compiled from a byte it changes, and the invalidation
of a range those that reach into it, however many pages either goes over.  Each block is
entered once, and all of them are counted.
-/

namespace Recompiler

namespace GuardedMemory

/-! ## What is counted -/

section Counted

variable (g : GuardedMemory) (running : Option BlockId)

theorem invalidates_writeWatched (id : WatchId) (width : Width) (addr value : UInt32) :
    g.code.arena.counters.Invalidates (g.writeWatched id width addr value running).1.blocks
      (g.writeWatched id width addr value running).2.code.arena.counters := by
  unfold writeWatched
  simp only
  split
  · let noted := (g.code.watches.watch id).noteChanges (offsetOf addr) (lastOf (offsetOf addr) width)
    exact CodeStore.invalidates_invalidate (offsetOf addr) (lastOf (offsetOf addr) width) running
      { g.code with watches := g.code.watches.set id noted } id
  · split
    · exact .refl _
    · split
      · exact .refl _
      · exact .refl _

theorem invalidates_writeWithin (width : Width) (addr value : UInt32) :
    g.code.arena.counters.Invalidates (g.writeWithin width addr value running).1.blocks
      (g.writeWithin width addr value running).2.code.arena.counters := by
  unfold writeWithin
  simp only
  split
  · exact .refl _
  · split
    · exact .refl _
    · split
      · exact g.invalidates_writeWatched running _ width addr _
      · exact .refl _

theorem invalidates_writeBytes (addr value : UInt32) (n : Nat) :
    g.code.arena.counters.Invalidates (g.writeBytes addr value running n).1.blocks
      (g.writeBytes addr value running n).2.code.arena.counters := by
  induction n with
  | zero => exact .refl _
  | succ n ih =>
      rw [writeBytes_succ]
      simp only [WriteResult.blocks_merge]
      exact ih.trans (invalidates_writeWithin _ running .byte _ _)

/-- **A write counts the blocks that it tells of.** -/
theorem invalidates_write (width : Width) (addr value : UInt32) :
    g.code.arena.counters.Invalidates (g.write width addr value running).1.blocks
      (g.write width addr value running).2.code.arena.counters := by
  cases hc : crossesPage width addr with
  | false =>
      rw [write_of_within g hc]
      exact g.invalidates_writeWithin running width addr value
  | true =>
      rw [write_of_crosses g hc]
      exact g.invalidates_writeBytes running addr value width.bytes

theorem invalidates_invalidateRange (start stop : UInt32) :
    g.code.arena.counters.Invalidates (g.invalidate start stop running).1
      (g.invalidate start stop running).2.2.code.arena.counters := by
  by_cases hle : stop < start
  · unfold invalidate
    rw [if_pos hle]
    exact .refl _
  · rw [g.invalidate_eq_sweep hle]
    generalize min (pageOf stop + 1) g.memory.pageCount - pageOf start = n
    induction n with
    | zero => exact .refl _
    | succ n ih =>
        rw [sweep_succ]
        unfold sweepPage
        split
        · exact ih
        · exact ih.trans (CodeStore.invalidates_invalidate _ _ running _ _)

end Counted

/-! ## What is entered -/

namespace Coherent

variable {l : Limits} {g : GuardedMemory} (h : g.Coherent l) {ids : List BlockId} (hids : ids.Nodup)

include h hids

/-- **A write enters the end of every block that it ends.** -/
theorem books_write (width : Width) (addr value : UInt32) (running : Option BlockId)
    (hends : ∀ b, b ∈ ids ↔ ∃ src, g.code.arena.sourceOf b = some src ∧
      src.meets (g.memory.changedBy width addr value)) :
    g.code.arena.Books (ids.map (Entry.mk .invalidated))
      (g.write width addr value running).2.code.arena := by
  obtain ⟨freed, hfreed⟩ := h.freed_write width addr value running
  have hcounted := g.invalidates_write running width addr value
  rw [hfreed.blocks] at hcounted
  refine hfreed.code.books hfreed.nodup hids (fun b => ?_) (fun b hb => ?_) hcounted
  · exact (hends b).trans (hfreed.met b).symm
  · obtain ⟨src, hs, _⟩ := (hends b).mp hb
    exact h.store.isLive_of_source hs

/-- **So does the invalidation of a range.** -/
theorem books_invalidateRange (start stop : UInt32) (running : Option BlockId)
    (hends : ∀ b, b ∈ ids ↔ ∃ src, g.code.arena.sourceOf b = some src ∧ src.reaches start stop) :
    g.code.arena.Books (ids.map (Entry.mk .invalidated))
      (g.invalidate start stop running).2.2.code.arena := by
  obtain ⟨freed, hnodup, hmet, hblocks, _, hfrees⟩ := h.frees_invalidateRange start stop running
  have hcounted := g.invalidates_invalidateRange running start stop
  rw [hblocks] at hcounted
  refine hfrees.books hnodup hids (fun b => ?_) (fun b hb => ?_) hcounted
  · exact (hends b).trans (hmet b).symm
  · obtain ⟨src, hs, _⟩ := (hends b).mp hb
    exact h.store.isLive_of_source hs

end Coherent

end GuardedMemory

end Recompiler
