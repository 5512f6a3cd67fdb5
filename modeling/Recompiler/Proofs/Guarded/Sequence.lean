import Recompiler.Proofs.Compile.Follows
import Recompiler.Proofs.Guarded.Coherent

/-!
# The sequence of a compiled block

The source bytes of a block decide its sequence.  As long as the block is
compiled these bytes are still in memory, so the sequence is what memory holds
there, whatever else was written.
-/

namespace Recompiler

/-- A source whose bytes are compiled to a sequence. -/
structure Source.Gives (src : Source) (l : Limits) (seq : Sequence) : Prop where
  page : src.page < pageLimit
  compiled : ∃ page, bytesBetween page src.first src.last = src.bytes ∧
    src.last = seq.last ∧ Sequence.at page l src.start = seq

namespace Source.Gives

variable {src : Source} {l : Limits} {seq : Sequence} (h : src.Gives l seq)

include h

theorem start_eq : pageOf src.start = src.page ∧ offsetOf src.start = src.first :=
  ⟨pageOf_addressOf _ h.page, offsetOf_addressOf _ h.page⟩

/-- Any page that holds the source bytes gives the sequence. -/
theorem at_eq (hl : l.Sufficient) {page : Vector UInt8 pageSize}
    (hp : bytesBetween page src.first src.last = src.bytes) :
    Sequence.at page l src.start = seq := by
  obtain ⟨old, hold, hlast, rfl⟩ := h.compiled
  refine Sequence.at_congr hl ?_
  rw [← hlast, h.start_eq.2, hold, hp]

theorem unique (hl : l.Sufficient) {seq' : Sequence} (h' : src.Gives l seq') : seq = seq' := by
  obtain ⟨page, hp, _, rfl⟩ := h'.compiled
  exact (h.at_eq hl hp).symm

theorem length_le : seq.instructions.length ≤ pageSize := by
  obtain ⟨page, _, _, rfl⟩ := h.compiled
  exact Sequence.length_at_le page l src.start

theorem exit_of_nil (hl : l.Sufficient) (hn : seq.instructions = []) :
    seq.exit = .interpret src.start := by
  obtain ⟨page, _, _, rfl⟩ := h.compiled
  exact Sequence.exit_at_of_nil hl hn

end Source.Gives

theorem Arena.Translates.gives {a : Arena} {l : Limits} {b : BlockId} {src : Source}
    (h : a.Translates l b src) : ∃ seq, src.Gives l seq ∧
      (a.block b).kind = seq.exit.kind ∧ (a.block b).program = seq.operations b := by
  obtain ⟨page, hp, hlast, hc⟩ := h.compiled
  exact ⟨_, ⟨h.page, page, hp, hlast, rfl⟩, hc.kind, hc.program⟩

namespace GuardedMemory

/-- **A compiled block is what memory holds at its start.** -/
theorem Coherent.follows {l : Limits} {g : GuardedMemory} (h : g.Coherent l) (hl : l.Sufficient)
    {b : BlockId} {src : Source} (hb : g.code.arena.sourceOf b = some src) {seq : Sequence}
    (hs : src.Gives l seq) :
    Follows (g.memory.bare.instruction? l.decoder) src.start seq.instructions seq.exit := by
  obtain ⟨page, hp, hbytes⟩ := h.current b src hb
  have hn : g.memory.isNoCode src.page = false := h.permitted _ _ (h.watch?_page hb)
  rw [← Memory.isNoCode_bare, ← hs.start_eq.1] at hn
  rw [← Memory.bytes?_bare, ← hs.start_eq.1] at hp
  rw [← hs.at_eq hl hbytes]
  exact Sequence.follows_at hn hp

end GuardedMemory

end Recompiler
