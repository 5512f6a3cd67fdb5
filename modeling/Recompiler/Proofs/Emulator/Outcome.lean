import Recompiler.Proofs.Emulator.Freed
import Recompiler.Proofs.Guarded.Outcome

/-!
# What an emulator answers to a write

Whatever was done before, the outcome of a write tells whether memory changed, which
blocks were freed, and whether the counts met code.  The counts are coarser than the
blocks: a write beside a block is answered like one that meets it, but for the number
of blocks freed.
-/

namespace Recompiler

namespace Emulator

/-- What the outcome of a write tells, given the addresses that it changes. -/
structure Answers (e : Emulator) (changed : List UInt32) (outcome : WriteResult) : Prop where
  /-- A write that changes nothing is ignored or finds memory as it is, and no other. -/
  idle : outcome = .ignored ∨ outcome = .unchanged ↔ changed = []
  /-- It met code just if a changed byte is in a bucket that a compiled block touches. -/
  invalidated : (∃ n hit, outcome = .invalidated n hit) ↔
    ∃ b src, e.arena.isLive b = true ∧ e.arena.sourceOf b = some src ∧
      ∃ addr ∈ changed, src.nears addr = true
  /-- Otherwise the bytes were written, and perhaps the page's watch released. -/
  written : outcome = .written ∨ outcome = .released ↔
    changed ≠ [] ∧ ∀ b src, e.arena.isLive b = true → e.arena.sourceOf b = some src →
      ∀ addr ∈ changed, src.nears addr = false
  /-- Freed are the blocks that were compiled from a changed byte. -/
  freed : ∃ freed : List BlockId, freed.Nodup ∧ outcome.blocks = freed.length ∧
    ∀ b, b ∈ freed ↔ e.arena.isLive b = true ∧
      ∃ src, e.arena.sourceOf b = some src ∧ src.meets changed
  /-- Where there is such a block the write met code, and freed some. -/
  overlapped : ∀ b src, e.arena.isLive b = true → e.arena.sourceOf b = some src →
    src.meets changed → ∃ n hit, outcome = .invalidated n hit ∧ 0 < n

theorem Coherent.answers {e : Emulator} (h : e.Coherent) (width : Width) (addr value : UInt32)
    (running : Option BlockId) :
    e.Answers (e.memory.changedBy width addr value)
      (e.guarded.write width addr value running).1 := by
  have hg := h.guarded
  have htells : e.guarded.Tells (e.memory.changedBy width addr value) _ :=
    hg.tells_write width addr value running
  obtain ⟨freed, hfreed⟩ := hg.freed_write width addr value running
  have hlive : ∀ {b src}, e.arena.sourceOf b = some src → e.arena.isLive b = true :=
    fun hs => hg.store.isLive_of_source hs
  have hnear : e.guarded.code.Near (e.memory.changedBy width addr value) ↔
      ∃ b src, e.arena.isLive b = true ∧ e.arena.sourceOf b = some src ∧
        ∃ a ∈ e.memory.changedBy width addr value, src.nears a = true := by
    constructor
    · rintro ⟨b, src, hs, ha⟩
      exact ⟨b, src, hlive hs, hs, ha⟩
    · rintro ⟨b, src, _, hs, ha⟩
      exact ⟨b, src, hs, ha⟩
  constructor
  case idle =>
    rw [← WriteResult.stored_eq_false_iff, ← Bool.not_eq_true, htells.stored, not_not]
  case invalidated => rw [← WriteResult.met_iff, htells.met, hnear]
  case written =>
    rw [← WriteResult.stored_and_not_met_iff, htells.stored, ← Bool.not_eq_true, htells.met, hnear]
    refine and_congr_right fun _ => ?_
    push Not
    simp only [Bool.not_eq_true]
  case freed =>
    refine ⟨freed, hfreed.nodup, hfreed.blocks, fun b => (hfreed.met b).trans ?_⟩
    constructor
    · rintro ⟨src, hs, hmeets⟩
      exact ⟨hlive hs, src, hs, hmeets⟩
    · exact And.right
  case overlapped =>
    intro b src _ hs hmeets
    have hmem := (hfreed.met b).mpr ⟨src, hs, hmeets⟩
    have hpos : 0 < (e.guarded.write width addr value running).1.blocks := by
      rw [hfreed.blocks]
      exact List.length_pos_of_mem hmem
    obtain ⟨a, ha, h1, h2⟩ := hmeets
    have hmet := htells.met.mpr
      ⟨b, src, hs, a, ha, Source.nears_of_le (hg.store.translated b src hs).page h1 h2⟩
    obtain ⟨n, hit, heq⟩ := WriteResult.met_iff.mp hmet
    rw [heq] at hpos
    exact ⟨n, hit, heq, hpos⟩

/-- **What the outcome of a write tells.**  In every state, for every write in the name
of whatever block, within a page or over the edge of one: the write answers that it
met code exactly if a byte that it changes lies in a bucket which a compiled block
touches, with the number of the blocks compiled from such a byte; that it was written,
or the page's watch released, exactly if it changes a byte and there is no such
bucket; and a write to a compiled byte always meets code, and frees at least one
block. -/
theorem answers_of_visited {e : Emulator} (h : Visited e) (width : Width)
    (addr value : UInt32) (running : Option BlockId) :
    e.Answers (e.memory.changedBy width addr value)
      (e.guarded.write width addr value running).1 :=
  h.coherent.answers width addr value running

/-- A write over the end of the address space whose last bytes lie beside a block. -/
theorem answers_of_wrapping_write :
    ∃ e, Visited e ∧ e.memory.changedBy .long 0xFFFFFFFE 0x90900000 = [0, 1] ∧
      (e.guarded.write .long 0xFFFFFFFE 0x90900000 none).1 = .invalidated 0 false ∧
      e.Answers [0, 1] (e.guarded.write .long 0xFFFFFFFE 0x90900000 none).1 := by
  obtain ⟨e, he, htest⟩ := exists_of_succeeds (x := zeroed.performAll [.fetch 8])
    (p := fun e => e.memory.changedBy .long 0xFFFFFFFE 0x90900000 = [0, 1] &&
      (e.guarded.write .long 0xFFFFFFFE 0x90900000 none).1 = .invalidated 0 false)
    (by decide +kernel)
  rw [Bool.and_eq_true, decide_eq_true_iff, decide_eq_true_iff] at htest
  obtain ⟨hchanged, hanswer⟩ := htest
  have h : Reached (fun _ => True) e :=
    .performAll (fun _ _ => trivial) (.new unwatched_zeroed new_zeroed) he
  have hanswers := answers_of_visited h.visited .long 0xFFFFFFFE 0x90900000 none
  rw [hchanged] at hanswers
  exact ⟨e, h.visited, hchanged, hanswer, hanswers⟩

/-- **A write beside a block is answered as if it met code.**  Its byte is in none of
the blocks, none is freed, and yet the outcome says that code was met. -/
theorem invalidated_beside_block :
    ∃ e, Visited e ∧ e.memory.changedBy .byte 8 1 = [8] ∧
      (∀ b src, e.arena.isLive b = true → e.arena.sourceOf b = some src → ¬src.meets [8]) ∧
      (e.guarded.write .byte 8 1 none).1 = .invalidated 0 false := by
  obtain ⟨e, he, htest⟩ := exists_of_succeeds (x := zeroed.performAll [.fetch 0])
    (p := fun e => e.memory.changedBy .byte 8 1 = [8] &&
      (e.guarded.write .byte 8 1 none).1 = .invalidated 0 false) (by decide +kernel)
  rw [Bool.and_eq_true, decide_eq_true_iff, decide_eq_true_iff] at htest
  obtain ⟨hchanged, hanswer⟩ := htest
  have h : Reached (fun _ => True) e :=
    .performAll (fun _ _ => trivial) (.new unwatched_zeroed new_zeroed) he
  refine ⟨e, h.visited, hchanged, fun b src hlive hs hmeets => ?_, hanswer⟩
  obtain ⟨freed, _, hcount, hmem⟩ := (h.visited.coherent.answers .byte 8 1 none).freed
  rw [hanswer, hchanged] at *
  have hb := (hmem b).mpr ⟨hlive, src, hs, hmeets⟩
  rw [List.length_eq_zero_iff.mp hcount.symm] at hb
  cases hb

end Emulator

end Recompiler
