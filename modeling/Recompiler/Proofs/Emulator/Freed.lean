import Recompiler.Proofs.Emulator.History
import Recompiler.Proofs.Guarded.Freed

/-!
# Writes free what they change, and nothing else

Whatever was done to an emulator, and in whatever it is doing, a write frees the
live blocks that were compiled from a byte it changes.  All else that is
compiled stays as it was, but for exits that led to a freed block.
-/

namespace Recompiler

namespace Emulator

/-- Emulators on the way through a history: what actions make of a new one, and
what a write of compiled code, in the name of any block, or a change of the
context makes of it while an action lasts. -/
inductive Visited : Emulator → Prop
  | new {settings : Settings} {memory : Memory} {decoder : Decoder} {e : Emulator}
      (hm : memory.Unwatched) (hn : Emulator.new settings memory decoder = .ok e) :
      Visited e
  | perform {e e' : Emulator} {a : Action} (h : Visited e) (hp : e.perform a = .ok e') :
      Visited e'
  | write {e : Emulator} (h : Visited e) (width : Width) (addr value : UInt32)
      (running : Option BlockId) :
      Visited { e with guarded := (e.guarded.write width addr value running).2 }
  | context {e : Emulator} (h : Visited e) (context : Context) : Visited { e with context }

theorem Visited.coherent {e : Emulator} (h : Visited e) : e.Coherent := by
  induction h with
  | new hm hn => exact .new hm hn
  | perform _ hp ih => exact ih.perform hp
  | write _ width addr value running ih =>
      exact ih.setGuarded (ih.guarded.write width addr value running).coherent
  | context _ context ih => exact ih.setContext context

theorem Reached.visited {allowed : Action → Prop} {e : Emulator} (h : Reached allowed e) :
    Visited e := by
  induction h with
  | new hm hn => exact .new hm hn
  | perform _ _ hp ih => exact ih.perform hp

/-- **A write frees exactly what it must.**  The live blocks that were compiled
from a byte it changes go, each before such a byte is stored; it answers with
their number, and whether the running one is among them.  Every other block keeps
its record, its code and its place in the index, and its exits lead where they
led, but for those that led to a freed block: these lead to their trampolines. -/
theorem freed_of_visited {e : Emulator} (h : Visited e) (width : Width) (addr value : UInt32)
    (running : Option BlockId) :
    let g := e.guarded
    let r := g.write width addr value running
    ∃ freed, g.Freed running (g.memory.changedBy width addr value) freed r.1 r.2 ∧
      (∀ b ∈ freed, g.code.arena.isLive b = true ∧ (r.2.code.arena.block b).kind = .free) ∧
      (∀ b, r.2.code.arena.code b = g.code.arena.code b) ∧
      (g.course width addr value running).getLast? = some r.2 ∧
      ∀ x ∈ g.course width addr value running, g.Spares x := by
  have hg := h.coherent.guarded
  obtain ⟨freed, hfreed⟩ := hg.freed_write width addr value running
  refine ⟨freed, hfreed, fun b hb => ⟨?_, ?_⟩, hfreed.code.code,
    e.guarded.getLast?_course width addr value running,
    fun _ => hg.spares_course width addr value running⟩
  · obtain ⟨src, hs, _⟩ := (hfreed.met b).mp hb
    exact hg.store.isLive_of_source hs
  · rw [← Descriptor.kind_core, hfreed.code.core, if_pos hb]
    rfl

/-- A write that starts below the end of the address space and ends in a block
at its beginning, in the name of that block. -/
theorem freed_of_wrapping_write :
    ∃ e, Visited e ∧ e.memory.changedBy .long 0xFFFFFFFE 0x90900000 = [0, 1] ∧
      (e.guarded.write .long 0xFFFFFFFE 0x90900000 (some ⟨2⟩)).1 = .invalidated 1 true ∧
      ∃ freed, ⟨2⟩ ∈ freed ∧
        let g := e.guarded
        let r := g.write .long 0xFFFFFFFE 0x90900000 (some ⟨2⟩)
        g.Freed (some ⟨2⟩) [0, 1] freed r.1 r.2 ∧
          (∀ b ∈ freed, g.code.arena.isLive b = true ∧
            (r.2.code.arena.block b).kind = .free) ∧
          (∀ b, r.2.code.arena.code b = g.code.arena.code b) ∧
          (g.course .long 0xFFFFFFFE 0x90900000 (some ⟨2⟩)).getLast? = some r.2 ∧
          ∀ x ∈ g.course .long 0xFFFFFFFE 0x90900000 (some ⟨2⟩), g.Spares x := by
  obtain ⟨e, he, htest⟩ := exists_of_succeeds (x := zeroed.performAll [.fetch 0])
    (p := fun e => e.memory.changedBy .long 0xFFFFFFFE 0x90900000 = [0, 1] &&
      (e.guarded.write .long 0xFFFFFFFE 0x90900000 (some ⟨2⟩)).1 = .invalidated 1 true &&
      (e.arena.sourceOf ⟨2⟩).any fun src => src.start ≤ 0 && 0 ≤ src.stop) (by decide +kernel)
  simp only [Bool.and_eq_true, decide_eq_true_eq] at htest
  obtain ⟨⟨hchanged, hanswer⟩, hsource⟩ := htest
  have h : Reached (fun _ => True) e :=
    .performAll (fun _ _ => trivial) (.new unwatched_zeroed new_zeroed) he
  obtain ⟨freed, hfreed, hrest⟩ :=
    freed_of_visited h.visited .long 0xFFFFFFFE 0x90900000 (some ⟨2⟩)
  rw [show e.guarded.memory.changedBy .long 0xFFFFFFFE 0x90900000 = [0, 1] from hchanged] at hfreed
  refine ⟨e, h.visited, hchanged, hanswer, freed, (hfreed.met ⟨2⟩).mpr ?_, hfreed, hrest⟩
  obtain ⟨src, hs, hat⟩ := Option.any_eq_true .. |>.mp hsource
  rw [Bool.and_eq_true, decide_eq_true_iff, decide_eq_true_iff] at hat
  exact ⟨src, hs, 0, List.mem_cons_self, hat⟩

end Emulator

end Recompiler
