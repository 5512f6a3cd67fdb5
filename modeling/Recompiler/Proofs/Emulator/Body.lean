import Recompiler.Emulator.Execute
import Recompiler.Proofs.Compile.Body
import Recompiler.Proofs.Guarded.Write

/-!
# Bodies on guarded memory

The helpers of compiled code read and write the memory there would be without
watches, so the body of an instruction does to context and guarded memory what
the instruction does to CPU and bare memory.
-/

namespace Recompiler

theorem GuardedMemory.write_truncate (g : GuardedMemory) (width : Width) (addr value : UInt32)
    (running : Option BlockId) :
    g.write width addr (width.truncate value) running = g.write width addr value running := by
  unfold write
  split
  · refine List.foldl_ext _ _ _ fun r i hi => ?_
    rw [byteAt_truncate width value (List.mem_range.mp hi)]
  · rw [writeWithin, writeWithin, Width.truncate_truncate]

namespace Emulator

open Operation

theorem faithful_helpers : helpers.Faithful fun g => g.memory.bare where
  read g addr := (g.memory.readWidth_bare .long addr).symm
  write g _ width addr v := g.bare_write width addr v _
  truncate g running width addr v := by
    unfold helpers
    simp only [GuardedMemory.write_truncate]

/-- What the body of an instruction at an address leaves; `hit` tells that its
write met the running block. -/
structure Carried (l : Limits) (p : Placed) (eip : UInt32) (s : HostState GuardedMemory)
    (hit : Bool) (t : HostState GuardedMemory) : Prop where
  stores : hit = true → p.instruction.stores = true
  leaves : GuardedMemory.Leaves l s.context.running? s.world hit t.world
  memory : t.world.memory.bare =
    (s.world.memory.bare.run (p.effect (s.context.cpu.goto eip))).2
  context : t.context = contextAfter s.context p.instruction
    (s.world.memory.bare.run (p.effect (s.context.cpu.goto eip))).1

theorem Carried.cycles {l : Limits} {p : Placed} {eip : UInt32} {s t : HostState GuardedMemory}
    {hit : Bool} (h : Carried l p eip s hit t) : t.context.cycles = s.context.cycles := by
  rw [h.context]
  rfl

section Body

variable {l : Limits} {s : HostState GuardedMemory} (hs : s.world.Coherent l)

include hs

/-- What a body leaves is in order. -/
theorem carried_of_carries {p : Placed} {eip : UInt32} {hit : Bool} {t : HostState GuardedMemory}
    (h : s.Carries helpers (fun g => g.memory.bare) p eip hit t) : Carried l p eip s hit t := by
  obtain ⟨hworld, hcontext⟩ := h
  have heffect := p.perform_eq faithful_helpers s.context.running (s.context.cpu.goto eip) s.world
  rw [hworld] at heffect
  rcases p.perform_cases helpers (fun g => g.memory.bare) s.context.running
    (s.context.cpu.goto eip) s.world with ⟨_, hstill⟩ | ⟨hstores, width, addr, v, hwrite⟩
  · have heq := hworld.symm.trans hstill
    have hw : t.world = s.world := congrArg Prod.fst heq
    have hhit : hit = false := congrArg Prod.snd heq
    refine ⟨fun ht => ?_, ?_, by rw [heffect], by rw [heffect]; exact hcontext⟩
    · rw [hhit] at ht
      cases ht
    · rw [hw]
      exact .refl hs hit
  · have heq := hworld.symm.trans hwrite
    refine ⟨fun _ => hstores, ?_, by rw [heffect], by rw [heffect]; exact hcontext⟩
    rw [show t.world = _ from congrArg Prod.fst heq, show hit = _ from congrArg Prod.snd heq]
    exact hs.write width addr v s.context.running?

/-- **The body of an instruction has the effect of the instruction,** and goes
on at its label if its write met the running block. -/
theorem run_body (p : Placed) (eip : UInt32) (label : Nat) (rest : List Operation) :
    ∃ hit t, s.run helpers none (p.body label ++ rest) =
      t.run helpers (if hit then some label else none) rest ∧ Carried l p eip s hit t := by
  obtain ⟨hit, t, hrun, hc⟩ := HostState.run_body faithful_helpers s p eip label rest
  exact ⟨hit, t, hrun, carried_of_carries hs hc⟩

end Body

end Emulator

end Recompiler
