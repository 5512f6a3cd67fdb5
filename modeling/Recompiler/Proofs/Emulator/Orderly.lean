import Recompiler.Proofs.Emulator.Flow
import Recompiler.Proofs.Emulator.Turn

/-!
# Emulators in order

Whatever exits are linked to, compiled code returns, as long as every exit leads
to a live block or to its own trampoline, which tells the dispatcher which exit it
was.
-/

namespace Recompiler

namespace Emulator

/-- A coherent emulator whose unlinked exits are at home. -/
structure Orderly (e : Emulator) : Prop where
  coherent : e.Coherent
  homed : e.arena.Homed

namespace Orderly

variable {e : Emulator} (h : e.Orderly)

include h

theorem setContext (context : Context) : ({ e with context } : Emulator).Orderly :=
  ⟨h.coherent.setContext context, h.homed⟩

theorem linkTo {a : Arena} {source target : BlockId} {slot : Slot}
    (ht : e.arena.isLive target = true ∨ target = .trampoline slot)
    (hl : e.arena.link source slot target = .ok a) : (e.modifyArena fun _ => a).Orderly :=
  ⟨⟨h.coherent.settings, h.coherent.guarded.link hl⟩,
    h.homed.link h.coherent.guarded.store.linked ht hl⟩

theorem found {eip : UInt32} {id : BlockId} {e' : Emulator} (hf : e.Found eip id e') :
    e'.Orderly := by
  refine ⟨hf.coherent, fun d slot hT => ?_⟩
  rcases hf.link d slot with he | he
  · rw [he] at hT ⊢
    exact h.homed d slot hT
  · exact he

theorem interpret {σ : Type} (i : Interpreter σ) (s : σ) : (e.interpret i s).2.2.Orderly := by
  obtain ⟨hc, hs⟩ := leaves_interpret h.coherent i s
  exact ⟨hc, hs.homed h.homed⟩

end Orderly

theorem Orderly.settle {e e₁ : Emulator} (h : e.Orderly) {pending : Option PendingLink}
    (ha : e.Awaits pending) {id : BlockId} (hf : e.Found e.cpu.eip id e₁) :
    ∃ e₂, e₁.settle pending id = .ok e₂ ∧ e₂.Orderly ∧ e₂.arena.isLive id = true ∧
      e₂.settings = e₁.settings ∧ e₂.context = e₁.context := by
  obtain ⟨src, hs, _⟩ := hf.source
  have hlive : e₁.arena.isLive id = true := hf.coherent.guarded.store.isLive_of_source hs
  rcases hf.settle ha with hnone | ⟨p, _, a, _, _, hlink, hsettle⟩
  · exact ⟨e₁, hnone, h.found hf, hlive, rfl, rfl⟩
  · exact ⟨_, hsettle, (h.found hf).linkTo (Or.inl hlive) hlink,
      ((Arena.Alike.link hlink).isLive id).symm.trans hlive, rfl, rfl⟩

/-! ## Compiled code -/

/-- How compiled code is run and charged for: some of the budget goes, unless the
first instruction is the interpreter's. -/
structure Executed (e : Emulator) (id : BlockId) (cs : List Charge) (code : ReturnCode)
    (t : HostState GuardedMemory) : Prop where
  flows : Flows id (e.entered id) cs code.word t
  execute : e.execute id = .ok (code, BlockId.ofWord t.context.running, e.left t)
  orderly : (e.left t).Orderly
  paid : Paid e.limits (e.entered id) cs code.word t
  le : t.context.cycles.toInt ≤ e.context.cycles.toInt
  lt : 0 < e.context.cycles.toInt → code ≠ .opcode →
    t.context.cycles.toInt < e.context.cycles.toInt
  /-- The exit it is left through is one that the block entered last has. -/
  awaits : ∀ slot, code = .ofSlot slot → (e.left t).Awaits
    (some ⟨BlockId.ofWord t.context.running, slot,
      ((e.left t).arena.block (BlockId.ofWord t.context.running)).generation⟩)

/-- **Compiled code returns,** wherever its exits are linked to. -/
theorem Orderly.execute {e : Emulator} (h : e.Orderly) {id : BlockId}
    (hid : e.arena.isLive id = true) : ∃ cs code t, e.Executed id cs code t := by
  have hl := h.coherent.settings.sufficient
  obtain ⟨code, t, hchain, hchained⟩ := chain_ok stepper () hl
    (e.context.cycles.toInt.toNat + 1) (s := e.entered id) h.coherent.guarded h.homed hid
    (Nat.lt_succ_self _)
  obtain ⟨cs, hflow⟩ := flows_of_chain _ hchain
  obtain ⟨hc, hs, _⟩ := hchained.leaves h.coherent.guarded
  refine ⟨cs, code, t, hflow,
    execute_of_chain h.coherent hid hchain, ?_,
    hflow.paid hl h.coherent.guarded hid, hchained.falls.1, hchained.falls.2, ?_⟩
  · exact ⟨(h.coherent.setGuarded hc).setContext _, hs.homed h.homed⟩
  · rintro slot rfl
    exact hchained.awaits h.coherent

end Emulator

end Recompiler
