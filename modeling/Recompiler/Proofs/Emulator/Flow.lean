import Recompiler.Proofs.Compile.Charge
import Recompiler.Proofs.Emulator.Chain

/-!
# What a chain of blocks charges for

How compiled code goes from block to block is told here without any bound on the
number of blocks.  Every block takes off the cycle budget exactly what it charges
for, the budget never wraps, and however it is linked, the code stops before it
overdraws the budget by more than a block.
-/

namespace Recompiler

/-- The budget is not overdrawn by a whole block, and there is `spare` beyond
that. -/
def Limits.Within (l : Limits) (spare : Nat) (cycles : Int32) : Prop :=
  1 + (spare : Int) - l.dearest ≤ cycles.toInt

/-- What charges less than the most that may be charged stays within it. -/
theorem Charge.Ledger.within {l : Limits} {spare : Nat} {start finish : Int32} {cs : List Charge}
    (h : Ledger start cs finish) (hstart : 0 < start.toInt)
    (htotal : total cs + spare ≤ l.dearest) : l.Within spare finish := by
  have hfinish := h.toInt
  unfold Limits.Within
  omega

namespace Emulator

/-- How compiled code runs from a block on until it returns, and what it charges
on the way: a block returns, is left for a trampoline, or is left for the next. -/
inductive Flows : BlockId → HostState GuardedMemory → List Charge → UInt32 →
    HostState GuardedMemory → Prop
  | returned {id : BlockId} {s t : HostState GuardedMemory} {code : UInt32}
      (hrun : s.run helpers none (s.world.code.arena.block id).program = .returned code t) :
      Flows id s (s.charges helpers none (s.world.code.arena.block id).program) code t
  | unlinked {id source : BlockId} {s t : HostState GuardedMemory} {slot trampoline : Slot}
      (hrun : s.run helpers none (s.world.code.arena.block id).program =
        .jumped (.exitSlot source slot) t)
      (hland : landing? t.world.code.arena (t.world.code.arena.slotPosition source slot) =
        some (.trampoline trampoline)) :
      Flows id s (s.charges helpers none (s.world.code.arena.block id).program)
        (ReturnCode.ofSlot trampoline).word t
  | linked {id source next : BlockId} {s t u : HostState GuardedMemory} {slot : Slot}
      {cs : List Charge} {code : UInt32}
      (hrun : s.run helpers none (s.world.code.arena.block id).program =
        .jumped (.exitSlot source slot) t)
      (hland : landing? t.world.code.arena (t.world.code.arena.slotPosition source slot) =
        some (.block next))
      (hrest : Flows next t cs code u) :
      Flows id s (s.charges helpers none (s.world.code.arena.block id).program ++ cs) code u

theorem flows_of_chain (fuel : Nat) {id : BlockId} {s t : HostState GuardedMemory} {code : UInt32}
    (hc : chain fuel id s = .ok (code, t)) : ∃ cs, Flows id s cs code t := by
  induction fuel generalizing id s with
  | zero => cases hc
  | succ fuel ih =>
      unfold chain at hc
      split at hc
      · next hrun =>
          cases hc
          exact ⟨_, .returned hrun⟩
      · next hrun =>
          split at hc
          · next hland =>
              cases hc
              exact ⟨_, .unlinked hrun hland⟩
          · next hland =>
              obtain ⟨cs, hrest⟩ := ih hc
              exact ⟨_, .linked hrun hland hrest⟩
          · cases hc
      · cases hc

/-! ## One block -/

section Block

variable {l : Limits} {s : HostState GuardedMemory} {id : BlockId}

/-- A live block is the translation of a sequence, and a short one. -/
theorem exists_sequence (hs : s.world.Coherent l) (hid : s.world.code.arena.isLive id = true) :
    ∃ seq : Sequence, seq.AtMost l.dearest ∧
      (s.world.code.arena.block id).program = seq.operations id := by
  obtain ⟨src, hb⟩ := Option.isSome_iff_exists.mp ((hs.store.indexed.live id).symm.trans hid)
  obtain ⟨seq, hgives, _, hprogram⟩ := (hs.store.translated id src hb).gives
  obtain ⟨page, _, _, rfl⟩ := hgives.compiled
  exact ⟨_, Sequence.atMost_at page l src.start, hprogram⟩

theorem costs_block (hl : l.Sufficient) (hs : s.world.Coherent l)
    (hid : s.world.code.arena.isLive id = true) (hc : 0 < s.context.cycles.toInt) :
    (s.run helpers none (s.world.code.arena.block id).program).Costs l.dearest s.context.cycles
      (s.charges helpers none (s.world.code.arena.block id).program) := by
  obtain ⟨seq, hmost, hprogram⟩ := exists_sequence hs hid
  rw [hprogram]
  exact (hmost.frugal id).costs helpers hl.bounded hc none

theorem returned_of_exhausted (hs : s.world.Coherent l)
    (hid : s.world.code.arena.isLive id = true) (hc : s.context.cycles ≤ 0) :
    ∃ t : HostState GuardedMemory,
      s.run helpers none (s.world.code.arena.block id).program =
        .returned ReturnCode.cycles.word t ∧
      Charge.Ledger s.context.cycles
        (s.charges helpers none (s.world.code.arena.block id).program) t.context.cycles ∧
      t.context.cycles = s.context.cycles := by
  obtain ⟨seq, _, hprogram⟩ := exists_sequence hs hid
  obtain ⟨t, hrun, hct, _⟩ := HostState.run_of_exhausted helpers hc seq id
  have hsame : t.context.cycles = s.context.cycles := by
    rw [hct]
  refine ⟨t, ?_, ?_, hsame⟩
  · rw [hprogram, hrun]
  · rw [hprogram, hsame]
    exact HostState.ledger_of_exhausted helpers hc seq id

end Block

/-! ## The whole chain -/

/-- How compiled code is left: its charges are exact, and the budget is not
overdrawn by a whole block; before an instruction of the interpreter's there is
room for that too. -/
structure Paid (l : Limits) (s : HostState GuardedMemory) (cs : List Charge) (code : UInt32)
    (t : HostState GuardedMemory) : Prop where
  ledger : Charge.Ledger s.context.cycles cs t.context.cycles
  within : l.Within 0 s.context.cycles → l.Within 0 t.context.cycles ∧
    (code = ReturnCode.opcode.word → l.Within 1 t.context.cycles)

section Paid

variable {l : Limits} (hl : l.Sufficient) {s t : HostState GuardedMemory} {id : BlockId}
  (hs : s.world.Coherent l) (hid : s.world.code.arena.isLive id = true)

include hl hs hid

theorem paid_of_returned {code : UInt32}
    (hrun : s.run helpers none (s.world.code.arena.block id).program = .returned code t) :
    Paid l s (s.charges helpers none (s.world.code.arena.block id).program) code t := by
  by_cases hc : s.context.cycles ≤ 0
  · obtain ⟨t', hrun', hledger, hsame⟩ := returned_of_exhausted hs hid hc
    rw [hrun', Outcome.returned.injEq] at hrun
    obtain ⟨rfl, rfl⟩ := hrun
    refine ⟨hledger, fun hwithin => ?_⟩
    rw [hsame]
    exact ⟨hwithin, fun hcode => absurd hcode (by decide)⟩
  · have hpos := not_exhausted_iff.mp hc
    have hcosts := costs_block hl hs hid hpos
    rw [hrun] at hcosts
    obtain ⟨hledger, hle, hlt⟩ := hcosts
    exact ⟨hledger, fun _ => ⟨hledger.within hpos hle,
      fun hcode => hledger.within hpos (hlt hcode)⟩⟩

theorem paid_of_jumped {source : HostAddress}
    (hrun : s.run helpers none (s.world.code.arena.block id).program = .jumped source t) :
    Charge.Ledger s.context.cycles
        (s.charges helpers none (s.world.code.arena.block id).program) t.context.cycles ∧
      l.Within 0 t.context.cycles := by
  by_cases hc : s.context.cycles ≤ 0
  · obtain ⟨_, hrun', _⟩ := returned_of_exhausted hs hid hc
    cases hrun.symm.trans hrun'
  · have hpos := not_exhausted_iff.mp hc
    have hcosts := costs_block hl hs hid hpos
    rw [hrun] at hcosts
    obtain ⟨hledger, hle⟩ := hcosts
    exact ⟨hledger, hledger.within hpos hle⟩

end Paid

/-- **However blocks are linked, they charge exactly,** by induction on the
chain. -/
theorem Flows.paid {l : Limits} (hl : l.Sufficient) {id : BlockId}
    {s t : HostState GuardedMemory} {cs : List Charge} {code : UInt32}
    (h : Flows id s cs code t) (hs : s.world.Coherent l)
    (hid : s.world.code.arena.isLive id = true) : Paid l s cs code t := by
  induction h with
  | returned hrun => exact paid_of_returned hl hs hid hrun
  | @unlinked _ _ _ _ _ trampoline hrun _ =>
      obtain ⟨hledger, hwithin⟩ := paid_of_jumped hl hs hid hrun
      refine ⟨hledger, fun _ => ⟨hwithin, fun hcode => ?_⟩⟩
      cases trampoline <;> exact absurd hcode (by decide)
  | @linked id _ _ s _ _ _ _ _ hrun hland _ ih =>
      obtain ⟨hledger, hwithin⟩ := paid_of_jumped hl hs hid hrun
      have hleaves := leaves_block hs (s.world.code.arena.block id).program
      rw [hrun] at hleaves
      have hrest := ih hleaves.coherent (isLive_of_landing? hland)
      exact ⟨hledger.append hrest.ledger, fun _ => hrest.within hwithin⟩

/-- **A chain of blocks takes something off the budget** that is left, unless it
leaves an instruction to the interpreter. -/
theorem Chained.falls {σ : Type} {i : Interpreter σ} {state : σ} {l : Limits} {id : BlockId}
    {s t : HostState GuardedMemory} {code : ReturnCode} (h : Chained i state l id s code t) :
    t.context.cycles.toInt ≤ s.context.cycles.toInt ∧
      (0 < s.context.cycles.toInt → code ≠ .opcode →
        t.context.cycles.toInt < s.context.cycles.toInt) := by
  induction h with
  | exhausted hc ht _ =>
      rw [ht]
      exact ⟨Int.le_refl _, fun hpos => absurd hc (not_exhausted_iff.mpr hpos)⟩
  | resumed _ _ hn h | unlinked _ hn h _ _ | callback _ hn h _ =>
      have hcycles := h.cycles
      exact ⟨by omega, fun _ _ => by omega⟩
  | linked _ hn h _ _ _ ih =>
      have hcycles := h.cycles
      have hrest := ih.1
      exact ⟨by omega, fun _ _ => by omega⟩
  | opcode _ h _ _ =>
      have hcycles := h.cycles
      exact ⟨by omega, fun _ hcode => absurd rfl hcode⟩

end Emulator

end Recompiler
