import Recompiler.Proofs.Emulator.Turn

/-!
# Which exit was left

Compiled code that is left through an exit jumps to a trampoline, and what it
returns names the slot of the trampoline, not that of the exit.  The two are the
same unless the exit was linked to the trampoline of the other slot.
-/

namespace Recompiler

namespace Arena

/-- An exit leads to the trampoline of the other slot. -/
def Strays (a : Arena) (x : ExitRef) (t : Slot) : Prop :=
  t ≠ x.slot ∧ a.successor x.block x.slot = .trampoline t

instance (a : Arena) (x : ExitRef) (t : Slot) : Decidable (a.Strays x t) :=
  inferInstanceAs (Decidable (_ ∧ _))

/-- What is kept or sent home does not come to stray. -/
theorem Strays.of_kept {a a' : Arena} {x : ExitRef} {t : Slot} (h : a'.Strays x t)
    (hlink : a'.successor x.block x.slot = a.successor x.block x.slot ∨
      a'.successor x.block x.slot = .trampoline x.slot) : a.Strays x t := by
  obtain ⟨hne, hsucc⟩ := h
  rcases hlink with hlink | hlink
  · exact ⟨hne, hlink.symm.trans hsucc⟩
  · exact absurd (BlockId.trampoline_inj.mp (hsucc.symm.trans hlink)) hne

end Arena

namespace Emulator

/-- The exit that a chain of blocks is left through, if it is left through one. -/
def chainLeft? : Nat → BlockId → HostState GuardedMemory → Option ExitRef
  | 0, _, _ => none
  | fuel + 1, id, s =>
      match s.run helpers none (s.world.code.arena.block id).program with
      | .jumped (.exitSlot source slot) s =>
          match landing? s.world.code.arena
              (s.world.code.arena.slotPosition source slot) with
          | some (.trampoline _) => some ⟨source, slot⟩
          | some (.block next) => chainLeft? fuel next s
          | none => none
      | _ => none

/-- The exit that compiled code is left through when it is run from a block on. -/
def left? (e : Emulator) (id : BlockId) : Option ExitRef :=
  chainLeft? (e.context.cycles.toInt.toNat + 1) id (e.entered id)

/-- What a return code tells of the exit that compiled code was left through, by the
arenas before and after, and the block entered last. -/
inductive Told (a a' : Arena) (last : BlockId) : Option ExitRef → ReturnCode → Prop
  /-- It was not left through an exit that can be linked. -/
  | inside {code : ReturnCode} (h : code.slot? = none) : Told a a' last none code
  /-- The exit was unlinked, and the code is that of its slot. -/
  | home {slot : Slot} (hexit : slot.index < (a'.block last).kind.exitCount)
      (h : a'.successor last slot = .trampoline slot) :
      Told a a' last (some ⟨last, slot⟩) (.ofSlot slot)
  /-- The exit led to the wrong trampoline before, and the code is that one's. -/
  | astray {slot t : Slot} (hexit : slot.index < (a'.block last).kind.exitCount)
      (h : a.Strays ⟨last, slot⟩ t) (h' : a'.Strays ⟨last, slot⟩ t) :
      Told a a' last (some ⟨last, slot⟩) (.ofSlot t)

section Told

variable {a b c : Arena} {last : BlockId} {left : Option ExitRef} {code : ReturnCode}

/-- What strayed after some blocks were torn down did so before. -/
theorem Told.before (h : Told b c last left code) (hs : a.Shrinks b) : Told a c last left code := by
  cases h with
  | inside hcode => exact .inside hcode
  | home hexit hhome => exact .home hexit hhome
  | astray hexit hstray hstray' => exact .astray hexit (hstray.of_kept (hs.link _ _)) hstray'

/-- An exit that leads to a trampoline is at home, or strays. -/
theorem told_of_trampoline {slot t : Slot} (hs : a.Shrinks b)
    (hexit : slot.index < (b.block last).kind.exitCount)
    (ht : b.successor last slot = .trampoline t) :
    Told a b last (some ⟨last, slot⟩) (.ofSlot t) := by
  by_cases hslot : t = slot
  · subst hslot
    exact .home hexit ht
  · have hstray : b.Strays ⟨last, slot⟩ t := ⟨hslot, ht⟩
    exact .astray hexit (hstray.of_kept (hs.link last slot)) hstray

end Told

/-! ## Chains -/

/-- How a chain of blocks ends, with what its return code tells. -/
structure Ended (fuel : Nat) (id : BlockId) (s : HostState GuardedMemory) (last : BlockId)
    (code : ReturnCode) (t : HostState GuardedMemory) : Prop where
  chain : chain fuel id s = .ok (code.word, t)
  running : t.context.running = last.word
  size : last.number < UInt32.size
  told : Told s.world.code.arena t.world.code.arena last (chainLeft? fuel id s) code

section Chain

variable {fuel : Nat} {id : BlockId} {s t : HostState GuardedMemory}

theorem ended_of_returned {code : ReturnCode}
    (hrun : s.run helpers none (s.world.code.arena.block id).program = .returned code.word t)
    (hcode : code.slot? = none) (hr : t.context.running = id.word)
    (hsize : id.number < UInt32.size) : Ended (fuel + 1) id s id code t := by
  refine ⟨chain_of_returned hrun, hr, hsize, ?_⟩
  rw [chainLeft?, hrun]
  exact .inside hcode

section Exited

variable {l : Limits} {slot : Slot} (h : Exited l id slot s t)

include h

theorem Exited.unlinked (hsize : id.number < UInt32.size) {trampoline : Slot}
    (hT : t.world.code.arena.successor id slot = .trampoline trampoline) :
    Ended (fuel + 1) id s id (.ofSlot trampoline) t := by
  have hl := h.coherent.store.linked
  refine ⟨chain_of_unlinked h.run hl hT, h.running, hsize, ?_⟩
  rw [chainLeft?, h.run]
  simp only
  rw [landing?_of_unlinked hl hT]
  exact told_of_trampoline h.shrinks h.exit hT

theorem Exited.linked (hT : (t.world.code.arena.successor id slot).isTrampoline = false)
    {last : BlockId} {code : ReturnCode} {u : HostState GuardedMemory}
    (hrest : Ended fuel (t.world.code.arena.successor id slot) t last code u) :
    Ended (fuel + 1) id s last code u := by
  have ha := h.coherent.store.arranged
  have hl := h.coherent.store.linked
  refine ⟨(chain_of_linked h.run ha hl hT).trans hrest.chain, hrest.running, hrest.size, ?_⟩
  rw [chainLeft?, h.run]
  simp only
  rw [landing?_of_linked ha hl hT]
  exact hrest.told.before h.shrinks

end Exited

/-- **A chain of blocks ends, and tells through which exit,** by induction on the
budget. -/
theorem chain_told {l : Limits} (hl : l.Sufficient) (fuel : Nat) {id : BlockId}
    {s : HostState GuardedMemory} (hs : s.world.Coherent l)
    (hid : s.world.code.arena.isLive id = true) (hfuel : s.context.cycles.toInt.toNat < fuel) :
    ∃ last code t, Ended fuel id s last code t := by
  induction fuel generalizing id s with
  | zero => exact absurd hfuel (Nat.not_lt_zero _)
  | succ fuel ih =>
      have hsize : id.number < UInt32.size :=
        Nat.lt_trans (Arena.lt_capacity_of_isLive hid) hs.store.ids
      rcases returned_or_exited hl hs hid with ⟨code, t, hrun, hcode, hr⟩ | ⟨slot, t, h⟩
      · exact ⟨id, code, t, ended_of_returned hrun hcode hr hsize⟩
      · cases hT : (t.world.code.arena.successor id slot).isTrampoline with
        | true =>
            obtain ⟨trampoline, hT⟩ := BlockId.isTrampoline_iff.mp hT
            exact ⟨id, _, t, h.unlinked hsize hT⟩
        | false =>
            have hfuel := Nat.lt_of_lt_of_le h.falls (Nat.le_of_lt_succ hfuel)
            obtain ⟨last, code, u, hrest⟩ :=
              ih h.coherent (h.coherent.store.linked.live id slot hT) hfuel
            exact ⟨last, code, u, h.linked hT hrest⟩

end Chain

/-- **Compiled code returns, and tells through which exit,** wherever exits are
linked. -/
theorem Coherent.told {e : Emulator} (h : e.Coherent) {id : BlockId}
    (hid : e.arena.isLive id = true) :
    ∃ code last e', e.execute id = .ok (code, last, e') ∧
      Told e.arena e'.arena last (e.left? id) code := by
  obtain ⟨last, code, t, hended⟩ := chain_told h.settings.sufficient _ (s := e.entered id)
    h.guarded hid (Nat.lt_succ_self _)
  refine ⟨code, last, e.left t, ?_, hended.told⟩
  rw [execute_of_chain h hid hended.chain, hended.running, BlockId.ofWord_word hended.size]

end Emulator

end Recompiler
