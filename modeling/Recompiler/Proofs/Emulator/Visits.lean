import Recompiler.Proofs.Emulator.Course
import Recompiler.Proofs.Emulator.Freed
import Recompiler.Proofs.Emulator.Heed
import Recompiler.Proofs.Emulator.Turn

/-!
# Every block of a chain heeds its own writes

Which block is running is kept by the blocks themselves: each names itself when it
is entered, wherever its predecessor was linked.  So however blocks follow one
another, whatever a block calls is called in its own name; a write that frees the
block that makes it ends the chain, and no other write does.
-/

namespace Recompiler

namespace Emulator

/-- A block that was entered, and what it called. -/
structure Visit where
  block : BlockId
  calls : List (HelperCall GuardedMemory)

def chainVisits : Nat → BlockId → HostState GuardedMemory → List Visit
  | 0, _, _ => []
  | fuel + 1, id, s =>
      ⟨id, s.calls helpers none (s.world.code.arena.block id).program⟩ ::
        match s.run helpers none (s.world.code.arena.block id).program with
        | .jumped (.exitSlot source slot) s =>
            match landing? s.world.code.arena
                (s.world.code.arena.slotPosition source slot) with
            | some (.block next) => chainVisits fuel next s
            | _ => []
        | _ => []

def visits (e : Emulator) (id : BlockId) : List Visit :=
  if id.isTrampoline || !e.arena.isLive id then []
  else chainVisits (e.context.cycles.toInt.toNat + 1) id (e.entered id)

/-! ## Chains -/

/-- How a chain of blocks is gone through: each heeds its writes, and only the last
is left behind one. -/
structure Toured (l : Limits) (visits : List Visit) (code : ReturnCode)
    (t : HostState GuardedMemory) : Prop where
  last : ∃ v, visits.getLast? = some v ∧ t.context.running = v.block.word ∧
    v.block.number < UInt32.size
  heeds : ∀ before v after, visits = before ++ v :: after →
    ∃ src seq o, src.Gives l seq ∧ Heeds l v.block src seq v.calls o ∧
      ∀ u, o = .returned ReturnCode.selfModified.word u ↔
        after = [] ∧ code = .selfModified ∧ t = u

section Chain

variable {l : Limits} {id : BlockId} {src : Source} {seq : Sequence}
  {calls : List (HelperCall GuardedMemory)} {o : Outcome GuardedMemory} {code : ReturnCode}
  {t : HostState GuardedMemory}

theorem Toured.single (hg : src.Gives l seq) (hh : Heeds l id src seq calls o)
    (hr : t.context.running = id.word) (hid : id.number < UInt32.size)
    (ho : ∀ u, o = .returned ReturnCode.selfModified.word u ↔ code = .selfModified ∧ t = u) :
    Toured l [⟨id, calls⟩] code t := by
  refine ⟨⟨_, rfl, hr, hid⟩, fun before v after hv => ?_⟩
  cases before with
  | nil =>
      obtain ⟨rfl, rfl⟩ := List.cons.inj hv
      refine ⟨src, seq, o, hg, hh, fun u => ?_⟩
      rw [ho u]
      exact (and_iff_right rfl).symm
  | cons _ before =>
      have hnil := (List.cons.inj hv).2
      exact absurd hnil.symm (List.append_ne_nil_of_right_ne_nil _ (List.cons_ne_nil v after))

/-- A block that is left for the next of a chain. -/
theorem Toured.cons {visits : List Visit} (hg : src.Gives l seq)
    (hh : Heeds l id src seq calls o)
    (ho : ∀ u, o ≠ .returned ReturnCode.selfModified.word u) (h : Toured l visits code t) :
    Toured l (⟨id, calls⟩ :: visits) code t := by
  obtain ⟨last, hlast, hr, hid⟩ := h.last
  refine ⟨⟨last, ?_, hr, hid⟩, fun before v after hv => ?_⟩
  · rw [List.getLast?_cons, hlast]
    rfl
  · cases before with
    | nil =>
        obtain ⟨rfl, rfl⟩ := List.cons.inj hv
        refine ⟨src, seq, o, hg, hh, fun u => ⟨fun hu => absurd hu (ho u), ?_⟩⟩
        rintro ⟨rfl, _⟩
        cases hlast
    | cons _ before => exact h.heeds before v after (List.cons.inj hv).2

theorem toured_of_returned (code : ReturnCode) {fuel : Nat} {s : HostState GuardedMemory}
    (hg : src.Gives l seq)
    (hh : Heeds l id src seq (s.calls helpers none (s.world.code.arena.block id).program)
      (s.run helpers none (s.world.code.arena.block id).program))
    (hid : id.number < UInt32.size)
    (hrun : s.run helpers none (s.world.code.arena.block id).program = .returned code.word t)
    (hr : t.context.running = id.word) :
    ∃ code t, chain (fuel + 1) id s = .ok (code.word, t) ∧
      Toured l (chainVisits (fuel + 1) id s) code t := by
  refine ⟨code, t, chain_of_returned hrun, ?_⟩
  rw [hrun] at hh
  rw [chainVisits, hrun]
  refine .single hg hh hr hid fun u => ?_
  rw [Outcome.returned.injEq]
  exact and_congr_left fun _ => ⟨ReturnCode.word_inj, congrArg _⟩

section Jumped

variable {fuel : Nat} {s : HostState GuardedMemory} {slot : Slot} (hg : src.Gives l seq)
  (hh : Heeds l id src seq (s.calls helpers none (s.world.code.arena.block id).program)
    (s.run helpers none (s.world.code.arena.block id).program))
  (hrun : s.run helpers none (s.world.code.arena.block id).program =
    .jumped (.exitSlot id slot) t)

include hg hh hrun

theorem toured_of_unlinked (hid : id.number < UInt32.size) (hr : t.context.running = id.word)
    (hl : t.world.code.arena.Linked) {trampoline : Slot}
    (hT : t.world.code.arena.successor id slot = .trampoline trampoline) :
    ∃ code t, chain (fuel + 1) id s = .ok (code.word, t) ∧
      Toured l (chainVisits (fuel + 1) id s) code t := by
  refine ⟨.ofSlot trampoline, t, chain_of_unlinked hrun hl hT, ?_⟩
  rw [hrun] at hh
  rw [chainVisits, hrun]
  simp only
  rw [landing?_of_unlinked hl hT]
  apply Toured.single hg hh hr hid
  intro u
  constructor
  · intro ho
    cases ho
  · rintro ⟨hcode, _⟩
    cases trampoline <;> cases hcode

theorem toured_of_linked (ha : t.world.code.arena.Arranged) (hl : t.world.code.arena.Linked)
    (hT : (t.world.code.arena.successor id slot).isTrampoline = false)
    (hnext : ∃ code u, chain fuel (t.world.code.arena.successor id slot) t = .ok (code.word, u) ∧
      Toured l (chainVisits fuel (t.world.code.arena.successor id slot) t) code u) :
    ∃ code u, chain (fuel + 1) id s = .ok (code.word, u) ∧
      Toured l (chainVisits (fuel + 1) id s) code u := by
  obtain ⟨code, u, hchain, htoured⟩ := hnext
  refine ⟨code, u, (chain_of_linked hrun ha hl hT).trans hchain, ?_⟩
  rw [hrun] at hh
  rw [chainVisits, hrun]
  simp only
  rw [landing?_of_linked ha hl hT]
  apply Toured.cons hg hh ?_ htoured
  intro u ho
  cases ho

end Jumped

/-- **Every block of a chain heeds its writes,** wherever exits are linked, by
induction on the budget. -/
theorem chain_toured (hl : l.Sufficient) (fuel : Nat) {id : BlockId}
    {s : HostState GuardedMemory} (hs : s.world.Coherent l)
    (hid : s.world.code.arena.isLive id = true) (hfuel : s.context.cycles.toInt.toNat < fuel) :
    ∃ code t, chain fuel id s = .ok (code.word, t) ∧
      Toured l (chainVisits fuel id s) code t := by
  induction fuel generalizing id s with
  | zero => exact absurd hfuel (Nat.not_lt_zero _)
  | succ fuel ih =>
      obtain ⟨src, hb⟩ := Option.isSome_iff_exists.mp ((hs.store.indexed.live id).symm.trans hid)
      obtain ⟨seq, hg, _, hprogram⟩ := (hs.store.translated id src hb).gives
      have hsize : id.number < UInt32.size :=
        Nat.lt_trans (Arena.lt_capacity_of_isLive hid) hs.store.ids
      have hheeds : Heeds l id src seq
          (s.calls helpers none (s.world.code.arena.block id).program)
          (s.run helpers none (s.world.code.arena.block id).program) := by
        rw [hprogram]
        exact heeds_block hs hb
      rcases returned_or_exited hl hs hid with ⟨code, t, hrun, _, hr⟩ | ⟨slot, t, h⟩
      · exact toured_of_returned code hg hheeds hsize hrun hr
      · have hlinked := h.coherent.store.linked
        cases hT : (t.world.code.arena.successor id slot).isTrampoline with
        | true =>
            obtain ⟨trampoline, hT⟩ := BlockId.isTrampoline_iff.mp hT
            exact toured_of_unlinked hg hheeds h.run hsize h.running hlinked hT
        | false =>
            have hfuel := Nat.lt_of_lt_of_le h.falls (Nat.le_of_lt_succ hfuel)
            have hnext := ih h.coherent (hlinked.live id slot hT) hfuel
            exact toured_of_linked hg hheeds h.run h.coherent.store.arranged hlinked hT hnext

end Chain

end Emulator

end Recompiler
