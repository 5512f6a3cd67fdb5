import Recompiler.Proofs.Compile.Settled
import Recompiler.Proofs.Emulator.Coherent
import Recompiler.Proofs.Emulator.Threaded

/-!
# Chains of blocks

A linked exit enters the block at the address the guest goes on at, so a chain
of blocks is one run of the plain machine.  Every block but the last charges
for an instruction at least, and none is gone through with the budget used up.
-/

namespace Recompiler

namespace Emulator

/-! ## What exits jump to -/

theorem isLive_of_landing? {a : Arena} {position : Nat} {id : BlockId}
    (h : landing? a position = some (.block id)) : a.isLive id = true := by
  unfold landing? at h
  split at h
  · cases h
  · obtain ⟨next, hfind, hnext⟩ := Option.map_eq_some_iff.mp h
    cases hnext
    have hfound := List.find?_some hfind
    rw [Bool.and_eq_true] at hfound
    exact hfound.2

theorem landing?_trampoline (a : Arena) (slot : Slot) :
    landing? a (trampolinePosition slot) = some (.trampoline slot) := by
  unfold landing?
  cases slot <;> rfl

theorem landing?_block {a : Arena} (ha : a.Arranged) (hl : a.Linked) {id : BlockId}
    (hid : a.isLive id = true) : landing? a (a.block id).start = some (.block id) := by
  obtain ⟨hi, htiles, _⟩ := ha.tiles
  have hmem := ha.mem_regions_of_isLive hl hid
  have hstart := (htiles.bounds hmem).1
  unfold landing?
  have hnone : (Slot.all.find? fun s => trampolinePosition s = (a.block id).start) = none := by
    rw [List.find?_eq_none]
    intro s _ hs
    have hs : trampolinePosition s = (a.block id).start := of_decide_eq_true hs
    rw [← hs] at hstart
    cases s <;> simp [trampolinePosition, stubBytes] at hstart
  rw [hnone]
  have hfind : (a.regions.find? fun x => (a.block x).start = (a.block id).start && a.isLive x) =
      some id := by
    cases hf : a.regions.find? fun x => (a.block x).start = (a.block id).start && a.isLive x with
    | none =>
        have := List.find?_eq_none.mp hf id hmem
        simp [hid] at this
    | some x =>
        have hx := List.find?_some hf
        rw [Bool.and_eq_true, decide_eq_true_iff] at hx
        by_contra hne
        have hxmem := List.mem_of_find?_eq_some hf
        have hdisjoint := htiles.disjoint hxmem hmem fun he => hne (congrArg some he)
        have hxsize := htiles.bounds hxmem
        have hsize := htiles.bounds hmem
        omega
  rw [hfind]
  rfl

theorem landing?_of_unlinked {a : Arena} (hl : a.Linked) {id : BlockId} {slot trampoline : Slot}
    (hT : a.successor id slot = .trampoline trampoline) :
    landing? a (a.slotPosition id slot) = some (.trampoline trampoline) := by
  rw [hl.position, hT, hl.stub_start, landing?_trampoline]

theorem landing?_of_linked {a : Arena} (ha : a.Arranged) (hl : a.Linked) {id : BlockId}
    {slot : Slot} (hT : (a.successor id slot).isTrampoline = false) :
    landing? a (a.slotPosition id slot) = some (.block (a.successor id slot)) := by
  rw [hl.position, landing?_block ha hl (hl.live id slot hT)]

/-! ## Going from block to block -/

section Block

variable {n : Nat} {id : BlockId} {slot : Slot} {s t : HostState GuardedMemory}

theorem chain_of_returned {code : UInt32}
    (hrun : s.run helpers none (s.world.code.arena.block id).program = .returned code t) :
    chain (n + 1) id s = .ok (code, t) := by
  unfold chain
  rw [hrun]

/-- With the budget used up the chain ends where it begins. -/
theorem chain_of_exhausted {l : Limits} (hs : s.world.Coherent l)
    (hid : s.world.code.arena.isLive id = true) (hc : s.context.cycles ≤ 0) :
    ∃ t : HostState GuardedMemory, chain (n + 1) id s = .ok (ReturnCode.cycles.word, t) ∧
      t.context = { s.context with running := id.word } ∧ t.world = s.world := by
  obtain ⟨src, hb⟩ := Option.isSome_iff_exists.mp ((hs.store.indexed.live id).symm.trans hid)
  obtain ⟨seq, _, _, hprogram⟩ := (hs.store.translated id src hb).gives
  obtain ⟨t, hrun, hct, hwt⟩ := HostState.run_of_exhausted helpers hc seq id
  rw [← hprogram] at hrun
  exact ⟨t, chain_of_returned hrun, hct, hwt⟩

theorem chain_of_unlinked {trampoline : Slot}
    (hrun : s.run helpers none (s.world.code.arena.block id).program =
      .jumped (.exitSlot id slot) t)
    (hl : t.world.code.arena.Linked)
    (hT : t.world.code.arena.successor id slot = .trampoline trampoline) :
    chain (n + 1) id s = .ok ((ReturnCode.ofSlot trampoline).word, t) := by
  unfold chain
  rw [hrun]
  simp only
  rw [landing?_of_unlinked hl hT]

theorem chain_of_linked
    (hrun : s.run helpers none (s.world.code.arena.block id).program =
      .jumped (.exitSlot id slot) t)
    (ha : t.world.code.arena.Arranged) (hl : t.world.code.arena.Linked)
    (hT : (t.world.code.arena.successor id slot).isTrampoline = false) :
    chain (n + 1) id s = chain n (t.world.code.arena.successor id slot) t := by
  conv_lhs => unfold chain
  rw [hrun]
  simp only
  rw [landing?_of_linked ha hl hT]

end Block

/-! ## Calls of helpers -/

theorem settled_program {l : Limits} {g : GuardedMemory} (hg : g.Coherent l) {id : BlockId}
    (hid : g.code.arena.isLive id = true) :
    settled [] (g.code.arena.block id).program = true := by
  obtain ⟨src, hb⟩ := Option.isSome_iff_exists.mp ((hg.store.indexed.live id).symm.trans hid)
  obtain ⟨seq, _, _, hprogram⟩ := (hg.store.translated id src hb).gives
  rw [hprogram]
  exact seq.settled_operations id

/-- A block passes the handle to all that it calls. -/
theorem owned_block {l : Limits} {s : HostState GuardedMemory} (hs : s.world.Coherent l)
    {id : BlockId} (hid : s.world.code.arena.isLive id = true) (ho : s.Owned []) :
    (s.run helpers none (s.world.code.arena.block id).program).Owned :=
  HostState.Owned.run none (settled_program hs hid) ho

theorem owned_entered (e : Emulator) (id : BlockId) : (e.entered id).Owned [] :=
  ⟨rfl, nofun, rfl⟩

/-- **Compiled code calls no helper without the handle.** -/
theorem owned_chain {l : Limits} (fuel : Nat) {id : BlockId} {s t : HostState GuardedMemory}
    {code : UInt32} (hs : s.world.Coherent l) (hid : s.world.code.arena.isLive id = true)
    (ho : s.Owned []) (hc : chain fuel id s = .ok (code, t)) : t.Owned [] := by
  induction fuel generalizing id s with
  | zero => cases hc
  | succ fuel ih =>
      have howned := owned_block hs hid ho
      have hleaves := leaves_block hs (s.world.code.arena.block id).program
      unfold chain at hc
      split at hc
      · next hrun =>
          rw [hrun] at howned
          cases hc
          exact howned
      · next hrun =>
          rw [hrun] at howned hleaves
          split at hc
          · cases hc
            exact howned
          · next hland => exact ih hleaves.coherent (isLive_of_landing? hland) howned hc
          · cases hc
      · cases hc

/-- Running compiled code that ends with a return code. -/
theorem execute_of_chain {e : Emulator} (h : e.Coherent) {id : BlockId} {code : ReturnCode}
    {t : HostState GuardedMemory} (hlive : e.arena.isLive id = true)
    (hc : chain (e.context.cycles.toInt.toNat + 1) id (e.entered id) = .ok (code.word, t)) :
    e.execute id = .ok (code, BlockId.ofWord t.context.running, e.left t) := by
  have howned := owned_chain _ (s := e.entered id) h.guarded hlive (e.owned_entered id) hc
  have hid := h.guarded.store.linked.not_trampoline_of_isLive hlive
  unfold Emulator.execute
  rw [if_neg (by rw [hid, hlive]; exact Bool.false_ne_true), hc]
  simp only [bind, Except.bind, ReturnCode.ofWord?_word, howned.broken]
  rfl

/-- A block is left through an exit that it has. -/
structure Exited (l : Limits) (id : BlockId) (slot : Slot) (s t : HostState GuardedMemory) :
    Prop where
  run : s.run helpers none (s.world.code.arena.block id).program = .jumped (.exitSlot id slot) t
  coherent : t.world.Coherent l
  shrinks : s.world.code.arena.Shrinks t.world.code.arena
  running : t.context.running = id.word
  exit : slot.index < (t.world.code.arena.block id).kind.exitCount
  /-- Something was charged for. -/
  falls : t.context.cycles.toInt.toNat < s.context.cycles.toInt.toNat

/-- **A block returns, or is left through an exit.** -/
theorem returned_or_exited {l : Limits} (hl : l.Sufficient) {id : BlockId}
    {s : HostState GuardedMemory} (hs : s.world.Coherent l)
    (hid : s.world.code.arena.isLive id = true) :
    (∃ (code : ReturnCode) (t : HostState GuardedMemory),
      s.run helpers none (s.world.code.arena.block id).program = .returned code.word t ∧
        code.slot? = none ∧ t.context.running = id.word) ∨
      ∃ slot t, Exited l id slot s t := by
  obtain ⟨src, hb⟩ := Option.isSome_iff_exists.mp ((hs.store.indexed.live id).symm.trans hid)
  obtain ⟨seq, hg, hkind, hprogram⟩ := (hs.store.translated id src hb).gives
  by_cases hc : s.context.cycles ≤ 0
  · obtain ⟨t, hrun, hct, _⟩ := HostState.run_of_exhausted helpers hc seq id
    rw [← hprogram] at hrun
    exact Or.inl ⟨.cycles, t, hrun, rfl, by rw [hct]⟩
  have hpos := not_exhausted_iff.mp hc
  have hleft : Left stepper () _ id seq.exit 0 _ s (s.run helpers none (seq.operations id)) :=
    left_block hl hg hs hb hpos
  rw [← hprogram] at hleft
  generalize hrun : s.run helpers none _ = o at hleft
  cases hleft with
  | @returned n t code hcode _ h =>
      refine Or.inl ⟨code, t, rfl, ?_, h.running⟩
      rcases hcode with rfl | rfl
      · rfl
      · rfl
  | opcode _ h _ => exact Or.inl ⟨.opcode, _, rfl, rfl, h.running⟩
  | callback _ h _ => exact Or.inl ⟨.callback, _, rfl, rfl, h.running⟩
  | @jumped n t slot hn h hlive hx =>
      have hexit : slot.index < (t.world.code.arena.block id).kind.exitCount := by
        rw [← Descriptor.kind_core, h.shrinks.core id hlive, Descriptor.kind_core,
          show (s.world.code.arena.block id).kind = _ from hkind]
        exact Exit.index_lt_of_target? hx
      have hcycles := h.cycles
      exact Or.inr ⟨slot, t, hrun, h.coherent, h.shrinks, h.running, hexit, by omega⟩

variable {σ : Type}

/-- How a chain of blocks returns: the guest went through `n` instructions, and
`last` is the block entered last. -/
inductive Returned (i : Interpreter σ) (state : σ) (l : Limits) (eip : UInt32)
    (s : HostState GuardedMemory) : ReturnCode → HostState GuardedMemory → Prop
  /-- The budget was used up at the entrance of a block. -/
  | exhausted {last : BlockId} {n : Nat} {t : HostState GuardedMemory}
      (h : Passed i state l last eip n n none s t) (hc : t.context.cycles ≤ 0) :
      Returned i state l eip s .cycles t
  | resumed {last : BlockId} {n : Nat} {t : HostState GuardedMemory} {code : ReturnCode}
      (hcode : code = .normal ∨ code = .selfModified) (hn : 0 < n)
      (h : Passed i state l last eip n n none s t) : Returned i state l eip s code t
  /-- Through an exit that is not linked. -/
  | unlinked {last : BlockId} {n : Nat} {t : HostState GuardedMemory} {slot : Slot} (hn : 0 < n)
      (h : Passed i state l last eip n n none s t)
      (hlive : t.world.code.arena.isLive last = true)
      (hx : t.world.code.arena.Exits l last slot t.context.cpu.eip) :
      Returned i state l eip s (.ofSlot slot) t
  | opcode {last : BlockId} {n : Nat} {t : HostState GuardedMemory}
      (h : Passed i state l last eip n n none s t)
      (hlow : -(pageSize : Int) < t.context.cycles.toInt)
      (hi : t.world.memory.bare.instruction? l.decoder t.context.cpu.eip = none) :
      Returned i state l eip s .opcode t
  | callback {last : BlockId} {n : Nat} {t : HostState GuardedMemory} {v : UInt8} (hn : 0 < n)
      (h : Passed i state l last eip n n (some (.interrupt v)) s t)
      (hv : t.context.callback = v.toUInt32) : Returned i state l eip s .callback t

section Returned

variable {i : Interpreter σ} {state : σ} {l : Limits} {eip eip' : UInt32} {last : BlockId}
  {s t u : HostState GuardedMemory} {k : Nat}

theorem Passed.trans {b : BlockId} {m n : Nat} {stop : Option Stop}
    (h : Passed i state l b eip m m none s t)
    (h' : Passed i state l last t.context.cpu.eip n n stop t u) :
    Passed i state l last eip (m + n) (m + n) stop s u := by
  refine ⟨Guest.steps_add h.steps h'.steps, h'.coherent, h.shrinks.trans h'.shrinks, h'.running, ?_⟩
  rw [h'.cycles, h.cycles]
  omega

theorem Passed.returned {b : BlockId} {m : Nat} {code : ReturnCode}
    (h : Passed i state l b eip m m none s t)
    (h' : Returned i state l t.context.cpu.eip t code u) : Returned i state l eip s code u := by
  cases h' with
  | exhausted h' hc => exact .exhausted (h.trans h') hc
  | resumed hcode hn h' => exact .resumed hcode (Nat.add_pos_right m hn) (h.trans h')
  | unlinked hn h' hlive hx => exact .unlinked (Nat.add_pos_right m hn) (h.trans h') hlive hx
  | opcode h' hlow hi => exact .opcode (h.trans h') hlow hi
  | callback hn h' hv => exact .callback (Nat.add_pos_right m hn) (h.trans h') hv

end Returned

/-- How a chain of blocks is gone through: it ends where a block returns or is
left through an exit that is not linked, and a linked exit enters the next. -/
inductive Chained (i : Interpreter σ) (state : σ) (l : Limits) :
    BlockId → HostState GuardedMemory → ReturnCode → HostState GuardedMemory → Prop
  | exhausted {id : BlockId} {s t : HostState GuardedMemory} (hc : s.context.cycles ≤ 0)
      (ht : t.context = { s.context with running := id.word }) (hw : t.world = s.world) :
      Chained i state l id s .cycles t
  | resumed {id : BlockId} {s t : HostState GuardedMemory} {src : Source} {n : Nat}
      {code : ReturnCode} (hb : s.world.code.arena.sourceOf id = some src)
      (hcode : code = .normal ∨ code = .selfModified) (hn : 0 < n)
      (h : Passed i state l id src.start n n none s t) : Chained i state l id s code t
  | unlinked {id : BlockId} {s t : HostState GuardedMemory} {src : Source} {n : Nat} {slot : Slot}
      (hb : s.world.code.arena.sourceOf id = some src) (hn : 0 < n)
      (h : Passed i state l id src.start n n none s t)
      (hlive : t.world.code.arena.isLive id = true)
      (hx : t.world.code.arena.Exits l id slot t.context.cpu.eip) :
      Chained i state l id s (.ofSlot slot) t
  | linked {id : BlockId} {s t u : HostState GuardedMemory} {src : Source} {n : Nat} {slot : Slot}
      {code : ReturnCode} (hb : s.world.code.arena.sourceOf id = some src) (hn : 0 < n)
      (h : Passed i state l id src.start n n none s t)
      (hx : t.world.code.arena.Exits l id slot t.context.cpu.eip)
      (hT : (t.world.code.arena.successor id slot).isTrampoline = false)
      (hrest : Chained i state l (t.world.code.arena.successor id slot) t code u) :
      Chained i state l id s code u
  | opcode {id : BlockId} {s t : HostState GuardedMemory} {src : Source} {n : Nat}
      (hb : s.world.code.arena.sourceOf id = some src)
      (h : Passed i state l id src.start n n none s t)
      (hlow : -(pageSize : Int) < t.context.cycles.toInt)
      (hi : t.world.memory.bare.instruction? l.decoder t.context.cpu.eip = none) :
      Chained i state l id s .opcode t
  | callback {id : BlockId} {s t : HostState GuardedMemory} {src : Source} {n : Nat} {v : UInt8}
      (hb : s.world.code.arena.sourceOf id = some src) (hn : 0 < n)
      (h : Passed i state l id src.start n n (some (.interrupt v)) s t)
      (hv : t.context.callback = v.toUInt32) : Chained i state l id s .callback t

/-- **A chain of blocks comes to an end,** wherever linked exits lead, by
induction on the budget. -/
theorem chain_ok (i : Interpreter σ) (state : σ) {l : Limits} (hl : l.Sufficient) (fuel : Nat)
    {id : BlockId} {s : HostState GuardedMemory} (hs : s.world.Coherent l)
    (hh : s.world.code.arena.Homed) (hid : s.world.code.arena.isLive id = true)
    (hfuel : s.context.cycles.toInt.toNat < fuel) :
    ∃ code t, chain fuel id s = .ok (code.word, t) ∧ Chained i state l id s code t := by
  induction fuel generalizing id s with
  | zero => exact absurd hfuel (Nat.not_lt_zero _)
  | succ fuel ih =>
      by_cases hc : s.context.cycles ≤ 0
      · obtain ⟨t, hchain, hct, hwt⟩ := chain_of_exhausted hs hid hc
        exact ⟨.cycles, t, hchain, .exhausted hc hct hwt⟩
      · have hpos := not_exhausted_iff.mp hc
        obtain ⟨src, hb⟩ := Option.isSome_iff_exists.mp ((hs.store.indexed.live id).symm.trans hid)
        obtain ⟨seq, hg, _, hprogram⟩ := (hs.store.translated id src hb).gives
        have hleft : Left i state _ id seq.exit 0 _ s (s.run helpers none (seq.operations id)) :=
          left_block hl hg hs hb hpos
        rw [← hprogram] at hleft
        generalize hrun : s.run helpers none _ = o at hleft
        cases hleft with
        | @returned n t code hcode hn h =>
            rw [Nat.zero_add] at hn h
            exact ⟨code, t, chain_of_returned hrun, .resumed hb hcode hn h⟩
        | opcode hsize h hi =>
            rw [Nat.zero_add] at hsize h
            have hcycles := h.cycles
            exact ⟨.opcode, _, chain_of_returned hrun, .opcode hb h (by omega) hi⟩
        | callback hn h hv =>
            rw [Nat.zero_add] at hn h
            exact ⟨.callback, _, chain_of_returned hrun, .callback hb hn h hv⟩
        | @jumped n t slot hn h hlive hx =>
            rw [Nat.zero_add] at hn h
            have harena := h.coherent.store.toSound
            have hhome := h.shrinks.homed hh
            have hexits : t.world.code.arena.Exits l id slot t.context.cpu.eip :=
              ⟨src, seq, (Arena.sourceOf_eq_of_core (h.shrinks.core id hlive)).trans hb, hg, hx⟩
            cases hT : (t.world.code.arena.successor id slot).isTrampoline with
            | true =>
                exact ⟨.ofSlot slot, t, chain_of_unlinked hrun harena.linked (hhome id slot hT),
                  .unlinked hb hn h hlive hexits⟩
            | false =>
                have hcycles := h.cycles
                obtain ⟨code, u, hchain, hchained⟩ :=
                  ih h.coherent hhome (harena.linked.live id slot hT) (by omega)
                rw [← chain_of_linked hrun harena.arranged harena.linked hT] at hchain
                exact ⟨code, u, hchain, .linked hb hn h hexits hT hchained⟩

/-- What the chain leaves, and the block entered last. -/
theorem Chained.leaves {i : Interpreter σ} {state : σ} {l : Limits} {id : BlockId}
    {s t : HostState GuardedMemory} {code : ReturnCode} (h : Chained i state l id s code t)
    (hs : s.world.Coherent l) :
    t.world.Coherent l ∧ s.world.code.arena.Shrinks t.world.code.arena ∧
      ∀ slot, code = .ofSlot slot → ∃ last, t.context.running = last.word ∧
        t.world.code.arena.isLive last = true ∧
          t.world.code.arena.Exits l last slot t.context.cpu.eip := by
  induction h with
  | exhausted _ _ hw =>
      refine ⟨hw ▸ hs, hw ▸ .refl _, ?_⟩
      rintro slot he
      cases slot <;> cases he
  | resumed _ hcode _ h =>
      refine ⟨h.coherent, h.shrinks, ?_⟩
      rintro slot he
      rcases hcode with rfl | rfl
      · cases slot <;> cases he
      · cases slot <;> cases he
  | @unlinked id _ _ _ _ slot _ _ h hlive hx =>
      refine ⟨h.coherent, h.shrinks, ?_⟩
      intro slot' he
      have : slot = slot' := by
        cases slot <;> cases slot' <;> first | rfl | cases he
      exact ⟨id, h.running, hlive, this ▸ hx⟩
  | linked _ _ h _ _ _ ih =>
      obtain ⟨hc, hrest, hlast⟩ := ih h.coherent
      exact ⟨hc, h.shrinks.trans hrest, hlast⟩
  | opcode _ h _ _ | callback _ _ h _ =>
      refine ⟨h.coherent, h.shrinks, ?_⟩
      rintro slot he
      cases slot <;> cases he

/-- Where linked exits lead where the guest goes on, a chain of blocks is one
run of the plain machine. -/
theorem Chained.returned {i : Interpreter σ} {state : σ} {l : Limits} (hl : l.Sufficient)
    {id : BlockId} {s t : HostState GuardedMemory} {code : ReturnCode}
    (h : Chained i state l id s code t) {src : Source} (hs : s.world.Coherent l)
    (ht : s.world.code.arena.Threaded l) (hb : s.world.code.arena.sourceOf id = some src)
    (heip : src.start = s.context.cpu.eip) : Returned i state l src.start s code t := by
  induction h generalizing src with
  | @exhausted id s t hc hct hwt =>
      refine @Returned.exhausted _ _ _ _ _ _ id 0 _ ⟨?_, hwt ▸ hs, hwt ▸ .refl _,
        by rw [hct], by rw [hct]; exact (Int.sub_zero _).symm⟩ (by rw [hct]; exact hc)
      rw [Guest.steps, guestAt, guestAt, hwt, hct, heip]
  | resumed hb' hcode hn h =>
      cases Option.some.inj (hb.symm.trans hb')
      exact .resumed hcode hn h
  | unlinked hb' hn h hlive hx =>
      cases Option.some.inj (hb.symm.trans hb')
      exact .unlinked hn h hlive hx
  | @linked id _ _ _ _ _ slot _ hb' _ h hx hT _ ih =>
      cases Option.some.inj (hb.symm.trans hb')
      have hthreads := ht.shrinks h.shrinks h.coherent.store.linked
      obtain ⟨next, hnext, hx'⟩ := hthreads.thread id slot hT
      have heip' : next.start = _ := hx'.unique hl hx
      have hrest := ih h.coherent hthreads hnext heip'
      rw [heip'] at hrest
      exact h.returned hrest
  | opcode hb' h hlow hi =>
      cases Option.some.inj (hb.symm.trans hb')
      exact .opcode h hlow hi
  | callback hb' hn h hv =>
      cases Option.some.inj (hb.symm.trans hb')
      exact .callback hn h hv

/-- **A chain of blocks goes through the plain machine's instructions** from
the start of its first block on. -/
theorem chain_spec (i : Interpreter σ) (state : σ) {l : Limits} (hl : l.Sufficient) (fuel : Nat)
    {id : BlockId} {src : Source} {s : HostState GuardedMemory} (hs : s.world.Coherent l)
    (ht : s.world.code.arena.Threaded l) (hb : s.world.code.arena.sourceOf id = some src)
    (heip : src.start = s.context.cpu.eip) (hfuel : s.context.cycles.toInt.toNat < fuel) :
    ∃ code t, chain fuel id s = .ok (code.word, t) ∧ Returned i state l src.start s code t := by
  obtain ⟨code, t, hchain, h⟩ :=
    chain_ok i state hl fuel hs ht.homed (hs.store.isLive_of_source hb) hfuel
  exact ⟨code, t, hchain, h.returned hl hs ht hb heip⟩

end Emulator

end Recompiler
