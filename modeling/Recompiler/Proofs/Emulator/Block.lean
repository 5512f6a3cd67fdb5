import Recompiler.Proofs.Compile.Leave
import Recompiler.Proofs.Emulator.Body
import Recompiler.Proofs.Guarded.Sequence

/-!
# A block and the plain machine

Running a block is running its instructions one at a time on the memory of that
moment.  A write that changes an instruction still to come frees the block, and
the block is left behind that write; so as long as the block goes on, what it
goes on with is what memory holds.
-/

namespace Recompiler

open Operation

/-! ## Single steps -/

def Exit.target? : Exit → Slot → Option UInt32
  | .limit target, .first | .jump target, .first => some target
  | .branch _ _ notTaken, .first => some notTaken
  | .branch _ taken _, .second => some taken
  | _, _ => none

namespace Guest

variable {σ : Type} {d : Decoder} {i : Interpreter σ} {g g' : Guest σ}

theorem steps_one {stop : Option Stop} (h : g.step d i = (g', stop)) :
    g.steps d i 1 = (1, g', stop) := by
  rw [steps, h]
  cases stop <;> rfl

theorem steps_add {m n k : Nat} {u : Guest σ} {stop : Option Stop}
    (h : g.steps d i m = (m, g', none)) (hs : g'.steps d i n = (k, u, stop)) :
    g.steps d i (m + n) = (m + k, u, stop) := by
  induction m generalizing g with
  | zero =>
      cases h
      rw [Nat.zero_add, Nat.zero_add]
      exact hs
  | succ m ih =>
      rw [steps] at h
      split at h
      · cases h
      · next g₁ hstep =>
          simp only [Prod.mk.injEq, Nat.add_right_cancel_iff] at h
          obtain ⟨h1, h2, h3⟩ := h
          have hrest := ih (g := g₁) (Prod.ext h1 (Prod.ext h2 h3))
          rw [show m + 1 + n = m + n + 1 by omega, show m + 1 + k = m + k + 1 by omega, steps,
            hstep]
          simp only
          rw [hrest]

end Guest

namespace Emulator

variable {σ : Type}

/-- The guest that the host shows, about to run the instruction at an
address. -/
def guestAt (s : HostState GuardedMemory) (eip : UInt32) (state : σ) : Guest σ where
  cpu := s.context.cpu.goto eip
  callback := s.context.callback
  memory := s.world.memory.bare
  interpreter := state

/-- A body does what the plain machine does in one step. -/
theorem step_of_carried (i : Interpreter σ) (state : σ) {l : Limits} {p : Placed} {eip : UInt32}
    {s t : HostState GuardedMemory} {hit : Bool}
    (hp : s.world.memory.bare.instruction? l.decoder eip = some p) (h : Carried l p eip s hit t) :
    (guestAt s eip state).step l.decoder i =
      (guestAt t (s.world.memory.bare.run (p.effect (s.context.cpu.goto eip))).1.eip state,
        p.instruction.vector?.map .interrupt) := by
  have hcode : (guestAt s eip state).memory.instruction? l.decoder
      (guestAt s eip state).cpu.eip = some p := hp
  rw [Guest.step, hcode]
  dsimp only
  rw [guestAt, guestAt, h.memory, h.context, contextAfter]
  cases p.instruction.vector? with
  | none => rfl
  | some v => rfl

/-! ## Runs of a block -/

/-- Instructions that the host went through while a block was running, and
those it charged for. -/
structure Passed (i : Interpreter σ) (state : σ) (l : Limits) (id : BlockId) (eip : UInt32)
    (charged n : Nat) (stop : Option Stop) (s t : HostState GuardedMemory) : Prop where
  steps : (guestAt s eip state).steps l.decoder i n = (n, guestAt t t.context.cpu.eip state, stop)
  coherent : t.world.Coherent l
  shrinks : s.world.code.arena.Shrinks t.world.code.arena
  running : t.context.running = id.word
  cycles : t.context.cycles.toInt = s.context.cycles.toInt - charged

/-- How a block is left: the guest went through the rest of the block, of which
`m` instructions ran before. -/
inductive Left (i : Interpreter σ) (state : σ) (l : Limits) (id : BlockId) (exit : Exit) (m : Nat)
    (eip : UInt32) (s : HostState GuardedMemory) : Outcome GuardedMemory → Prop
  /-- Through a transfer to a computed address, or behind a write that met the
  block. -/
  | returned {n : Nat} {t : HostState GuardedMemory} {code : ReturnCode}
      (hcode : code = .normal ∨ code = .selfModified) (hn : 0 < m + n)
      (h : Passed i state l id eip (m + n) n none s t) :
      Left i state l id exit m eip s (.returned code.word t)
  | jumped {n : Nat} {t : HostState GuardedMemory} {slot : Slot} (hn : 0 < m + n)
      (h : Passed i state l id eip (m + n) n none s t)
      (hlive : t.world.code.arena.isLive id = true)
      (ht : exit.target? slot = some t.context.cpu.eip) :
      Left i state l id exit m eip s (.jumped (.exitSlot id slot) t)
  /-- Before an instruction of the interpreter's. -/
  | opcode {n : Nat} {t : HostState GuardedMemory} (hsize : m + n ≤ pageSize)
      (h : Passed i state l id eip (m + n) n none s t)
      (hi : t.world.memory.bare.instruction? l.decoder t.context.cpu.eip = none) :
      Left i state l id exit m eip s (.returned ReturnCode.opcode.word t)
  | callback {n : Nat} {t : HostState GuardedMemory} {v : UInt8} (hn : 0 < m + n)
      (h : Passed i state l id eip (m + n) n (some (.interrupt v)) s t)
      (hv : t.context.callback = v.toUInt32) :
      Left i state l id exit m eip s (.returned ReturnCode.callback.word t)

section Passed

variable {i : Interpreter σ} {state : σ} {l : Limits} {id : BlockId} {eip eip' : UInt32}
  {charged m n : Nat} {stop : Option Stop} {s t u : HostState GuardedMemory}

theorem passed_of_leave (hs : s.world.Coherent l) (hr : s.context.running = id.word)
    (hcycles : 0 < s.context.cycles.toInt) (hn : charged ≤ pageSize)
    (hc : t.context = { s.context with cpu := s.context.cpu.goto eip }.charge charged)
    (hw : t.world = s.world) : Passed i state l id eip charged 0 none s t := by
  refine ⟨?_, hw ▸ hs, hw ▸ .refl _, by rw [hc]; exact hr, ?_⟩
  · rw [Guest.steps, guestAt, guestAt, hw, hc]
    rfl
  · rw [hc]
    exact Context.toInt_charge (c := { s.context with cpu := s.context.cpu.goto eip }) hcycles hn

theorem Passed.after {k : Nat}
    (hsteps : (guestAt s eip state).steps l.decoder i k = (k, guestAt t eip' state, none))
    (hs : s.world.code.arena.Shrinks t.world.code.arena)
    (hc : t.context.cycles = s.context.cycles) (h : Passed i state l id eip' charged n stop t u) :
    Passed i state l id eip charged (k + n) stop s u :=
  ⟨Guest.steps_add hsteps h.steps, h.coherent, hs.trans h.shrinks, h.running,
    by rw [h.cycles, hc]⟩

theorem Passed.stopped {why : Stop}
    (hstep : (guestAt s eip state).step l.decoder i = (guestAt t eip' state, some why))
    (hs : s.world.code.arena.Shrinks t.world.code.arena)
    (hc : t.context.cycles = s.context.cycles) (h : Passed i state l id eip' charged 0 none t u) :
    Passed i state l id eip charged 1 (some why) s u := by
  have hguest : guestAt t eip' state = guestAt u u.context.cpu.eip state :=
    congrArg (·.2.1) h.steps
  refine ⟨?_, h.coherent, hs.trans h.shrinks, h.running, by rw [h.cycles, hc]⟩
  rw [← hguest]
  exact Guest.steps_one hstep

theorem Left.after {k : Nat} {exit : Exit} {o : Outcome GuardedMemory}
    (hsteps : (guestAt s eip state).steps l.decoder i k = (k, guestAt t eip' state, none))
    (hs : s.world.code.arena.Shrinks t.world.code.arena)
    (hc : t.context.cycles = s.context.cycles) (h : Left i state l id exit (m + k) eip' t o) :
    Left i state l id exit m eip s o := by
  cases h with
  | returned hcode hn h =>
      rw [Nat.add_assoc] at hn h
      exact .returned hcode hn (h.after hsteps hs hc)
  | jumped hn h hlive ht =>
      rw [Nat.add_assoc] at hn h
      exact .jumped hn (h.after hsteps hs hc) hlive ht
  | opcode hsize h hi =>
      rw [Nat.add_assoc] at hsize h
      exact .opcode hsize (h.after hsteps hs hc) hi
  | callback hn h hv =>
      rw [Nat.add_assoc] at hn h
      exact .callback hn (h.after hsteps hs hc) hv

end Passed

/-- A state in the middle of a block that is still compiled. -/
structure Midway (l : Limits) (id : BlockId) (src : Source) (s : HostState GuardedMemory) :
    Prop where
  coherent : s.world.Coherent l
  source : s.world.code.arena.sourceOf id = some src
  running : s.context.running = id.word
  cycles : 0 < s.context.cycles.toInt

namespace Midway

variable {l : Limits} {id : BlockId} {src : Source} {s t : HostState GuardedMemory}
  (h : Midway l id src s)

include h

theorem isLive : s.world.code.arena.isLive id = true :=
  h.coherent.store.isLive_of_source h.source

theorem running? : s.context.running? = some id := by
  have hlt := Arena.lt_capacity_of_isLive h.isLive
  have hids := h.coherent.store.ids
  have hsize : id.number < UInt32.size := Nat.lt_trans hlt hids
  rw [Context.running?, h.running, if_neg, BlockId.ofWord_word hsize]
  intro hw
  have := congrArg UInt32.toNat hw
  rw [BlockId.word, Nat.toUInt32, UInt32.toNat_ofNat', Nat.mod_eq_of_lt hsize] at this
  simp only [noBlock, UInt32.size] at *
  rw [this] at hlt
  have : (0xFFFFFFFF : UInt32).toNat = 4294967295 := rfl
  omega

theorem spared (hl : GuardedMemory.Leaves l s.context.running? s.world false t.world)
    (hr : t.context.running = s.context.running) (hc : t.context.cycles = s.context.cycles) :
    Midway l id src t := by
  have hlive := hl.spared id h.running? rfl h.isLive
  refine ⟨hl.coherent, ?_, hr.trans h.running, ?_⟩
  · rw [Arena.sourceOf_eq_of_core (hl.shrinks.core id hlive)]
    exact h.source
  · rw [hc]
    exact h.cycles

/-- A body whose write met another block, or none, stays in the block. -/
theorem carried {p : Placed} {eip : UInt32} (hc : Carried l p eip s false t) :
    Midway l id src t := by
  have hrunning : t.context.running = s.context.running := by
    rw [hc.context]
    rfl
  exact h.spared hc.leaves hrunning hc.cycles

end Midway

section Bodies

variable {i : Interpreter σ} {state : σ} {l : Limits} {id : BlockId} {src : Source}
  {seq : Sequence}

/-- The instruction that ends a block leaves it through the exit. -/
theorem left_of_last {p : Placed} {exit : Exit} (hx : p.exit? = some exit) {m : Nat}
    (hcount : m + 1 ≤ pageSize) {eip : UInt32} {s t : HostState GuardedMemory}
    (hmid : Midway l id src s) (hp : s.world.memory.bare.instruction? l.decoder eip = some p)
    (hc : Carried l p eip s false t) (label : Nat) (more : List Operation) :
    Left i state l id exit m eip s
      (t.run helpers none (exit.operations id (m + 1) label ++ more)) := by
  have hstep := step_of_carried i state hp hc
  have hmid' := hmid.carried hc
  obtain ⟨u, hrun, hcu, hwu⟩ := t.run_exit helpers exit id (m + 1) label more
  generalize hcpu : (s.world.memory.bare.run (p.effect (s.context.cpu.goto eip))).1 = cpu at hstep
  have hcontext : t.context = contextAfter s.context p.instruction cpu := hcpu ▸ hc.context
  have heip : (exit.goal? t.context.cpu.flags).getD t.context.cpu.eip = cpu.eip := by
    rw [hcontext, ← hcpu]
    exact Placed.eip_effect_of_exit? hx s.world.memory.bare (s.context.cpu.goto eip) _
  rw [heip] at hcu
  have hpassed : Passed i state l id cpu.eip (m + 1) 0 none t u :=
    passed_of_leave hmid'.coherent hmid'.running hmid'.cycles hcount hcu hwu
  have hjumped (slot : Slot) (hslot : exit.target? slot = some cpu.eip) :
      Left i state l id exit (m + 1) cpu.eip t (.jumped (.exitSlot id slot) u) :=
    .jumped (n := 0) (Nat.succ_pos m) hpassed (hwu ▸ hmid'.isLive) (by rw [hcu]; exact hslot)
  rw [hrun]
  obtain ⟨instruction, next⟩ := p
  cases instruction with
  | jump _ | call _ =>
      cases hx
      exact .after (Guest.steps_one hstep) hc.leaves.shrinks hc.cycles
        (hjumped .first (congrArg some heip))
  | jumpIf cond _ =>
      cases hx
      refine .after (Guest.steps_one hstep) hc.leaves.shrinks hc.cycles (hjumped _ ?_)
      rw [← heip]
      show Exit.target? _ (if cond.holds _ then _ else _) = some (if cond.holds _ then _ else _)
      split
      · rfl
      · rfl
  | ret | jumpReg _ =>
      cases hx
      refine .after (Guest.steps_one hstep) hc.leaves.shrinks hc.cycles ?_
      exact @Left.returned _ _ _ _ _ _ _ _ _ 0 _ .normal (Or.inl rfl) (Nat.succ_pos m) hpassed
  | interrupt _ =>
      cases hx
      refine .callback (n := 1) (Nat.succ_pos m)
        (.stopped hstep hc.leaves.shrinks hc.cycles hpassed) ?_
      rw [hcu, hcontext]
      rfl
  | _ => cases hx

/-- A block that ends before an instruction. -/
theorem left_of_end (hl : l.Sufficient) (hg : src.Gives l seq) {done : List Placed}
    (hseq : seq.instructions = done) (hd : ∀ p ∈ done, p.exit? = none)
    {s : HostState GuardedMemory} (hmid : Midway l id src s) :
    Left i state l id seq.exit done.length (addressAfter src.start done) s
      (s.run helpers none (seq.tail id)) := by
  have hsize := hg.length_le
  have hfollows := hmid.coherent.follows hl hmid.source hg
  rw [hseq, ← List.append_nil done] at hfollows
  have hrest := hfollows.drop hd
  obtain ⟨t, hrun, hc, hw⟩ := s.run_tail helpers seq id
  rw [hrun]
  generalize he : seq.exit = exit at hrest hc
  rw [hseq] at hsize hc
  cases hrest with
  | limit eip =>
      have hpos : 0 < done.length := by
        refine List.length_pos_of_ne_nil fun hnil => ?_
        have := hg.exit_of_nil hl (hseq.trans hnil)
        rw [he] at this
        cases this
      refine .jumped (n := 0) hpos
        (passed_of_leave hmid.coherent hmid.running hmid.cycles hsize hc hw) (hw ▸ hmid.isLive) ?_
      rw [hc]
      rfl
  | interpret h =>
      refine .opcode (n := 0) hsize
        (passed_of_leave hmid.coherent hmid.running hmid.cycles hsize hc hw) ?_
      rw [hw, hc]
      exact h

theorem left_of_hit {exit : Exit} {p : Placed} {done rest : List Placed} {eip : UInt32}
    (hseq : seq.instructions = done ++ p :: rest) (hcount : done.length + 1 ≤ pageSize)
    {s t : HostState GuardedMemory} (hmid : Midway l id src s)
    (hcode : s.world.memory.bare.instruction? l.decoder eip = some p)
    (hc : Carried l p eip s true t) (label : Nat) :
    Left i state l id exit done.length eip s
      (t.run helpers (some (cycleLabel + 1 + writeCount done))
        (bodies label rest ++ seq.tail id)) := by
  have hstep := step_of_carried i state hcode hc
  obtain ⟨heip, hv⟩ := Placed.eip_effect_of_stores (hc.stores rfl) s.world.memory.bare
    (s.context.cpu.goto eip)
  rw [heip, hv] at hstep
  obtain ⟨u, hstub, hcu, hwu⟩ := t.run_stub helpers (hc.stores rfl) hseq label
  rw [hstub]
  refine .after (Guest.steps_one hstep) hc.leaves.shrinks hc.cycles
    (@Left.returned _ _ _ _ _ _ _ _ _ 0 _ .selfModified (Or.inr rfl) (Nat.succ_pos _)
      (passed_of_leave hc.leaves.coherent ?_ ?_ hcount hcu hwu))
  · rw [hc.context]
    exact hmid.running
  · rw [hc.cycles]
    exact hmid.cycles

/-- **The rest of a block goes through the rest of its instructions,** by
induction on them: each either leaves the block or leads to the one after it. -/
theorem left_bodies (hl : l.Sufficient) (hg : src.Gives l seq) (rest : List Placed) :
    ∀ done, seq.instructions = done ++ rest → (∀ p ∈ done, p.exit? = none) →
    ∀ {s : HostState GuardedMemory}, Midway l id src s →
      Left i state l id seq.exit done.length (addressAfter src.start done) s
        (s.run helpers none
          (bodies (cycleLabel + 1 + writeCount done) rest ++ seq.tail id)) := by
  have hsize := hg.length_le
  induction rest with
  | nil =>
      intro done hseq hd s hmid
      rw [List.append_nil] at hseq
      exact left_of_end hl hg hseq hd hmid
  | cons p rest ih =>
      intro done hseq hd s hmid
      have hfollows := hmid.coherent.follows hl hmid.source hg
      rw [hseq] at hfollows
      have hrest := hfollows.drop hd
      have hcode : s.world.memory.bare.instruction? l.decoder (addressAfter src.start done) =
          some p := by
        cases hrest with
        | last h _ | next h _ _ => exact h
      obtain ⟨hit, t, hrun, hc⟩ := run_body hmid.coherent p (addressAfter src.start done)
        (cycleLabel + 1 + writeCount done)
        (bodies (if p.instruction.stores then cycleLabel + 1 + writeCount done + 1
          else cycleLabel + 1 + writeCount done) rest ++ seq.tail id)
      have hcount : done.length + 1 ≤ pageSize := by
        rw [hseq, List.length_append, List.length_cons] at hsize
        omega
      rw [bodies, List.append_assoc, hrun]
      cases hit with
      | true => exact left_of_hit hseq hcount hmid hcode hc _
      | false =>
          rw [if_neg Bool.false_ne_true]
          cases hrest with
          | last _ hx =>
              have hlen : seq.instructions.length = done.length + 1 := by
                rw [hseq, List.length_append]
                rfl
              rw [bodies, List.nil_append, Sequence.tail, hlen]
              exact left_of_last hx hcount hmid hcode hc _ _
          | next _ hx _ =>
              have hstep := step_of_carried i state hcode hc
              rw [Placed.eip_effect_of_exit?_none hx, Placed.vector?_of_exit?_none hx] at hstep
              have hrun' := ih (done ++ [p]) (by rw [hseq, List.append_assoc]; rfl)
                (fun q hq => (List.mem_append.mp hq).elim (hd q) fun hq => by
                  rw [List.mem_singleton.mp hq]
                  exact hx) (hmid.carried hc)
              rw [List.length_append, addressAfter_append, add_writeCount_concat] at hrun'
              exact .after (Guest.steps_one hstep) hc.leaves.shrinks hc.cycles hrun'

/-- **Running a block is running the plain machine** from the start of the
block to where the block is left. -/
theorem left_block (hl : l.Sufficient) (hg : src.Gives l seq) {s : HostState GuardedMemory}
    (hs : s.world.Coherent l) (hb : s.world.code.arena.sourceOf id = some src)
    (hcycles : 0 < s.context.cycles.toInt) :
    Left i state l id seq.exit 0 src.start s (s.run helpers none (seq.operations id)) := by
  obtain ⟨t, hrun, hc, hw⟩ := s.run_prologue helpers seq id
  have hpos : ¬s.context.cycles ≤ 0 := not_exhausted_iff.mpr hcycles
  have hmid : Midway l id src t := by
    refine ⟨hw ▸ hs, hw ▸ hb, ?_, ?_⟩
    · rw [hc]
    · rw [hc]
      exact hcycles
  have hguest : guestAt s src.start state = guestAt t src.start state := by
    rw [guestAt, guestAt, hc, hw]
  rw [hrun, if_neg hpos]
  refine .after (k := 0) (congrArg (fun g => (0, g, none)) hguest) (hw ▸ .refl _) (by rw [hc]) ?_
  exact left_bodies hl hg seq.instructions [] rfl (fun _ h => absurd h List.not_mem_nil)
    hmid

end Bodies

end Emulator

end Recompiler
