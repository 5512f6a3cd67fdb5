import Recompiler.Proofs.Emulator.Chain

/-!
# Turns of the dispatcher

A turn goes through the plain machine's instructions from where the guest is:
those of a chain of blocks, one of the interpreter's, or both.  The exit it
leaves pending is linked in the next turn to the block at the address it goes on
at, unless its block was compiled anew meanwhile; so linked exits always lead
where the guest goes on.
-/

namespace Recompiler

def RunEnd.of : Option Stop → RunEnd
  | none => .outOfCycles
  | some .halted => .halted
  | some (.interrupt v) => .interrupt v

namespace Emulator

variable {σ : Type}

def guest (e : Emulator) (state : σ) : Guest σ where
  cpu := e.cpu
  callback := e.context.callback
  memory := e.memory.bare
  interpreter := state

/-- The guest went through `n` instructions, and each was charged for. -/
structure Goes (i : Interpreter σ) (n : Nat) (stop : Option Stop) (s : σ) (e : Emulator) (s' : σ)
    (e' : Emulator) : Prop where
  settings : e'.settings = e.settings
  steps : (e.guest s).steps e.settings.decoder i n = (n, e'.guest s', stop)
  cycles : e'.context.cycles.toInt = e.context.cycles.toInt - n

section Goes

variable {i : Interpreter σ} {s s₁ s' : σ} {e e₁ e' : Emulator}

theorem Goes.zero (hs : e'.settings = e.settings) (hc : e'.context = e.context)
    (hm : e'.memory.bare = e.memory.bare) : Goes i 0 none s e s e' := by
  refine ⟨hs, ?_, by rw [hc]; exact (Int.sub_zero _).symm⟩
  rw [Guest.steps, guest, guest, cpu, cpu, hc, hm]

theorem Goes.trans {m n : Nat} {stop : Option Stop} (h : Goes i m none s e s₁ e₁)
    (h' : Goes i n stop s₁ e₁ s' e') : Goes i (m + n) stop s e s' e' := by
  refine ⟨h'.settings.trans h.settings, Guest.steps_add h.steps (h.settings ▸ h'.steps), ?_⟩
  rw [h'.cycles, h.cycles]
  omega

end Goes

/-- A pending exit goes on at the address of the CPU. -/
def Awaits (e : Emulator) (pending : Option PendingLink) : Prop :=
  ∀ p, pending = some p → (e.arena.block p.block).generation = p.generation ∧
    e.arena.Exits e.limits p.block p.slot e.cpu.eip

theorem awaits_none (e : Emulator) : e.Awaits none := nofun

/-- What a turn of the dispatcher does, to an emulator and to the guest it
shows. -/
inductive Turned (i : Interpreter σ) (s : σ) (e : Emulator) : Turn σ → Prop
  | go {s' : σ} {e' : Emulator} {pending : Option PendingLink} (hs : e'.Sound)
      (ha : e'.Awaits pending)
      (hg : ¬e.Refuses e.cpu.eip → ∃ n, 0 < n ∧ Goes i n none s e s' e') :
      Turned i s e (.go s' e' pending)
  | stop {s' : σ} {e' : Emulator} {why : Stop} (hs : e'.Sound)
      (hg : ¬e.Refuses e.cpu.eip → ∃ n, 0 < n ∧ Goes i n (some why) s e s' e') :
      Turned i s e (.stop (.of (some why)) s' e')

/-! ## The interpreter -/

theorem Barred.instruction? {e : Emulator} {eip : UInt32} (h : e.Barred eip) :
    e.memory.bare.instruction? e.settings.decoder eip = none := by
  unfold Memory.instruction?
  rw [Memory.isNoCode_bare]
  rcases h with h | h
  · split
    · rfl
    · rw [Memory.bytes?_bare, Memory.bytes?_eq_none_of_not_contains h]
      rfl
  · rw [if_pos h]

/-- The interpreter may tear compiled code down, as any device may. -/
theorem leaves_interpret {e : Emulator} (h : e.Coherent) (i : Interpreter σ) (s : σ) :
    (e.interpret i s).2.2.Coherent ∧ e.arena.Shrinks (e.interpret i s).2.2.arena := by
  obtain ⟨_, _, hleaves⟩ := GuardedMemory.Coherent.run (i.step s e.cpu) h.guarded
  exact ⟨h.interpret i s, hleaves.shrinks.trans (.count _ fun c =>
    { c with interpreted := c.interpreted + 1 })⟩

theorem Sound.interpret {e : Emulator} (h : e.Sound) (i : Interpreter σ) (s : σ) :
    (e.interpret i s).2.2.Sound := by
  obtain ⟨hc, hs⟩ := leaves_interpret h.coherent i s
  exact ⟨hc, h.threaded.shrinks hs hc.guarded.store.linked⟩

theorem cycles_interpret {e : Emulator} (i : Interpreter σ) (s : σ)
    (hlow : -(pageSize : Int) < e.context.cycles.toInt) :
    (e.interpret i s).2.2.context.cycles.toInt = e.context.cycles.toInt - 1 := by
  have hone : (1 : Int32).toInt = 1 := rfl
  show (e.context.cycles - 1).toInt = _
  rw [Int32.toInt_sub, hone]
  have hlt := e.context.cycles.toInt_lt
  simp only [pageSize] at hlow
  exact Int.bmod_eq_of_le (by omega) (by omega)

/-- **An instruction of the interpreter's** is one step of the plain machine. -/
theorem goes_interpret {e : Emulator} (h : e.Sound) (i : Interpreter σ) (s : σ)
    (hi : e.memory.bare.instruction? e.settings.decoder e.cpu.eip = none)
    (hlow : -(pageSize : Int) < e.context.cycles.toInt) :
    Goes i 1 (if (e.interpret i s).1 = .halt then some .halted else none) s e
      (e.interpret i s).2.1 (e.interpret i s).2.2 := by
  obtain ⟨hresult, hmemory, _⟩ := GuardedMemory.Coherent.run (i.step s e.cpu) h.coherent.guarded
  refine ⟨rfl, Guest.steps_one ?_, cycles_interpret i s hlow⟩
  have hstep : (e.guest s).memory.run (i.step (e.guest s).interpreter (e.guest s).cpu) =
      ((e.guarded.run (i.step s e.cpu)).1, (e.guarded.run (i.step s e.cpu)).2.memory.bare) :=
    (Prod.ext hresult hmemory).symm
  unfold Guest.step
  rw [show (e.guest s).memory.instruction? e.settings.decoder (e.guest s).cpu.eip = none from hi]
  simp only
  rw [hstep]
  unfold Emulator.interpret
  obtain ⟨⟨⟨s', c, outcome⟩, g⟩, hr⟩ : ∃ r, r = e.guarded.run (i.step s e.cpu) := ⟨_, rfl⟩
  rw [← hr]
  cases outcome <;> rfl

/-- The turn after an instruction of the interpreter's, which the guest came to
without a stop. -/
theorem turned_interpreted {e e₁ : Emulator} {i : Interpreter σ} {s : σ} (h : e₁.Sound)
    (hg : ¬e.Refuses e.cpu.eip → ∃ n, Goes i n none s e s e₁ ∧
      e₁.memory.bare.instruction? e₁.settings.decoder e₁.cpu.eip = none ∧
        -(pageSize : Int) < e₁.context.cycles.toInt) :
    Turned i s e (turn.interpreted i s e₁) := by
  have hsound := h.interpret i s
  have hgoes : ¬e.Refuses e.cpu.eip → ∃ n, 0 < n ∧
      Goes i n (if (e₁.interpret i s).1 = .halt then some .halted else none) s e
        (e₁.interpret i s).2.1 (e₁.interpret i s).2.2 := fun hr => by
    obtain ⟨n, hn, hi, hlow⟩ := hg hr
    exact ⟨n + 1, Nat.succ_pos n, hn.trans (goes_interpret h i s hi hlow)⟩
  unfold turn.interpreted
  split
  · next he =>
      rw [he] at hsound hgoes
      exact .stop hsound hgoes
  · next he =>
      rw [he] at hsound hgoes
      exact .go hsound (awaits_none _) hgoes

/-! ## A chain of blocks -/

/-- Linking what is pending links an exit to the block at the address it goes
on at, or does nothing. -/
theorem Found.settle {e e₁ : Emulator} {pending : Option PendingLink} (ha : e.Awaits pending)
    {id : BlockId} (hf : e.Found e.cpu.eip id e₁) :
    e₁.settle pending id = .ok e₁ ∨ ∃ (p : PendingLink) (src : Source) (a : Arena),
      e₁.arena.sourceOf id = some src ∧ e₁.arena.Exits e₁.limits p.block p.slot src.start ∧
        e₁.arena.link p.block p.slot id = .ok a ∧
          e₁.settle pending id = .ok (e₁.modifyArena fun _ => a) := by
  unfold Emulator.settle
  split
  · exact Or.inl rfl
  · next p =>
      split
      · next hp =>
          rw [Bool.and_eq_true, decide_eq_true_iff] at hp
          obtain ⟨hgeneration, hx⟩ := ha p rfl
          -- A look-up that compiled over the block left gave it another generation.
          have hx₁ := hf.exits hp.1 (hp.2.trans hgeneration.symm) hx
          obtain ⟨src, hs, heip⟩ := hf.source
          rw [← heip] at hx₁
          have hlive : e₁.arena.isLive id = true := hf.coherent.guarded.store.isLive_of_source hs
          obtain ⟨a, hlink⟩ := Arena.link_ok (Or.inr hlive) (hf.coherent.index_lt_of_exits hx₁)
          refine Or.inr ⟨p, src, a, hs, hx₁, hlink, ?_⟩
          unfold Emulator.link
          rw [hlink]
          rfl
      · exact Or.inl rfl

/-- **Linking what is pending** to the block at the address of the CPU. -/
theorem Sound.settle {e e₁ : Emulator} (h : e.Sound) {pending : Option PendingLink}
    (ha : e.Awaits pending) {id : BlockId} (hf : e.Found e.cpu.eip id e₁) :
    ∃ a, e₁.settle pending id = .ok (e₁.modifyArena fun _ => a) ∧
      (e₁.modifyArena fun _ => a).Sound ∧ a.sourceOf id = e₁.arena.sourceOf id := by
  have h₁ := h.found hf
  rcases hf.settle ha with hnone | ⟨p, src, a, hs, hx, hlink, hsettle⟩
  · exact ⟨e₁.arena, hnone, h₁, rfl⟩
  · refine ⟨a, hsettle, ⟨⟨h₁.coherent.settings, h₁.coherent.guarded.link hlink⟩, ?_⟩,
      Arena.sourceOf_eq_of_core ((Arena.Alike.link hlink).core id).symm⟩
    exact h₁.threaded.link h₁.linked (h₁.coherent.guarded.store.isLive_of_source hs) hs hx hlink

/-- The exit compiled code is left through is one that the block entered last
has. -/
theorem Chained.awaits {i : Interpreter σ} {s : σ} {e : Emulator} {id : BlockId} {slot : Slot}
    {t : HostState GuardedMemory} (h : Chained i s e.limits id (e.entered id) (.ofSlot slot) t)
    (he : e.Coherent) :
    (e.left t).Awaits (some ⟨BlockId.ofWord t.context.running, slot,
      ((e.left t).arena.block (BlockId.ofWord t.context.running)).generation⟩) := by
  obtain ⟨hc, _, hlast⟩ := h.leaves he.guarded
  obtain ⟨last, hrunning, hlive, hexits⟩ := hlast slot rfl
  have hsize : last.number < UInt32.size :=
    Nat.lt_trans (Arena.lt_capacity_of_isLive hlive) hc.store.ids
  intro p hp
  rw [hrunning, BlockId.ofWord_word hsize] at hp
  cases hp
  exact ⟨rfl, hexits⟩

/-- **Running compiled code** from the block at the address of the CPU on. -/
theorem Sound.execute {e : Emulator} (h : e.Sound) (i : Interpreter σ) (s : σ) {id : BlockId}
    {src : Source} (hs : e.arena.sourceOf id = some src) (heip : src.start = e.cpu.eip) :
    ∃ code t, e.execute id = .ok (code, BlockId.ofWord t.context.running, e.left t) ∧
      Returned i s e.limits e.cpu.eip (e.entered id) code t := by
  have hstore := h.coherent.guarded.store
  have hlive := hstore.isLive_of_source hs
  obtain ⟨code, t, hchain, hreturned⟩ := chain_spec i s h.coherent.settings.sufficient
    (e.context.cycles.toInt.toNat + 1) (s := e.entered id) h.coherent.guarded h.threaded hs heip
    (Nat.lt_succ_self _)
  rw [heip] at hreturned
  exact ⟨code, t, execute_of_chain h.coherent hlive hchain, hreturned⟩

section Passed

variable {i : Interpreter σ} {s : σ} {e : Emulator} {id last : BlockId} {n : Nat}
  {stop : Option Stop} {t : HostState GuardedMemory}

theorem Sound.left (h : e.Sound)
    (hp : Passed i s e.limits last e.cpu.eip n n stop (e.entered id) t) : (e.left t).Sound :=
  (h.leaves hp.coherent hp.shrinks).setContext _

theorem Passed.goes (hp : Passed i s e.limits last e.cpu.eip n n stop (e.entered id) t) :
    Goes i n stop s e s (e.left t) :=
  ⟨rfl, hp.steps, hp.cycles⟩

end Passed

/-! ## Turns -/

def answered (i : Interpreter σ) (s : σ) (last : BlockId) (e : Emulator) : ReturnCode → Turn σ
  | .normal | .cycles | .selfModified => .go s e none
  | .firstExit => .go s e (some ⟨last, .first, (e.arena.block last).generation⟩)
  | .secondExit => .go s e (some ⟨last, .second, (e.arena.block last).generation⟩)
  | .opcode => turn.interpreted i s e
  | .callback => .stop (.interrupt e.context.callback.toUInt8) s e

theorem answered_ofSlot (i : Interpreter σ) (s : σ) (last : BlockId) (e : Emulator) (slot : Slot) :
    answered i s last e (.ofSlot slot) =
      .go s e (some ⟨last, slot, (e.arena.block last).generation⟩) := by
  cases slot <;> rfl

theorem turn_of_interpret {e e₁ : Emulator} (i : Interpreter σ) (s : σ)
    {pending : Option PendingLink} {f : Fetched} (hf : e.fetch e.cpu.eip = .ok (f, e₁))
    (hid : f.block? = none) : e.turn i s pending = .ok (turn.interpreted i s e₁) := by
  unfold turn
  rw [hf]
  simp only [bind, Except.bind, hid]
  rfl

theorem turn_of_error {e : Emulator} (i : Interpreter σ) (s : σ) {pending : Option PendingLink}
    {fault : Fault} (hf : e.fetch e.cpu.eip = .error fault) :
    e.turn i s pending = .error fault := by
  unfold turn
  rw [hf]
  rfl

theorem turn_eq {e e₁ e₂ e₃ : Emulator} (i : Interpreter σ) (s : σ) {pending : Option PendingLink}
    {f : Fetched} {id last : BlockId} {code : ReturnCode} (hf : e.fetch e.cpu.eip = .ok (f, e₁))
    (hid : f.block? = some id) (hs : e₁.settle pending id = .ok e₂)
    (hx : e₂.execute id = .ok (code, last, e₃)) :
    e.turn i s pending = .ok (answered i s last e₃ code) := by
  unfold turn
  rw [hf]
  simp only [bind, Except.bind, hid]
  rw [hs]
  simp only
  rw [hx]
  cases code <;> rfl

/-- What compiled code returns with, the dispatcher goes on from. -/
theorem turned_answered {e e₂ : Emulator} {i : Interpreter σ} {s : σ} (h : e₂.Sound)
    (hz : Goes i 0 none s e s e₂) (hc : 0 < e.context.cycles.toInt) {id : BlockId}
    {code : ReturnCode} {t : HostState GuardedMemory}
    (hr : Returned i s e₂.limits e₂.cpu.eip (e₂.entered id) code t) :
    Turned i s e (answered i s (BlockId.ofWord t.context.running) (e₂.left t) code) := by
  have hgoes : ∀ {last n stop}, Passed i s e₂.limits last e₂.cpu.eip n n stop (e₂.entered id) t →
      Goes i n stop s e s (e₂.left t) := fun hp => by
    have := hz.trans hp.goes
    rwa [Nat.zero_add] at this
  cases hr with
  | @exhausted last n _ hp hend =>
      refine .go (h.left hp) (awaits_none _) fun _ => ⟨n, Nat.pos_of_ne_zero fun hn => ?_, hgoes hp⟩
      have hcycles := (hgoes hp).cycles
      rw [Int32.le_iff_toInt_le] at hend
      have hzero : (0 : Int32).toInt = 0 := rfl
      rw [hn] at hcycles
      have : (e₂.left t).context.cycles = t.context.cycles := rfl
      rw [this] at hcycles
      omega
  | resumed hcode hn hp =>
      rcases hcode with rfl | rfl
      · exact .go (h.left hp) (awaits_none _) fun _ => ⟨_, hn, hgoes hp⟩
      · exact .go (h.left hp) (awaits_none _) fun _ => ⟨_, hn, hgoes hp⟩
  | @unlinked last n _ slot hn hp hlive hx =>
      have hsize : last.number < UInt32.size :=
        Nat.lt_trans (Arena.lt_capacity_of_isLive hlive) hp.coherent.store.ids
      rw [answered_ofSlot, hp.running, BlockId.ofWord_word hsize]
      refine .go (h.left hp) ?_ fun _ => ⟨n, hn, hgoes hp⟩
      intro p hpending
      cases hpending
      exact ⟨rfl, hx⟩
  | opcode hp hlow hi => exact turned_interpreted (h.left hp) fun _ => ⟨_, hgoes hp, hi, hlow⟩
  | @callback last n _ v hn hp hv =>
      have hvector : t.context.callback.toUInt8 = v := by
        rw [hv]
        simp
      show Turned i s e (.stop (.interrupt t.context.callback.toUInt8) s (e₂.left t))
      rw [hvector]
      exact @Turned.stop _ i s e _ _ (.interrupt v) (h.left hp) fun _ => ⟨n, hn, hgoes hp⟩

/-- **A turn of the dispatcher** goes through the plain machine's instructions,
or finds no descriptor left. -/
theorem turn_spec {e : Emulator} (h : e.Sound) (i : Interpreter σ) (s : σ)
    {pending : Option PendingLink} (ha : e.Awaits pending) (hc : 0 < e.context.cycles.toInt) :
    e.turn i s pending = .error (.descriptorsExhausted e.arena.capacity) ∨
      ∃ t, e.turn i s pending = .ok t ∧ Turned i s e t := by
  rcases fetch_spec h.coherent e.cpu.eip with ⟨hf, hb⟩ | ⟨f, id, e₁, hf, hid, hfound, _⟩ | hf
  · refine Or.inr ⟨_, turn_of_interpret i s hf rfl, turned_interpreted h fun hr => ?_⟩
    refine ⟨0, .zero rfl rfl rfl, (hb.resolve_right hr).instruction?, ?_⟩
    simp only [pageSize]
    omega
  · obtain ⟨a, hsettle, h₂, hsource⟩ := h.settle ha hfound
    obtain ⟨src, hs, heip⟩ := hfound.source
    obtain ⟨code, t, hx, hreturned⟩ := h₂.execute i s (hsource.trans hs)
      (heip.trans (congrArg (·.cpu.eip) hfound.context.symm))
    exact Or.inr ⟨_, turn_eq i s hf hid hsettle hx,
      turned_answered h₂ (.zero hfound.settings hfound.context hfound.bare) hc hreturned⟩
  · exact Or.inl (turn_of_error i s hf)

end Emulator

end Recompiler
