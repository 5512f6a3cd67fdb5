import Recompiler.Proofs.Emulator.Visits

/-!
# Self-modifying code

A guest may write to the code that it is running.  A host program starts compiled
code by itself or lets a run start it, and the code goes from block to block as
exits are linked; a block that writes to its own source leaves behind that very
write, and no other write makes compiled code leave so.
-/

namespace Recompiler

namespace Emulator

/-! ## Behind a write -/

/-- Compiled code was left behind a write of a block: memory and code are what the
write made them, and of the context nothing changed but the instruction pointer and
what the block charged for its instructions up to there; no block is running and the
handle is gone. -/
structure LeftBehind (l : Limits) (src : Source) (s : HostState GuardedMemory) (width : Width)
    (e' : Emulator) : Prop where
  guarded : e'.guarded = (s.world.write width s.address s.value s.context.running?).2
  context : ∃ (seq : Sequence) (n : Nat) (p : Placed), src.Gives l seq ∧
    seq.instructions[n]? = some p ∧ p.instruction.stores = true ∧
    e'.context = { { s.context with cpu := s.context.cpu.goto p.resume }.charge (n + 1) with
      running := noBlock, owner := false }

/-- What a write of a block did: it freed some blocks, and compiled code was left
behind it just if the block itself was among them. -/
structure Heeded (l : Limits) (block : BlockId) (src : Source) (s : HostState GuardedMemory)
    (width : Width) (ids : List BlockId) (left : Prop) (e' : Emulator) : Prop where
  source : s.world.code.arena.sourceOf block = some src
  freed : s.world.Freed (some block) (s.world.memory.changedBy width s.address s.value) ids
    (s.world.write width s.address s.value (some block)).1
    (s.world.write width s.address s.value (some block)).2
  met : block ∈ ids ↔ src.meets (s.world.memory.changedBy width s.address s.value)
  left_iff : left ↔ block ∈ ids
  behind : left → LeftBehind l src s width e'

/-- How compiled code ran from a block on: every block heeds its own writes. -/
structure HeedsWrites (e : Emulator) (id : BlockId) (code : ReturnCode) (last : BlockId)
    (e' : Emulator) : Prop where
  first : (e.visits id).head?.map Visit.block = some id
  /-- The block reported is the one entered last. -/
  last : (e.visits id).getLast?.map Visit.block = some last
  /-- No block is running afterwards. -/
  idle : e'.running? = none
  /-- At every call the block that makes it is the one that is running. -/
  running : ∀ v ∈ e.visits id, ∀ c ∈ v.calls, c.state.context.running? = some v.block ∧
    c.state.world.code.arena.isLive v.block = true
  writes : ∀ before v after, e.visits id = before ++ v :: after →
    ∀ early s width late, v.calls = early ++ ⟨s, .write width⟩ :: late →
      ∃ src freed, Heeded e.limits v.block src s width freed
        (after = [] ∧ late = [] ∧ code = .selfModified) e'
  /-- There is no other way to leave like this. -/
  modified : code = .selfModified → ∃ before v early s width,
    e.visits id = before ++ [v] ∧ v.calls = early ++ [⟨s, .write width⟩]

section Execute

variable {l : Limits} {id : BlockId} {src : Source} {seq : Sequence}
  {early late : List (HelperCall GuardedMemory)} {o : Outcome GuardedMemory}
  {s : HostState GuardedMemory} {width : Width}

/-- A write of a block that heeds its writes. -/
theorem Heeds.heeded (e : Emulator) (hg : src.Gives l seq)
    (h : Heeds l id src seq (early ++ ⟨s, .write width⟩ :: late) o) {t : HostState GuardedMemory}
    {after : List Visit} {code : ReturnCode}
    (ho : ∀ u, o = .returned ReturnCode.selfModified.word u ↔
      after = [] ∧ code = .selfModified ∧ t = u) :
    ∃ freed, Heeded l id src s width freed
      (after = [] ∧ late = [] ∧ code = .selfModified) (e.left t) := by
  have hmid := h.midway (List.mem_append_right _ List.mem_cons_self)
  have hrunning : s.context.running? = some id := hmid.running?
  obtain ⟨freed, hfreed⟩ := hmid.coherent.freed_write width s.address s.value (some id)
  have hhit : s.hits helpers width = true ↔ id ∈ freed := by
    rw [hits_helpers, hrunning, hfreed.hit, List.any_eq_true]
    simp only [decide_eq_true_eq, Option.some.injEq]
    constructor
    · rintro ⟨b, hb, rfl⟩
      exact hb
    · intro hid
      exact ⟨id, hid, rfl⟩
  have hleft : (after = [] ∧ late = [] ∧ code = .selfModified) ↔ s.hits helpers width = true := by
    rw [h.hits_iff]
    constructor
    · rintro ⟨hafter, hlate, hcode⟩
      exact ⟨hlate, t, (ho t).mpr ⟨hafter, hcode, rfl⟩⟩
    · rintro ⟨hlate, u, hu⟩
      obtain ⟨hafter, hcode, _⟩ := (ho u).mp hu
      exact ⟨hafter, hlate, hcode⟩
  refine ⟨freed, hmid.source, hfreed, ?_, hleft.trans hhit, fun hl => ?_⟩
  · rw [hfreed.met]
    constructor
    · rintro ⟨src', hs, hmeets⟩
      cases hs.symm.trans hmid.source
      exact hmeets
    · intro hmeets
      exact ⟨src, hmid.source, hmeets⟩
  · have hreturned := (ho t).mpr ⟨hl.1, hl.2.2, rfl⟩
    rw [hreturned] at h
    obtain ⟨hworld, n, p, hp, hstores, hcontext⟩ := h.behind (hleft.mp hl)
    refine ⟨hworld, seq, n, p, hg, hp, hstores, ?_⟩
    show { t.context with running := noBlock, owner := false } = _
    rw [hcontext]

/-- **Compiled code runs, and every block of it heeds its writes.** -/
theorem Coherent.heedsWrites {e : Emulator} (h : e.Coherent) {id : BlockId}
    (hid : e.arena.isLive id = true) :
    ∃ code last e', e.execute id = .ok (code, last, e') ∧ e.HeedsWrites id code last e' := by
  have htrampoline := h.guarded.store.linked.not_trampoline_of_isLive hid
  obtain ⟨code, t, hchain, ht⟩ := chain_toured h.settings.sufficient
    (e.context.cycles.toInt.toNat + 1) (s := e.entered id) h.guarded hid (Nat.lt_succ_self _)
  have hvisits : e.visits id = chainVisits (e.context.cycles.toInt.toNat + 1) id (e.entered id) := by
    rw [visits, htrampoline, hid]
    rfl
  rw [← hvisits] at ht
  obtain ⟨v, hlast, hrunning, hsize⟩ := ht.last
  refine ⟨code, BlockId.ofWord t.context.running, e.left t,
    execute_of_chain h hid hchain, ?_⟩
  constructor
  · rw [hvisits]
    rfl
  · rw [hlast, hrunning, BlockId.ofWord_word hsize]
    rfl
  · rfl
  · intro v hv c hc
    obtain ⟨before, after, hv⟩ := List.append_of_mem hv
    obtain ⟨src, seq, o, _, hh, _⟩ := ht.heeds before v after hv
    exact ⟨(hh.midway hc).running?, (hh.midway hc).isLive⟩
  · intro before v after hv early s width late hcalls
    obtain ⟨src, seq, o, hg, hh, ho⟩ := ht.heeds before v after hv
    rw [hcalls] at hh
    exact ⟨src, hh.heeded e hg ho⟩
  · intro hcode
    obtain ⟨before, hv⟩ := List.getLast?_eq_some_iff.mp hlast
    obtain ⟨src, seq, o, _, hh, ho⟩ := ht.heeds before v [] hv
    rw [(ho t).mpr ⟨rfl, hcode, rfl⟩] at hh
    obtain ⟨early, s, width, hcalls⟩ := hh.exists_write
    exact ⟨before, v, early, s, width, hv, hcalls⟩

end Execute

/-! ## Where compiled code is started -/

def turnEntries (e : Emulator) (pending : Option PendingLink) : List (Emulator × BlockId) :=
  match e.fetch e.cpu.eip with
  | .error _ => []
  | .ok (fetched, e) =>
      match fetched.block? with
      | none => []
      | some id =>
          match e.settle pending id with
          | .error _ => []
          | .ok e => [(e, id)]

def turnsEntries {σ : Type} (i : Interpreter σ) :
    Nat → σ → Emulator → Option PendingLink → List (Emulator × BlockId)
  | 0, _, _, _ => []
  | fuel + 1, s, e, pending =>
      if e.context.cycles ≤ 0 then []
      else
        e.turnEntries pending ++
          match e.turn i s pending with
          | .ok (.go s e pending) => turnsEntries i fuel s e pending
          | _ => []

/-- Where an action starts compiled code: the emulator that it finds, and the block
that it is started from. -/
def entries (e : Emulator) : Action → List (Emulator × BlockId)
  | .execute id => if e.arena.isLive id then [(e, id)] else []
  | .run i s cycles => turnsEntries i cycles.toInt.toNat s (e.setCycles cycles) none
  | _ => []

/-- Compiled code can be started from a live block of a coherent emulator. -/
structure Startable (e : Emulator) (id : BlockId) : Prop where
  coherent : e.Coherent
  live : e.arena.isLive id = true

theorem isLive_settle {e e' : Emulator} {pending : Option PendingLink} {id : BlockId}
    (hs : e.settle pending id = .ok e') (b : BlockId) : e'.arena.isLive b = e.arena.isLive b := by
  unfold settle at hs
  cases pending with
  | none =>
      cases hs
      rfl
  | some p =>
      simp only at hs
      split at hs
      · obtain ⟨a, hl, hs⟩ := bind_eq_ok_iff.mp hs
        cases hs
        exact ((Arena.Alike.link hl).isLive b).symm
      · cases hs
        rfl

variable {e e₁ : Emulator} {id : BlockId}

theorem startable_of_turnEntries (h : e.Coherent) {pending : Option PendingLink}
    (hx : (e₁, id) ∈ e.turnEntries pending) : e₁.Startable id := by
  unfold turnEntries at hx
  rcases fetch_spec h e.cpu.eip with ⟨hf, _⟩ | ⟨f, b, e₂, hf, hb, hfound, _⟩ | hf
  · simp only [hf] at hx
    cases hx
  · simp only [hf, hb] at hx
    obtain ⟨src, hsource, _⟩ := hfound.source
    cases hs : e₂.settle pending b with
    | error _ =>
        simp only [hs] at hx
        cases hx
    | ok e₃ =>
        simp only [hs] at hx
        cases List.mem_singleton.mp hx
        refine ⟨hfound.coherent.settle hs, ?_⟩
        rw [isLive_settle hs]
        exact hfound.coherent.guarded.store.isLive_of_source hsource
  · simp only [hf] at hx
    cases hx

/-- Turns start compiled code from live blocks, by induction on their number. -/
theorem startable_of_turnsEntries {σ : Type} (i : Interpreter σ) (fuel : Nat) {s : σ}
    (h : e.Coherent) {pending : Option PendingLink}
    (hx : (e₁, id) ∈ turnsEntries i fuel s e pending) : e₁.Startable id := by
  induction fuel generalizing e s pending with
  | zero => cases hx
  | succ fuel ih =>
      rw [turnsEntries] at hx
      by_cases hc : e.context.cycles ≤ 0
      · rw [if_pos hc] at hx
        cases hx
      · rw [if_neg hc] at hx
        rcases List.mem_append.mp hx with hx | hx
        · exact startable_of_turnEntries h hx
        · cases ht : e.turn i s pending with
          | error _ =>
              rw [ht] at hx
              cases hx
          | ok t =>
              have h' := h.turn i ht
              rw [ht] at hx
              cases t with
              | go s' e' pending' => exact ih h' hx
              | stop _ _ _ => cases hx

theorem startable_of_entries (h : e.Coherent) {a : Action} (hx : (e₁, id) ∈ e.entries a) :
    e₁.Startable id := by
  cases a with
  | execute b =>
      cases hb : e.arena.isLive b with
      | false =>
          rw [entries, hb] at hx
          cases hx
      | true =>
          rw [entries, hb] at hx
          cases List.mem_singleton.mp hx
          exact ⟨h, hb⟩
  | run i s cycles => exact startable_of_turnsEntries i _ (h.setContext _) hx
  | _ => cases hx

/-- **Compiled code leaves exactly behind the writes that free the block that makes
them.**  Wherever it is started, it runs from block to block until it returns.  Every
call that it makes is one of the block that is running, which is compiled.  A write
frees the blocks whose source lies at an address that it changes, and the code returns
behind the write, and for that reason, just if the block itself is among them: what
other blocks the write frees has no part in it.  The block reported is the one
entered last, and afterwards no block is running. -/
theorem heedsWrites_of_visited (h : Visited e) {a : Action} (hx : (e₁, id) ∈ e.entries a) :
    ∃ code last e', e₁.execute id = .ok (code, last, e') ∧ e₁.HeedsWrites id code last e' := by
  have hstart := startable_of_entries h.coherent hx
  exact hstart.coherent.heedsWrites hstart.live

/-- Two blocks that a run has linked; the second writes over the first, goes on, and
writes over itself. -/
theorem heedsWrites_of_linked_blocks :
    ∃ e e₁, Visited e ∧ (e₁, ⟨2⟩) ∈ e.entries (.run stepper () 10) ∧
      (e₁.visits ⟨2⟩).map Visit.block = [⟨2⟩, ⟨3⟩] ∧
      ∃ e', e₁.execute ⟨2⟩ = .ok (.selfModified, ⟨3⟩, e') ∧
        e₁.HeedsWrites ⟨2⟩ .selfModified ⟨3⟩ e' := by
  obtain ⟨e, he, htest⟩ := exists_of_succeeds
    (x := zeroed.performAll [.load 0 [0x40, 0xEB, 0x35],
      .load 0x38 [0x88, 0x05, 0, 0, 0, 0, 0x88, 0x05, 0x40, 0, 0, 0, 0xEB, 0xBA],
      .setCpu (Cpu.setReg { eip := 0 } .eax 0x3F)])
    (p := fun e => (e.entries (.run stepper () 10)).any fun x => x.2 = ⟨2⟩ &&
      (x.1.visits ⟨2⟩).map Visit.block = [⟨2⟩, ⟨3⟩] &&
        succeeds (x.1.execute ⟨2⟩) fun r => r.1 = .selfModified && r.2.1 = ⟨3⟩)
    (by decide +kernel)
  obtain ⟨⟨e₁, id⟩, hx, htest⟩ := List.any_eq_true.mp htest
  simp only [Bool.and_eq_true, decide_eq_true_eq] at htest
  obtain ⟨⟨rfl, hblocks⟩, hreturned⟩ := htest
  have h : Reached (fun _ => True) e :=
    .performAll (fun _ _ => trivial) (.new unwatched_zeroed new_zeroed) he
  obtain ⟨code, last, e', hexecute, hheeds⟩ := heedsWrites_of_visited h.visited hx
  obtain ⟨⟨code', last', e''⟩, hok, hend⟩ := exists_of_succeeds hreturned
  rw [Bool.and_eq_true, decide_eq_true_iff, decide_eq_true_iff] at hend
  obtain ⟨rfl, rfl⟩ := hend
  cases hok.symm.trans hexecute
  exact ⟨e, e₁, h.visited, hx, hblocks, e', hexecute, hheeds⟩

end Emulator

end Recompiler
