import Recompiler.Proofs.Emulator.Coherent
import Recompiler.Proofs.Emulator.New

/-!
# No stale code

A host program does what it likes to an emulator, in any order: it compiles and
runs blocks, runs the guest with any interpreter, writes and invalidates memory,
loads images, tears blocks down and links them.  An action on which a rule is
broken ends in that fault, and no action breaks one.  Every block that is
compiled after all that is still what compiling its start now would give.
-/

namespace Recompiler

namespace Emulator

/-- What a host program may do to an emulator. -/
inductive Action : Type 1 where
  | fetch (eip : UInt32)
  | execute (id : BlockId)
  | run {σ : Type} (i : Interpreter σ) (s : σ) (cycles : Int32)
  | write (width : Width) (addr value : UInt32)
  | writeChecked (width : Width) (addr value : UInt32)
  | busWrite (width : Width) (addr value : UInt32)
  | load (addr : UInt32) (bytes : List UInt8)
  | invalidate (start stop : UInt32)
  | discard (id : BlockId)
  | flush
  | restore (cpu : Cpu)
  | link (source : BlockId) (slot : Slot) (target : BlockId)
  | setCpu (cpu : Cpu)
  | setCycles (cycles : Int32)

/-- What an action makes of an emulator, whatever it breaks. -/
def attempt (e : Emulator) : Action → Except Fault Emulator
  | .fetch eip => do
      let (_, e) ← e.fetch eip
      return e
  | .execute id => do
      let (_, _, e) ← e.execute id
      return e
  | .run i s cycles => do
      let (_, _, e) ← e.run i s cycles
      return e
  | .write width addr value => .ok (e.write width addr value).2
  | .writeChecked width addr value => .ok (e.writeChecked width addr value).2
  | .busWrite width addr value => .ok (e.busWrite width addr value)
  | .load addr bytes => .ok (e.load addr bytes)
  | .invalidate start stop => .ok (e.invalidate start stop).2
  | .discard id => e.discard id
  | .flush => .ok e.flush
  | .restore cpu => .ok (e.restore cpu)
  | .link source slot target => e.link source slot target
  | .setCpu cpu => .ok (e.modifyCpu fun _ => cpu)
  | .setCycles cycles => .ok (e.setCycles cycles)

/-- The emulator after an action, which fails if a rule was broken meanwhile. -/
def perform (e : Emulator) (a : Action) : Except Fault Emulator :=
  e.attempt a >>= unbroken

theorem unbroken_eq_ok_iff {e e' : Emulator} :
    e.unbroken = .ok e' ↔ e = e' ∧ e.watches.broken = none := by
  unfold unbroken
  cases e.watches.broken <;> simp

theorem perform_eq_ok_iff {e e' : Emulator} {a : Action} :
    e.perform a = .ok e' ↔ e.attempt a = .ok e' ∧ e'.watches.broken = none := by
  unfold perform
  rw [bind_eq_ok_iff]
  constructor
  · rintro ⟨e₁, ha, hu⟩
    obtain ⟨rfl, hb⟩ := unbroken_eq_ok_iff.mp hu
    exact ⟨ha, hb⟩
  · rintro ⟨ha, hb⟩
    exact ⟨e', ha, unbroken_eq_ok_iff.mpr ⟨rfl, hb⟩⟩

/-- Emulators that come of a new one, of a memory that nothing watches, by
actions that were allowed and did not fail. -/
inductive Reached (allowed : Action → Prop) : Emulator → Prop
  | new {settings : Settings} {memory : Memory} {decoder : Decoder} {e : Emulator}
      (hm : memory.Unwatched) (hn : Emulator.new settings memory decoder = .ok e) :
      Reached allowed e
  | perform {e e' : Emulator} {a : Action} (h : Reached allowed e) (ha : allowed a)
      (hp : e.perform a = .ok e') : Reached allowed e'

def performAll (e : Emulator) (as : List Action) : Except Fault Emulator :=
  as.foldlM perform e

theorem Reached.performAll {allowed : Action → Prop} {as : List Action}
    (ha : ∀ a ∈ as, allowed a) {e e' : Emulator} (h : Reached allowed e)
    (hp : e.performAll as = .ok e') : Reached allowed e' := by
  induction as generalizing e with
  | nil =>
      cases hp
      exact h
  | cons a rest ih =>
      obtain ⟨e₁, h₁, hp⟩ := bind_eq_ok_iff.mp hp
      exact ih (fun x hx => ha x (List.mem_cons_of_mem _ hx))
        (h.perform (ha a List.mem_cons_self) h₁) hp

/-- **Every action leaves compiled code coherent.** -/
theorem Coherent.attempt {e e' : Emulator} {a : Action} (h : e.Coherent)
    (hp : e.attempt a = .ok e') : e'.Coherent := by
  cases a with
  | fetch eip =>
      obtain ⟨⟨f, e₁⟩, hf, hp⟩ := bind_eq_ok_iff.mp hp
      cases hp
      exact h.fetch hf
  | execute id =>
      obtain ⟨⟨code, last, e₁⟩, hx, hp⟩ := bind_eq_ok_iff.mp hp
      cases hp
      exact (h.execute hx).1
  | run i s cycles =>
      obtain ⟨⟨exit, s', e₁⟩, hr, hp⟩ := bind_eq_ok_iff.mp hp
      cases hp
      exact h.run i hr
  | discard id => exact h.discard hp
  | link source slot target => exact h.link hp
  | write width addr value | writeChecked width addr value =>
      cases hp
      exact h.write width addr value
  | busWrite width addr value =>
      cases hp
      exact h.busWrite width addr value
  | load addr bytes =>
      cases hp
      exact h.load addr bytes
  | invalidate start stop =>
      cases hp
      exact h.invalidate start stop
  | flush =>
      cases hp
      exact h.flush
  | restore cpu =>
      cases hp
      exact h.flush.setContext _
  | setCpu cpu =>
      cases hp
      exact h.setContext _
  | setCycles cycles =>
      cases hp
      exact h.setContext _

theorem Coherent.perform {e e' : Emulator} {a : Action} (h : e.Coherent)
    (hp : e.perform a = .ok e') : e'.Coherent :=
  h.attempt (perform_eq_ok_iff.mp hp).1

/-- **No action breaks a rule** that it does not end with. -/
theorem Coherent.perform_eq {e e' : Emulator} {a : Action} (h : e.Coherent)
    (hp : e.attempt a = .ok e') : e.perform a = .ok e' :=
  perform_eq_ok_iff.mpr ⟨hp, (h.attempt hp).guarded.store.indexed.unbroken⟩

/-- Whether all that an action may do to compiled code is to tear some of it
down. -/
def Action.tears : Action → Bool
  | .fetch _ | .run _ _ _ | .link _ _ _ => false
  | _ => true

/-- What such an action leaves of compiled code is as it was. -/
theorem Coherent.shrinks_perform {e e' : Emulator} {a : Action} (h : e.Coherent)
    (ha : a.tears = true) (hp : e.perform a = .ok e') :
    e'.settings = e.settings ∧ e.arena.Shrinks e'.arena := by
  replace hp := (perform_eq_ok_iff.mp hp).1
  cases a with
  | fetch _ | run _ _ _ | link _ _ _ => cases ha
  | execute id =>
      obtain ⟨⟨code, last, e₁⟩, hx, hp⟩ := bind_eq_ok_iff.mp hp
      cases hp
      exact (h.execute hx).2
  | discard id =>
      obtain ⟨code, hcode, hp⟩ := bind_eq_ok_iff.mp hp
      cases hp
      exact ⟨rfl, h.guarded.store.shrinks_discard hcode⟩
  | write width addr value | writeChecked width addr value =>
      cases hp
      exact ⟨rfl, (h.guarded.write width addr value e.running?).shrinks⟩
  | busWrite width addr value =>
      cases hp
      exact ⟨rfl, (h.guarded.write width addr value none).shrinks⟩
  | load addr bytes =>
      cases hp
      exact h.shrinks_load addr bytes
  | invalidate start stop =>
      cases hp
      exact ⟨rfl, (h.guarded.invalidateRange start stop e.running?).shrinks⟩
  | flush | restore _ =>
      cases hp
      exact ⟨rfl, h.guarded.shrinks_flush⟩
  | setCpu _ | setCycles _ =>
      cases hp
      exact ⟨rfl, .refl _⟩

theorem Reached.coherent {allowed : Action → Prop} {e : Emulator} (h : Reached allowed e) :
    e.Coherent := by
  induction h with
  | new hm hn => exact .new hm hn
  | perform _ _ hp ih => exact ih.perform hp

/-- A compiled block is what compiling its start from a page would give. -/
structure UpToDate (e : Emulator) (b : BlockId) (src : Source) (page : Vector UInt8 pageSize) :
    Prop where
  source : e.arena.sourceOf b = some src
  start : pageOf src.start = src.page ∧ offsetOf src.start = src.first
  /-- Its source is what it was when the block was compiled. -/
  unchanged : bytesBetween page src.first src.last = src.bytes
  last : src.last = (Sequence.at page e.limits src.start).last
  compiled : e.arena.CompiledFrom e.limits b page src.start
  fits : (assemble (e.arena.block b).start
    ((Sequence.at page e.limits src.start).operations b)).length ≤ (e.arena.block b).size

/-- What a coherent emulator has compiled is what compiling it now would
give. -/
theorem Coherent.upToDate {e : Emulator} (h : e.Coherent) {b : BlockId}
    (hb : e.arena.isLive b = true) :
    ∃ src page, e.memory.bytes? src.page = some page ∧ e.UpToDate b src page := by
  have hlive : (e.arena.sourceOf b).isSome = true := (h.guarded.store.indexed.live b).symm.trans hb
  obtain ⟨src, hs⟩ := Option.isSome_iff_exists.mp hlive
  obtain ⟨_, old, hold, hlast, hc⟩ := h.guarded.store.translated b src hs
  obtain ⟨page, hpage, hbytes⟩ := h.guarded.current b src hs
  have hl : e.limits.Sufficient := h.settings.sufficient
  have hsame : Sequence.at page e.limits src.start = Sequence.at old e.limits src.start := by
    refine Sequence.at_congr hl ?_
    rw [← hlast, (h.start_eq hs).2, hold, hbytes]
  have hcompiled : e.arena.CompiledFrom e.limits b page src.start := by
    obtain ⟨hk, hp, hcode⟩ := hc
    rw [← hsame] at hk hp hcode
    exact ⟨hk, hp, hcode⟩
  exact ⟨src, page, hpage, hs, h.start_eq hs, hbytes, hlast.trans (by rw [hsame]), hcompiled,
    hcompiled.length_le⟩

/-- **No code is ever stale.**  After any actions, every compiled block is what
compiling its start now would give, and no block's code lies in another's
region. -/
theorem upToDate_of_reached {allowed : Action → Prop} {e : Emulator} (h : Reached allowed e)
    {b : BlockId} (hb : e.arena.isLive b = true) :
    (∃ src page, e.memory.bytes? src.page = some page ∧ e.UpToDate b src page) ∧
      ∀ c, e.arena.isLive c = true → c ≠ b →
        (e.arena.block b).start + (e.arena.block b).size ≤ (e.arena.block c).start ∨
          (e.arena.block c).start + (e.arena.block c).size ≤ (e.arena.block b).start := by
  have hc := h.coherent
  refine ⟨hc.upToDate hb, fun c hlive hne => ?_⟩
  have hsound := hc.guarded.store.toSound
  obtain ⟨hi, htiles, _⟩ := hsound.arranged.tiles
  exact htiles.disjoint (hsound.arranged.mem_regions_of_isLive hsound.linked hb)
    (hsound.arranged.mem_regions_of_isLive hsound.linked hlive) hne.symm

/-- A block compiled anew after its source was overwritten. -/
theorem upToDate_of_overwritten :
    ∃ e, Reached (fun _ => True) e ∧ e.arena.isLive ⟨3⟩ = true ∧
      (∃ src page, e.memory.bytes? src.page = some page ∧ e.UpToDate ⟨3⟩ src page) ∧
      ∀ c, e.arena.isLive c = true → c ≠ ⟨3⟩ →
        (e.arena.block ⟨3⟩).start + (e.arena.block ⟨3⟩).size ≤ (e.arena.block c).start ∨
          (e.arena.block c).start + (e.arena.block c).size ≤ (e.arena.block ⟨3⟩).start := by
  obtain ⟨e, he, hlive⟩ := exists_of_succeeds (p := fun e => e.arena.isLive ⟨3⟩)
    (x := zeroed.performAll [.fetch 0, .write .byte 0 0xC3, .fetch 0]) (by decide +kernel)
  have h : Reached (fun _ => True) e :=
    Reached.performAll (fun _ _ => trivial) (.new unwatched_zeroed new_zeroed) he
  exact ⟨e, h, hlive, upToDate_of_reached h hlive⟩

end Emulator

end Recompiler
