import Recompiler.Emulator.Run
import Recompiler.Proofs.Emulator.Fetch
import Recompiler.Proofs.Host.Run

/-!
# Operations on a coherent emulator

Whatever a host program does to an emulator, and whatever a run of the guest
does, compiled code stays the translation of what memory holds.
-/

namespace Recompiler

namespace Emulator

namespace Coherent

variable {e : Emulator} (h : e.Coherent)

include h

theorem setGuarded {g : GuardedMemory} (hg : g.Coherent e.limits) :
    ({ e with guarded := g } : Emulator).Coherent :=
  ⟨h.settings, hg⟩

theorem setContext (context : Context) : ({ e with context } : Emulator).Coherent :=
  ⟨h.settings, h.guarded⟩

theorem write (width : Width) (addr value : UInt32) : (e.write width addr value).2.Coherent :=
  h.setGuarded (h.guarded.write width addr value e.running?).coherent

theorem busWrite (width : Width) (addr value : UInt32) : (e.busWrite width addr value).Coherent :=
  h.setGuarded (h.guarded.write width addr value none).coherent

theorem invalidate (start stop : UInt32) : (e.invalidate start stop).2.Coherent :=
  h.setGuarded (h.guarded.invalidateRange start stop e.running?).coherent

theorem flush : e.flush.Coherent := h.setGuarded h.guarded.flush

theorem discard {id : BlockId} {e' : Emulator} (hd : e.discard id = .ok e') : e'.Coherent := by
  obtain ⟨code, hcode, he⟩ := bind_eq_ok_iff.mp hd
  cases he
  exact h.setGuarded (h.guarded.discard hcode)

theorem link {source target : BlockId} {slot : Slot} {e' : Emulator}
    (hl : e.link source slot target = .ok e') : e'.Coherent := by
  obtain ⟨a, ha, he⟩ := bind_eq_ok_iff.mp hl
  cases he
  exact h.setGuarded (h.guarded.link ha)

omit h in
theorem load {e : Emulator} (h : e.Coherent) (addr : UInt32) (bytes : List UInt8) :
    (e.load addr bytes).Coherent := by
  induction bytes generalizing e addr with
  | nil => exact h
  | cons b rest ih => exact ih (h.write .byte addr b.toUInt32) (addr + 1)

theorem shrinks_load (addr : UInt32) (bytes : List UInt8) :
    (e.load addr bytes).settings = e.settings ∧ e.arena.Shrinks (e.load addr bytes).arena := by
  induction bytes generalizing e addr with
  | nil => exact ⟨rfl, .refl _⟩
  | cons b rest ih =>
      obtain ⟨hsettings, hrest⟩ := ih (h.write .byte addr b.toUInt32) (addr + 1)
      have hwrite := (h.guarded.write .byte addr b.toUInt32 e.running?).shrinks
      exact ⟨hsettings, hwrite.trans hrest⟩

end Coherent

/-! ## Compiled code -/

/-- What every write keeps, a chain of blocks keeps. -/
theorem chain_induction {P : GuardedMemory → Prop}
    (hw : ∀ g running width addr value, P g → P (g.write width addr value running).2)
    (fuel : Nat) {id : BlockId} {s s' : HostState GuardedMemory} {code : UInt32}
    (hs : P s.world) (hc : chain fuel id s = .ok (code, s')) : P s'.world := by
  induction fuel generalizing id s with
  | zero => cases hc
  | succ fuel ih =>
      have hblock := HostState.endsIn_run (h := helpers)
        (fun g _ width addr value => hw g _ width addr value) hs none
        (s.world.code.arena.block id).program
      unfold chain at hc
      split at hc
      · next hrun =>
          rw [hrun] at hblock
          cases hc
          exact hblock
      · next hrun =>
          rw [hrun] at hblock
          split at hc
          · cases hc
            exact hblock
          · exact ih hblock hc
          · cases hc
      · cases hc

theorem leaves_write {l : Limits} {g g' : GuardedMemory}
    (h : GuardedMemory.Leaves l none g false g') (running : Option BlockId) (width : Width)
    (addr value : UInt32) :
    GuardedMemory.Leaves l none g false (g'.write width addr value running).2 := by
  have hw := h.coherent.write width addr value running
  exact ⟨hw.coherent, h.shrinks.trans hw.shrinks, nofun⟩

theorem leaves_block {l : Limits} {s : HostState GuardedMemory} (hs : s.world.Coherent l)
    (ops : List Operation) :
    (s.run helpers none ops).EndsIn (GuardedMemory.Leaves l none s.world false) :=
  HostState.endsIn_run (P := GuardedMemory.Leaves l none s.world false)
    (fun _ _ width addr value h => leaves_write h _ width addr value) (.refl hs _) none ops

theorem leaves_chain {l : Limits} (fuel : Nat) {id : BlockId} {s s' : HostState GuardedMemory}
    {code : UInt32} (hs : s.world.Coherent l) (hc : chain fuel id s = .ok (code, s')) :
    GuardedMemory.Leaves l none s.world false s'.world :=
  chain_induction (P := GuardedMemory.Leaves l none s.world false)
    (fun _ running width addr value h => leaves_write h running width addr value) fuel
    (.refl hs _) hc

theorem Coherent.execute {e : Emulator} (h : e.Coherent) {id last : BlockId} {code : ReturnCode}
    {e' : Emulator} (hx : e.execute id = .ok (code, last, e')) :
    e'.Coherent ∧ e'.settings = e.settings ∧ e.arena.Shrinks e'.arena := by
  obtain ⟨_, word, s, hc, _, _, _, rfl⟩ := of_execute_ok hx
  have hs := leaves_chain _ h.guarded hc
  exact ⟨(h.setGuarded hs.coherent).setContext _, rfl, hs.shrinks⟩

/-! ## The dispatcher -/

section Run

variable {σ : Type} (i : Interpreter σ)

theorem Coherent.interpret {e : Emulator} (h : e.Coherent) (s : σ) :
    (e.interpret i s).2.2.Coherent :=
  ((h.setGuarded (GuardedMemory.Coherent.run _ h.guarded).2.2.coherent).setContext _).count _

theorem Coherent.settle {e e' : Emulator} (h : e.Coherent) {pending : Option PendingLink}
    {id : BlockId} (hs : e.settle pending id = .ok e') : e'.Coherent := by
  unfold Emulator.settle at hs
  split at hs
  · cases hs
    exact h
  · split at hs
    · exact h.link hs
    · cases hs
      exact h

def Turn.emulator {σ : Type} : Turn σ → Emulator
  | go _ e _ => e
  | stop _ _ e => e

theorem Coherent.interpreted {e : Emulator} (h : e.Coherent) (s : σ) :
    (turn.interpreted i s e).emulator.Coherent := by
  have hi := h.interpret i s
  unfold turn.interpreted
  split
  · next he =>
      rw [he] at hi
      exact hi
  · next he =>
      rw [he] at hi
      exact hi

/-- **A turn of the dispatcher leaves compiled code coherent.** -/
theorem Coherent.turn {e : Emulator} (h : e.Coherent) {s : σ} {pending : Option PendingLink}
    {t : Turn σ} (ht : e.turn i s pending = .ok t) : t.emulator.Coherent := by
  unfold Emulator.turn at ht
  obtain ⟨⟨fetched, e₁⟩, hf, ht⟩ := bind_eq_ok_iff.mp ht
  have h₁ := h.fetch hf
  simp only at ht
  split at ht
  · cases ht
    exact h₁.interpreted i s
  · obtain ⟨e₂, hs, ht⟩ := bind_eq_ok_iff.mp ht
    have h₂ := h₁.settle hs
    obtain ⟨⟨code, last, e₃⟩, hx, ht⟩ := bind_eq_ok_iff.mp ht
    have h₃ := (h₂.execute hx).1
    simp only at ht
    split at ht
    all_goals cases ht
    case h_6 => exact h₃.interpreted i s
    all_goals exact h₃

theorem Coherent.turns (fuel : Nat) {e e' : Emulator} (h : e.Coherent) {s s' : σ}
    {pending : Option PendingLink} {exit : RunEnd}
    (ht : turns i fuel s e pending = .ok (exit, s', e')) : e'.Coherent := by
  induction fuel generalizing e s pending with
  | zero =>
      cases ht
      exact h
  | succ fuel ih =>
      unfold Emulator.turns at ht
      split at ht
      · cases ht
        exact h
      · obtain ⟨t, ht', ht⟩ := bind_eq_ok_iff.mp ht
        have h' := h.turn i ht'
        split at ht
        · exact ih h' ht
        · cases ht
          exact h'

/-- **A run leaves compiled code coherent.** -/
theorem Coherent.run {e e' : Emulator} (h : e.Coherent) {s s' : σ} {cycles : Int32}
    {exit : RunEnd} (hr : e.run i s cycles = .ok (exit, s', e')) : e'.Coherent :=
  Coherent.turns i _ (h.setContext _) hr

end Run

end Emulator

end Recompiler
