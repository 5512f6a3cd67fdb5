import Recompiler.Proofs.Emulator.Freed
import Recompiler.Proofs.Guarded.Pool

/-!
# The pool of watches

Three things say which page is under which watch: the watch, the lists of the
pool, and the page with its flag.  They agree after every action, and while an
action lasts.
-/

namespace Recompiler

open Watches (Recorded)

theorem Memory.testBit_flags (m : Memory) (page : Nat) :
    (m.flags page).testBit 2 = m.hasCode page := by
  unfold flags hasCode
  cases m.pages[page]? with
  | none => rfl
  | some p =>
      show p.flags.testBit 2 = p.hasCode
      unfold Page.flags
      cases p.rom <;> cases p.noCode <;> cases p.hasCode <;> rfl

theorem GuardedMemory.Coherent.testBit_flags {l : Limits} {g : GuardedMemory} (h : g.Coherent l)
    (page : Nat) : (g.memory.flags page).testBit 2 = (g.memory.watch? page).isSome :=
  (g.memory.testBit_flags page).trans (h.marked page)

namespace Emulator

/-- A coherent emulator whose pool has a history. -/
structure Pooled (e : Emulator) : Prop where
  coherent : e.Coherent
  recorded : e.watches.Recorded e.settings

theorem Pooled.new {settings : Settings} {memory : Memory} {decoder : Decoder} {e : Emulator}
    (hm : memory.Unwatched) (hn : Emulator.new settings memory decoder = .ok e) :
    e.Pooled := by
  refine ⟨.new hm hn, ?_⟩
  unfold Emulator.new at hn
  split at hn
  · cases hn
  · cases hn
    exact .new

namespace Pooled

variable {e : Emulator} (h : e.Pooled)

include h

theorem guarded : e.guarded.Pooled e.settings e.limits := ⟨h.coherent.guarded, h.recorded⟩

theorem setGuarded {g : GuardedMemory} (hg : g.Pooled e.settings e.limits) :
    ({ e with guarded := g } : Emulator).Pooled :=
  ⟨h.coherent.setGuarded hg.coherent, hg.recorded⟩

theorem setContext (context : Context) : ({ e with context } : Emulator).Pooled :=
  ⟨h.coherent.setContext context, h.recorded⟩

theorem write (width : Width) (addr value : UInt32) (running : Option BlockId) :
    ({ e with guarded := (e.guarded.write width addr value running).2 } : Emulator).Pooled :=
  h.setGuarded (h.guarded.write width addr value running)

omit h in
theorem load {e : Emulator} (h : e.Pooled) (addr : UInt32) (bytes : List UInt8) :
    (e.load addr bytes).Pooled := by
  induction bytes generalizing e addr with
  | nil => exact h
  | cons b rest ih => exact ih (h.write .byte addr b.toUInt32 e.running?) (addr + 1)

theorem discard {b : BlockId} {e' : Emulator} (hd : e.discard b = .ok e') : e'.Pooled := by
  obtain ⟨code, hcode, he⟩ := bind_eq_ok_iff.mp hd
  cases he
  exact h.setGuarded (h.guarded.discard hcode)

theorem link {source target : BlockId} {slot : Slot} {e' : Emulator}
    (hl : e.link source slot target = .ok e') : e'.Pooled := by
  refine ⟨h.coherent.link hl, ?_⟩
  obtain ⟨a, _, he⟩ := bind_eq_ok_iff.mp hl
  cases he
  exact h.recorded

theorem fetch {eip : UInt32} {f : Fetched} {e' : Emulator} (hf : e.fetch eip = .ok (f, e')) :
    e'.Pooled := by
  refine ⟨h.coherent.fetch hf, ?_⟩
  rcases of_fetch_ok h.coherent hf with
    ⟨_, rfl⟩ | ⟨watch, guarded, page, _, code, hw, hwatched, hc, rfl⟩
  · exact h.recorded
  · have hused := ((hwatched.coherent.mapped _ _).mp hwatched.watch).1
    exact hwatched.coherent.store.recorded_compile (h.guarded.recorded_watchPage hw) hused hc

/-! ## Runs -/

theorem execute {id last : BlockId} {code : ReturnCode} {e' : Emulator}
    (hx : e.execute id = .ok (code, last, e')) : e'.Pooled := by
  refine ⟨(h.coherent.execute hx).1, ?_⟩
  obtain ⟨_, word, s, hc, _, _, _, rfl⟩ := of_execute_ok hx
  have hs := chain_induction (P := fun g => g.Pooled e.settings e.limits)
    (fun _ running width addr value hg => hg.write width addr value running) _ h.guarded hc
  exact hs.recorded

theorem settle {pending : Option PendingLink} {id : BlockId} {e' : Emulator}
    (hs : e.settle pending id = .ok e') : e'.Pooled := by
  unfold Emulator.settle at hs
  split at hs
  · cases hs
    exact h
  · split at hs
    · exact h.link hs
    · cases hs
      exact h

variable {σ : Type} (i : Interpreter σ)

theorem interpreted (s : σ) : (turn.interpreted i s e).emulator.Pooled := by
  have hi : (e.interpret i s).2.2.Pooled :=
    ⟨h.coherent.interpret i s, (h.guarded.run (i.step s e.cpu)).recorded⟩
  unfold turn.interpreted
  split
  · next he =>
      rw [he] at hi
      exact hi
  · next he =>
      rw [he] at hi
      exact hi

theorem turn {s : σ} {pending : Option PendingLink} {t : Turn σ}
    (ht : e.turn i s pending = .ok t) : t.emulator.Pooled := by
  unfold Emulator.turn at ht
  obtain ⟨⟨fetched, e₁⟩, hf, ht⟩ := bind_eq_ok_iff.mp ht
  have h₁ := h.fetch hf
  simp only at ht
  split at ht
  · cases ht
    exact h₁.interpreted i s
  · obtain ⟨e₂, hs, ht⟩ := bind_eq_ok_iff.mp ht
    have h₂ := h₁.settle hs
    obtain ⟨⟨code, last, e₃⟩, hx, ht⟩ := bind_eq_ok_iff.mp ht
    have h₃ := h₂.execute hx
    simp only at ht
    split at ht
    all_goals cases ht
    case h_6 => exact h₃.interpreted i s
    all_goals exact h₃

omit h in
theorem turns (fuel : Nat) {e e' : Emulator} (h : e.Pooled) {s s' : σ}
    {pending : Option PendingLink} {exit : RunEnd}
    (ht : turns i fuel s e pending = .ok (exit, s', e')) : e'.Pooled := by
  induction fuel generalizing e s pending with
  | zero =>
      cases ht
      exact h
  | succ fuel ih =>
      unfold Emulator.turns at ht
      split at ht
      · cases ht
        exact h
      · obtain ⟨t, ht', ht⟩ := bind_eq_ok_iff.mp ht
        have h' := h.turn i ht'
        split at ht
        · exact ih h' ht
        · cases ht
          exact h'

/-- **Every action keeps the pool in order.** -/
theorem perform {e' : Emulator} {a : Action} (hp : e.perform a = .ok e') : e'.Pooled := by
  replace hp := (perform_eq_ok_iff.mp hp).1
  cases a with
  | fetch eip =>
      obtain ⟨⟨f, e₁⟩, hf, hp⟩ := bind_eq_ok_iff.mp hp
      cases hp
      exact h.fetch hf
  | execute id =>
      obtain ⟨⟨code, last, e₁⟩, hx, hp⟩ := bind_eq_ok_iff.mp hp
      cases hp
      exact h.execute hx
  | run i s cycles =>
      obtain ⟨⟨exit, s', e₁⟩, hr, hp⟩ := bind_eq_ok_iff.mp hp
      cases hp
      exact turns i _ (h.setContext _) hr
  | discard id => exact h.discard hp
  | link source slot target => exact h.link hp
  | write width addr value | writeChecked width addr value =>
      cases hp
      exact h.write width addr value e.running?
  | busWrite width addr value =>
      cases hp
      exact h.write width addr value none
  | load addr bytes =>
      cases hp
      exact h.load addr bytes
  | invalidate start stop =>
      cases hp
      exact h.setGuarded (h.guarded.invalidateRange start stop e.running?)
  | flush =>
      cases hp
      exact h.setGuarded h.guarded.flush
  | restore cpu =>
      cases hp
      exact (h.setGuarded h.guarded.flush).setContext _
  | setCpu cpu =>
      cases hp
      exact h.setContext _
  | setCycles cycles =>
      cases hp
      exact h.setContext _

end Pooled

theorem Visited.pooled {e : Emulator} (h : Visited e) : e.Pooled := by
  induction h with
  | new hm hn => exact .new hm hn
  | perform _ hp ih => exact ih.perform hp
  | write _ width addr value running ih => exact ih.write width addr value running
  | context _ context ih => exact ih.setContext context

/-! ## The pool and the pages -/

/-- The lists of the pool, the watches and the pages agree. -/
structure PagePool (e : Emulator) : Prop where
  /-- A watch is free or in use, and not both. -/
  nodup : (e.watches.free ++ e.watches.used).Nodup
  pooled : ∀ id, id ∈ e.watches.free ++ e.watches.used ↔ id.number < e.watches.capacity
  mapped : ∀ page id, e.memory.watch? page = some id ↔
    id ∈ e.watches.used ∧ (e.watches.watch id).page = page
  /-- The flag of a page tells whether it is under a watch. -/
  flagged : ∀ page, (e.memory.flags page).testBit 2 = true ↔
    ∃ id ∈ e.watches.used, (e.watches.watch id).page = page
  permitted : ∀ page, e.memory.isNoCode page = true → e.memory.watch? page = none
  /-- What is free is as good as new, and no block names it. -/
  idle : ∀ id ∈ e.watches.free, e.watches.watch id = .fresh 0 e.settings.releaseDelay.toNat ∧
    ∀ b src, e.arena.sourceOf b = some src → src.watch ≠ id
  recorded : e.watches.Recorded e.settings

theorem Pooled.pagePool {e : Emulator} (h : e.Pooled) : e.PagePool := by
  obtain ⟨log, hlog⟩ := h.recorded
  have hg := h.coherent.guarded
  have hindexed := hg.store.indexed
  refine ⟨hindexed.nodup, hindexed.pooled, hg.mapped, fun page => ?_, fun page hcode => ?_,
    fun id hid => ⟨hlog.ordered.idle id hid, fun b src hb => hindexed.watch_ne_of_free hid hb⟩,
    h.recorded⟩
  · refine (Bool.eq_iff_iff.mp (hg.testBit_flags page)).trans ?_
    rw [Option.isSome_iff_exists]
    exact exists_congr fun id => hg.mapped page id
  · cases hw : e.memory.watch? page with
    | none => rfl
    | some id =>
        have hno := hg.permitted page id hw
        rw [show e.guarded.memory.isNoCode page = true from hcode] at hno
        cases hno

/-- **Watches, pages and blocks agree about which page is under which watch.**
And any page that may hold code comes under one: if none is free, the one that
was put up first is taken down, and exactly the blocks of its page are freed. -/
theorem pagePool_of_visited {e : Emulator} (h : Visited e) :
    e.PagePool ∧ ∀ page, page < e.memory.pageCount → e.memory.isNoCode page = false →
      ∃ id freed g, e.guarded.watchPage page = .ok (some id, g) ∧
        e.guarded.PutsUp e.settings page id freed g ∧
        ({ e with guarded := g } : Emulator).PagePool := by
  refine ⟨h.pooled.pagePool, fun page hpage hcode => ?_⟩
  obtain ⟨id, freed, g, hok, hputs⟩ := h.coherent.guarded.putsUp_watchPage hpage hcode
  have hg := h.pooled.guarded.watchPage hpage hcode hok
  exact ⟨id, freed, g, hok, hputs, (h.pooled.setGuarded hg).pagePool⟩

def crowded : Emulator :=
  { settings := { Settings.small with watches := 2 }
    guarded :=
      { code := .new { Settings.small with watches := 2 }, memory := ⟨#[.zero, .zero, .zero]⟩ } }

/-- The third page comes under the watch of the first, whose block goes; the block
of the second stays. -/
theorem pagePool_of_crowded :
    ∃ e, Visited e ∧ e.watches.free = [] ∧ e.watches.used = [⟨0⟩, ⟨1⟩] ∧ e.PagePool ∧
      2 < e.memory.pageCount ∧ e.memory.isNoCode 2 = false ∧
      ∃ id freed g, e.guarded.watchPage 2 = .ok (some id, g) ∧
        e.guarded.PutsUp e.settings 2 id freed g ∧
        ({ e with guarded := g } : Emulator).PagePool ∧ ⟨2⟩ ∈ freed ∧ ⟨3⟩ ∉ freed := by
  obtain ⟨e, he, htest⟩ := exists_of_succeeds (x := crowded.performAll [.fetch 0, .fetch 0x1000])
    (p := fun e => e.watches.free = [] && e.watches.used = [⟨0⟩, ⟨1⟩] &&
      2 < e.memory.pageCount && !e.memory.isNoCode 2 && (e.memory.watch? 2).isNone &&
      (e.arena.sourceOf ⟨2⟩).any (·.page = (e.watches.watch ⟨0⟩).page) &&
      (e.arena.sourceOf ⟨3⟩).all (·.page ≠ (e.watches.watch ⟨0⟩).page)) (by decide +kernel)
  simp only [Bool.and_eq_true, decide_eq_true_eq, Bool.not_eq_true', Option.isNone_iff_eq_none]
    at htest
  obtain ⟨⟨⟨⟨⟨⟨hfree, hused⟩, hpage⟩, hcode⟩, hnone⟩, hfirst⟩, hsecond⟩ := htest
  have hunwatched : crowded.memory.Unwatched := by
    constructor <;> rintro (_ | _ | _ | page) <;> rfl
  have hnew : Emulator.new crowded.settings crowded.memory = .ok crowded := rfl
  have h : Reached (fun _ => True) e := .performAll (fun _ _ => trivial) (.new hunwatched hnew) he
  obtain ⟨hpool, hputs⟩ := pagePool_of_visited h.visited
  obtain ⟨id, freed, g, hok, hput, hafter⟩ := hputs 2 hpage hcode
  refine ⟨e, h.visited, hfree, hused, hpool, hpage, hcode, id, freed, g, hok, hput, hafter, ?_⟩
  obtain ⟨oldest, rest, hold, _, _, hfreed⟩ := hput.oldest hnone hfree
  obtain ⟨rfl, rfl⟩ := List.cons.inj (hold.symm.trans hused)
  rw [hfreed, hfreed]
  constructor
  · obtain ⟨src, hs, hp⟩ := Option.any_eq_true .. |>.mp hfirst
    exact ⟨h.coherent.guarded.store.isLive_of_source hs, src, hs, of_decide_eq_true hp⟩
  · rintro ⟨_, src, hs, hp⟩
    rw [show e.arena.sourceOf ⟨3⟩ = some src from hs, Option.all_some] at hsecond
    exact of_decide_eq_true hsecond hp

end Emulator

end Recompiler
