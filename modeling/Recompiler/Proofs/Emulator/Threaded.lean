import Recompiler.Proofs.Emulator.Block
import Recompiler.Proofs.Emulator.Fetch

/-!
# Linked exits lead where the guest goes on

An exit of a compiled block goes on at an address that its source decides.  As
long as only the dispatcher links, a linked exit leads to the block at that
address, and that block is the one a look-up of the address finds.
-/

namespace Recompiler

namespace Arena

/-- A compiled block goes on through a slot at an address. -/
def Exits (a : Arena) (l : Limits) (b : BlockId) (slot : Slot) (addr : UInt32) : Prop :=
  ∃ src seq, a.sourceOf b = some src ∧ src.Gives l seq ∧ seq.exit.target? slot = some addr

theorem Exits.congr {a a' : Arena} {l : Limits} {b : BlockId} {slot : Slot} {addr : UInt32}
    (h : a.Exits l b slot addr) (hc : (a'.block b).core = (a.block b).core) :
    a'.Exits l b slot addr := by
  obtain ⟨src, seq, hs, hg, ht⟩ := h
  exact ⟨src, seq, (sourceOf_eq_of_core hc).trans hs, hg, ht⟩

theorem Exits.unique {a : Arena} {l : Limits} (hl : l.Sufficient) {b : BlockId} {slot : Slot}
    {x y : UInt32} (hx : a.Exits l b slot x) (hy : a.Exits l b slot y) : x = y := by
  obtain ⟨src, seq, hs, hg, ht⟩ := hx
  obtain ⟨src', seq', hs', hg', ht'⟩ := hy
  rw [hs, Option.some.injEq] at hs'
  subst hs'
  rw [hg.unique hl hg', ht', Option.some.injEq] at ht
  exact ht.symm

/-- Every linked exit leads to the block at the address it goes on at, and
every other is at home. -/
structure Threaded (a : Arena) (l : Limits) : Prop where
  homed : a.Homed
  thread : ∀ d slot, (a.successor d slot).isTrampoline = false →
    ∃ src, a.sourceOf (a.successor d slot) = some src ∧ a.Exits l d slot src.start

namespace Threaded

variable {a a' : Arena} {l : Limits} (h : a.Threaded l)

include h

/-- What keeps every linked exit, or sends it home, keeps the threads. -/
theorem of_kept
    (hlink : ∀ d s, a'.successor d s = a.successor d s ∨ a'.successor d s = .trampoline s)
    (hcore : ∀ d s, (a'.successor d s).isTrampoline = false →
      (a'.block d).core = (a.block d).core ∧
        (a'.block (a'.successor d s)).core = (a.block (a'.successor d s)).core) :
    a'.Threaded l := by
  refine ⟨fun d s hT => ?_, fun d s hT => ?_⟩
  · rcases hlink d s with he | he
    · rw [he] at hT ⊢
      exact h.homed d s hT
    · exact he
  · obtain ⟨hd, ht⟩ := hcore d s hT
    rcases hlink d s with he | he
    · rw [he] at hT ht ⊢
      obtain ⟨src, hs, hx⟩ := h.thread d s hT
      exact ⟨src, (sourceOf_eq_of_core ht).trans hs, hx.congr hd⟩
    · rw [he, BlockId.isTrampoline_trampoline] at hT
      cases hT

theorem shrinks (hs : a.Shrinks a') (hl : a'.Linked) : a'.Threaded l := by
  exact h.of_kept hs.link fun d s hT =>
    ⟨hs.core d (hl.isLive_of_linked hT), hs.core _ (hl.live d s hT)⟩

theorem link {source target : BlockId} {slot : Slot} {src : Source} (hlinked : a.Linked)
    (ht : a.isLive target = true) (hs : a.sourceOf target = some src)
    (hx : a.Exits l source slot src.start) (hl : a.link source slot target = .ok a') :
    a'.Threaded l := by
  by_cases hc : a.successor source slot = target
  · rw [link_eq_self hl hc]
    exact h
  have hcore := fun b => ((Alike.link hl).core b).symm
  refine ⟨h.homed.link hlinked (Or.inl ht) hl, fun d s hT => ?_⟩
  rw [successor_link hlinked hl hc] at hT ⊢
  split
  · next hds =>
      rw [hds.1, hds.2]
      exact ⟨src, (sourceOf_eq_of_core (hcore _)).trans hs, hx.congr (hcore _)⟩
  · next hds =>
      rw [if_neg hds] at hT
      split
      · next hdisplaced =>
          rw [if_pos hdisplaced, BlockId.isTrampoline_trampoline] at hT
          cases hT
      · next hdisplaced =>
          rw [if_neg hdisplaced] at hT
          obtain ⟨src', hs', hx'⟩ := h.thread d s hT
          exact ⟨src', (sourceOf_eq_of_core (hcore _)).trans hs', hx'.congr (hcore _)⟩

end Threaded

/-- An exit of compiled code can be linked to compiled code, and to a
trampoline. -/
theorem link_ok {a : Arena} {source target : BlockId} {slot : Slot}
    (ht : target.isTrampoline = true ∨ a.isLive target = true)
    (hx : slot.index < (a.block source).kind.exitCount) :
    ∃ a', a.link source slot target = .ok a' := by
  have hfreed : ¬(!target.isTrampoline && !a.isLive target) = true := by
    rcases ht with ht | ht
    · simp [ht]
    · simp [ht]
  unfold link
  rw [if_neg hfreed, if_neg (Nat.not_le.mpr hx)]
  simp only
  split
  · exact ⟨_, rfl⟩
  · exact ⟨_, rfl⟩

end Arena

theorem Exit.index_lt_of_target? {e : Exit} {slot : Slot} {addr : UInt32}
    (h : e.target? slot = some addr) : slot.index < e.kind.exitCount := by
  cases e with
  | limit _ | jump _ =>
      cases slot with
      | first => exact Nat.zero_lt_one
      | second => cases h
  | branch _ _ _ => exact slot.index_lt_two
  | computed | interpret _ | callback _ => cases slot <;> cases h

namespace Emulator

/-- A coherent emulator whose linked exits lead where the guest goes on. -/
structure Sound (e : Emulator) : Prop where
  coherent : e.Coherent
  threaded : e.arena.Threaded e.limits

variable {e e' : Emulator}

theorem Sound.linked (h : e.Sound) : e.arena.Linked := h.coherent.guarded.store.linked

theorem Sound.leaves (h : e.Sound) {g : GuardedMemory} (hg : g.Coherent e.limits)
    (hs : e.arena.Shrinks g.code.arena) : ({ e with guarded := g } : Emulator).Sound :=
  ⟨⟨h.coherent.settings, hg⟩, h.threaded.shrinks hs hg.store.linked⟩

theorem Sound.setContext (h : e.Sound) (context : Context) :
    ({ e with context } : Emulator).Sound :=
  ⟨⟨h.coherent.settings, h.coherent.guarded⟩, h.threaded⟩

theorem Sound.found (h : e.Sound) {eip : UInt32} {id : BlockId} (hf : e.Found eip id e') :
    e'.Sound := by
  have hlinked : e'.arena.Linked := hf.coherent.guarded.store.linked
  have hlimits : e'.limits = e.limits := by rw [limits, limits, hf.settings]
  refine ⟨hf.coherent, ?_⟩
  rw [hlimits]
  refine h.threaded.of_kept hf.link fun d s hT => ?_
  have hlive : e'.arena.isLive d = true := hlinked.isLive_of_linked hT
  constructor
  · refine (hf.core d hlive).resolve_right ?_
    rintro ⟨-, -, hlinks, -⟩
    rw [Arena.successor, hlinks, Links.get_unlinked] at hT
    rw [show (Link.trampoline s).block = .trampoline s from rfl,
      BlockId.isTrampoline_trampoline] at hT
    cases hT
  · refine (hf.core _ (hlinked.live d s hT)).resolve_right ?_
    rintro ⟨-, -, -, hring⟩
    have := hlinked.recorded d s hT
    rw [hring] at this
    simp at this

/-- A look-up keeps where a block goes on, unless it compiled over it. -/
theorem Found.exits {eip : UInt32} {id b : BlockId} (hf : e.Found eip id e')
    (hb : e'.arena.isLive b = true)
    (hgeneration : (e'.arena.block b).generation = (e.arena.block b).generation) {slot : Slot}
    {addr : UInt32} (hx : e.arena.Exits e.limits b slot addr) :
    e'.arena.Exits e'.limits b slot addr := by
  have hlimits : e'.limits = e.limits := by rw [limits, limits, hf.settings]
  rw [hlimits]
  refine hx.congr ((hf.core b hb).resolve_right ?_)
  rintro ⟨-, hnext, -⟩
  rw [hgeneration] at hnext
  have := congrArg UInt32.toBitVec hnext
  simp at this

theorem Coherent.index_lt_of_exits (h : e.Coherent) {b : BlockId} {slot : Slot} {addr : UInt32}
    (hx : e.arena.Exits e.limits b slot addr) :
    slot.index < (e.arena.block b).kind.exitCount := by
  obtain ⟨src, seq, hs, hg, ht⟩ := hx
  obtain ⟨seq', hg', hkind, _⟩ := (h.guarded.store.translated b src hs).gives
  rw [show (e.arena.block b).kind = _ from hkind, ← hg.unique h.settings.sufficient hg']
  exact Exit.index_lt_of_target? ht

end Emulator

end Recompiler
