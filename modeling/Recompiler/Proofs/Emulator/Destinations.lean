import Recompiler.Proofs.Emulator.Exits
import Recompiler.Proofs.Emulator.Refinement

/-!
# Links lead to the right address

As long as only the dispatcher links, every linked exit leads to the block that
starts at the address the exit stores.  An exit is linked a turn after it was
taken, when the block it is to lead to has been found or compiled; if that took
the block away that was left, or put another in its place, nothing is linked.
-/

namespace Recompiler

namespace Emulator

/-- An exit of a compiled block leads to the block at the address it stores: the
one that the last of its instructions names. -/
def LeadsRight (e : Emulator) (b : BlockId) (slot : Slot) : Prop :=
  ∃ src page target p, e.memory.bytes? src.page = some page ∧ e.UpToDate b src page ∧
    e.arena.sourceOf (e.arena.successor b slot) = some target ∧
    StoresOnExit (e.arena.block b).program b slot target.start ∧
    (Sequence.at page e.limits src.start).instructions.getLast? = some p ∧
    p.LeadsTo (e.arena.block b).kind slot target.start

/-- A block that goes on through a slot stores where, as its last instruction
has it. -/
theorem Coherent.storesOnExit {e : Emulator} (h : e.Coherent) {b : BlockId} {slot : Slot}
    {addr : UInt32} (hx : e.arena.Exits e.limits b slot addr) :
    ∃ src page p, e.memory.bytes? src.page = some page ∧ e.UpToDate b src page ∧
      StoresOnExit (e.arena.block b).program b slot addr ∧
      (Sequence.at page e.limits src.start).instructions.getLast? = some p ∧
      p.LeadsTo (e.arena.block b).kind slot addr := by
  have hl : e.limits.Sufficient := h.settings.sufficient
  obtain ⟨src, seq, hs, hg, ht⟩ := hx
  obtain ⟨src', page, hpage, hb⟩ := h.upToDate (h.guarded.store.isLive_of_source hs)
  obtain rfl : src = src' := Option.some.inj (hs.symm.trans hb.source)
  have hseq := hg.at_eq hl hb.unchanged
  have hne : seq.instructions ≠ [] := fun hn => by
    rw [hg.exit_of_nil hl hn] at ht
    cases slot <;> cases ht
  obtain ⟨p, hp, hleads⟩ := (h.guarded.follows hl hs hg).leadsTo hne ht
  refine ⟨src, page, p, hpage, hb, ?_, hseq ▸ hp, ?_⟩
  · rw [hb.compiled.program, hseq]
    exact Sequence.storesOnExit ht b
  · rw [hb.compiled.kind, hseq]
    exact hleads

theorem Sound.leadsRight {e : Emulator} (h : e.Sound) {b : BlockId} {slot : Slot}
    (hT : (e.arena.successor b slot).isTrampoline = false) : e.LeadsRight b slot := by
  obtain ⟨target, ht, hx⟩ := h.threaded.thread b slot hT
  obtain ⟨src, page, p, hpage, hb, hstores, hp, hleads⟩ := h.coherent.storesOnExit hx
  exact ⟨src, page, target, p, hpage, hb, ht, hstores, hp, hleads⟩

/-! ## Turns of a run -/

/-- The turns of a run, each with the exit that is pending when it begins. -/
inductive Comes {σ : Type} (i : Interpreter σ) :
    σ → Emulator → Option PendingLink → Emulator → Option PendingLink → Prop
  | now {s : σ} {e : Emulator} {pending : Option PendingLink} (hc : 0 < e.context.cycles) :
      Comes i s e pending e pending
  | later {s s' : σ} {e e' x : Emulator} {pending pending' p : Option PendingLink}
      (hc : 0 < e.context.cycles) (ht : e.turn i s pending = .ok (.go s' e' pending'))
      (h : Comes i s' e' pending' x p) : Comes i s e pending x p

/-- At every turn of a run the emulator is sound, and what is pending goes on at
the address of the CPU. -/
theorem Comes.sound {σ : Type} {i : Interpreter σ} {s : σ} {e x : Emulator}
    {pending p : Option PendingLink} (h : Comes i s e pending x p) (hs : e.Sound)
    (ha : e.Awaits pending) : x.Sound ∧ x.Awaits p := by
  induction h with
  | now _ => exact ⟨hs, ha⟩
  | @later s s' e e' _ pending pending' _ hc hturn _ ih =>
      rcases turn_spec hs i s ha (Int32.lt_iff_toInt_lt.mp hc) with herr | ⟨t, hok, hturned⟩
      · rw [herr] at hturn
        cases hturn
      · rw [hok] at hturn
        cases hturn
        cases hturned with
        | go hs' ha' _ => exact ih hs' ha'

/-- **What is pending is linked only if its block is still the one that was
left.**  A block that went while the next was looked up, and one that another
took the place of, is not linked. -/
theorem Sound.settle_pending {x e : Emulator} (h : x.Sound) {p : PendingLink}
    (ha : x.Awaits (some p)) {id : BlockId} (hf : x.Found x.cpu.eip id e) :
    ((e.arena.block p.block).core = (x.arena.block p.block).core →
      ∃ a, e.arena.link p.block p.slot id = .ok a ∧
        e.settle (some p) id = .ok (e.modifyArena fun _ => a)) ∧
      ((e.arena.block p.block).core ≠ (x.arena.block p.block).core →
        e.settle (some p) id = .ok e) := by
  obtain ⟨hgeneration, hx⟩ := ha p rfl
  constructor
  · intro hsame
    obtain ⟨src, _, hs, _⟩ := hx
    have hlive : e.arena.isLive p.block = true := by
      rw [Arena.isLive_eq_of_core hsame]
      exact h.coherent.guarded.store.isLive_of_source hs
    have hkept : (e.arena.block p.block).generation = (x.arena.block p.block).generation := by
      rw [← Descriptor.generation_core, hsame, Descriptor.generation_core]
    obtain ⟨target, ht, _⟩ := hf.source
    obtain ⟨a, hlink⟩ : ∃ a, e.arena.link p.block p.slot id = .ok a :=
      Arena.link_ok (Or.inr (hf.coherent.guarded.store.isLive_of_source ht))
        (hf.coherent.index_lt_of_exits (hf.exits hlive hkept (ha p rfl).2))
    refine ⟨a, hlink, ?_⟩
    unfold Emulator.settle Emulator.link
    simp only
    rw [hlive, hkept, hgeneration, decide_eq_true rfl, hlink]
    rfl
  · intro hother
    unfold Emulator.settle
    simp only
    rw [if_neg]
    rw [Bool.and_eq_true, decide_eq_true_iff]
    rintro ⟨hlive, hsame⟩
    rcases hf.core p.block hlive with hc | ⟨_, hnext, _⟩
    · exact hother hc
    · rw [hsame, ← hgeneration] at hnext
      have := congrArg UInt32.toBitVec hnext
      simp at this

/-- **Links made by the dispatcher lead to the right address.**  After any
actions but links made by hand, and at every turn of a run that follows, each
linked exit leads to the block at the address it stores, which the last
instruction of its block names.  What is pending at a turn stores the address
that is looked up; it is linked to what is found there if its block is still the
one that was left, and else nothing is. -/
theorem leadsRight_of_reached {e : Emulator} (h : Reached (fun a => a.isLink = false) e) :
    (∀ b slot, (e.arena.successor b slot).isTrampoline = false → e.LeadsRight b slot) ∧
      ∀ {σ : Type} (i : Interpreter σ) (s : σ) (cycles : Int32) (x : Emulator)
        (pending : Option PendingLink), Comes i s (e.setCycles cycles) none x pending →
        (∀ b slot, (x.arena.successor b slot).isTrampoline = false → x.LeadsRight b slot) ∧
          ∀ p, pending = some p →
            StoresOnExit (x.arena.block p.block).program p.block p.slot x.cpu.eip ∧
            ∀ f id e₁, x.fetch x.cpu.eip = .ok (f, e₁) → f.block? = some id →
              ((e₁.arena.block p.block).core = (x.arena.block p.block).core →
                ∃ a, e₁.arena.link p.block p.slot id = .ok a ∧
                  e₁.settle (some p) id = .ok (e₁.modifyArena fun _ => a)) ∧
              ((e₁.arena.block p.block).core ≠ (x.arena.block p.block).core →
                e₁.settle (some p) id = .ok e₁) := by
  refine ⟨fun b slot => h.sound.leadsRight, fun i s cycles x pending hx => ?_⟩
  obtain ⟨hsound, hawaits⟩ := hx.sound (h.sound.setContext _) (awaits_none _)
  refine ⟨fun b slot => hsound.leadsRight, ?_⟩
  rintro p rfl
  obtain ⟨_, _, _, _, _, hstores, _⟩ := hsound.coherent.storesOnExit (hawaits p rfl).2
  refine ⟨hstores, fun f id e₁ hf hid => ?_⟩
  rcases fetch_spec hsound.coherent x.cpu.eip with ⟨hi, _⟩ | ⟨f', id', e', hok, hid', hfound, _⟩ |
    herr
  · rw [hf, Except.ok.injEq, Prod.mk.injEq] at hi
    rw [hi.1] at hid
    cases hid
  · rw [hf, Except.ok.injEq, Prod.mk.injEq] at hok
    obtain ⟨rfl, rfl⟩ := hok
    rw [hid, Option.some.injEq] at hid'
    subst hid'
    exact hsound.settle_pending hawaits hfound
  · rw [hf] at herr
    cases herr

def cramped : Emulator :=
  { settings := { Settings.small with arenaBytes := 512 }
    guarded :=
      { code := .new { Settings.small with arenaBytes := 512 }, memory := ⟨#[.zero]⟩ } }

theorem new_cramped :
    Emulator.new { Settings.small with arenaBytes := 512 } ⟨#[.zero]⟩ = .ok cramped := rfl

/-- Where the next turn starts, if a link is to be made then. -/
def Turn.linking? {σ : Type} : Turn σ → Option (Emulator × PendingLink)
  | .go _ e (some p) => some (e, p)
  | .go _ _ none | .stop _ _ _ => none

/-- A loop linked to itself; and a jump whose block is still to be linked when
the next is compiled in its place. -/
theorem leadsRight_of_replaced :
    ∃ e, Reached (fun a => a.isLink = false) e ∧ e.arena.successor ⟨2⟩ .first = ⟨2⟩ ∧
      e.LeadsRight ⟨2⟩ .first ∧
      ∃ x p e₁, Comes stepper () (e.setCycles 10) none x (some p) ∧
        x.fetch x.cpu.eip = .ok (.compiled p.block, e₁) ∧
        StoresOnExit (x.arena.block p.block).program p.block p.slot x.cpu.eip ∧
        e₁.settle (some p) p.block = .ok e₁ := by
  obtain ⟨e, he, htest⟩ := exists_of_succeeds
    (x := cramped.performAll
      [.load 0 [0x40, 0xEB, 0xFD], .load 16 [0xEB, 0x02, 0x90, 0x90, 0xEB, 0xFA],
        .run stepper () 5, .setCpu { eip := 16 }])
    (p := fun e => e.arena.successor ⟨2⟩ .first = ⟨2⟩ &&
      succeeds ((e.setCycles 10).turn stepper () none) fun t => t.linking?.any fun q =>
        0 < q.1.context.cycles && succeeds (q.1.fetch q.1.cpu.eip) fun r =>
          r.1 = .compiled q.2.block &&
            (r.2.arena.block q.2.block).core ≠ (q.1.arena.block q.2.block).core)
    (by decide +kernel)
  rw [Bool.and_eq_true, decide_eq_true_iff] at htest
  obtain ⟨hloop, hturn⟩ := htest
  obtain ⟨turn, hturn, htest⟩ := exists_of_succeeds hturn
  have h : Reached (fun a => a.isLink = false) e :=
    .performAll (by decide) (.new unwatched_zeroed new_cramped) he
  obtain ⟨hlinks, hruns⟩ := leadsRight_of_reached h
  refine ⟨e, h, hloop, hlinks _ _ (by rw [hloop]; rfl), ?_⟩
  cases turn with
  | stop => cases htest
  | go _ x pending =>
      cases pending with
      | none => cases htest
      | some p =>
          rw [Turn.linking?, Option.any_some, Bool.and_eq_true, decide_eq_true_iff] at htest
          obtain ⟨hc, hfetch⟩ := htest
          obtain ⟨⟨f, e₁⟩, hf, htest⟩ := exists_of_succeeds hfetch
          rw [Bool.and_eq_true, decide_eq_true_iff, decide_eq_true_iff] at htest
          obtain ⟨rfl, hother⟩ := htest
          have hx : Comes stepper () (e.setCycles 10) none x (some p) :=
            .later (show (0 : Int32) < 10 by decide) hturn (.now hc)
          obtain ⟨_, hpending⟩ := hruns stepper () 10 x (some p) hx
          obtain ⟨hstores, hsettle⟩ := hpending p rfl
          exact ⟨x, p, e₁, hx, hf, hstores, (hsettle _ _ e₁ hf rfl).2 hother⟩

end Emulator

end Recompiler
