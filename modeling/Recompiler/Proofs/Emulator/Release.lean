import Recompiler.Proofs.Emulator.Ticks

/-!
# When a watch is released

A watch that indexes nothing is released by a write, but only once its page was
changed often enough.  How often is told by the log alone: what counts are the writes
that found the watch idle, since it was put up or last lost a block.  The countdown
that the watch keeps is what is left of the delay.
-/

namespace Recompiler

namespace Emulator

/-- The writes of a log that found a watch idle, since it was put up or last lost a
block. -/
def idled (id : WatchId) (log : List Moment) : Nat :=
  log.foldl (fun n m => if m.restarts id then 0 else if m.idles id then n + 1 else n) 0

theorem idled_concat (id : WatchId) (log : List Moment) (m : Moment) :
    idled id (log ++ [m]) =
      if m.restarts id then 0 else if m.idles id then idled id log + 1 else idled id log :=
  List.foldl_concat ..

/-! ## Along a course -/

theorem Coherent.settings_undergo {e e' : Emulator} (h : e.Coherent) {v : Event}
    (hv : e.undergo v = .ok e') : e'.settings = e.settings := by
  cases v with
  | fetch eip =>
      obtain ⟨⟨f, e₁⟩, hf, hv⟩ := bind_eq_ok_iff.mp hv
      cases hv
      rcases of_fetch_ok h hf with ⟨_, rfl⟩ | ⟨_, _, _, _, _, _, _, _, rfl⟩
      · rfl
      · rfl
  | discard id =>
      obtain ⟨_, _, hv⟩ := bind_eq_ok_iff.mp hv
      cases hv
      rfl
  | write _ _ _ _ | invalidate _ _ | flush =>
      cases hv
      rfl

/-- The countdown of every watch in use is what is left of the delay. -/
def Counts (e : Emulator) (log : List Moment) : Prop :=
  ∀ page id, e.memory.watch? page = some id →
    (e.watches.watch id).countdown + idled id log = e.settings.releaseDelay.toNat ∧
      0 < (e.watches.watch id).countdown

theorem Counts.concat {e e' : Emulator} {log : List Moment} (hcounts : e.Counts log) {v : Event}
    (ht : (⟨e, v⟩ : Moment).Ticks e') (hs : e'.settings = e.settings)
    (hdelay : 0 < e.settings.releaseDelay.toNat) : e'.Counts (log ++ [⟨e, v⟩]) := by
  intro page id hid
  rw [idled_concat, hs]
  by_cases hrestarts : (⟨e, v⟩ : Moment).restarts id
  · have hanew : (e'.watches.watch id).countdown = e.settings.releaseDelay.toNat :=
      ht.anew page id hid hrestarts
    rw [if_pos hrestarts, hanew]
    exact ⟨rfl, hdelay⟩
  · have hwas : e.memory.watch? page = some id :=
      (ht.put page id hid).resolve_right fun hi => hrestarts (Or.inl hi)
    obtain ⟨hleft, hpos⟩ := hcounts page id hwas
    rw [if_neg hrestarts]
    by_cases hidle : (⟨e, v⟩ : Moment).idles id
    · obtain ⟨hone, hpos⟩ := ht.counts page id hid hrestarts hidle
      have hone : (e'.watches.watch id).countdown + 1 = (e.watches.watch id).countdown := hone
      rw [if_pos hidle]
      exact ⟨by omega, hpos⟩
    · have hsame : (e'.watches.watch id).countdown = (e.watches.watch id).countdown :=
        ht.stands page id hid hrestarts hidle
      rw [if_neg hidle, hsame]
      exact ⟨hleft, hpos⟩

/-- **A watch counts down what the log tells,** from a start where no page is under one. -/
theorem Course.counts {e e' : Emulator} {log : List Moment} (h : Course e log e')
    (he : e.Pooled) (hnone : ∀ page, e.memory.watch? page = none)
    (hwithin : ∀ m ∈ log, m.within = true) :
    e'.Pooled ∧ e'.settings = e.settings ∧ e'.Counts log := by
  induction h with
  | refl =>
      refine ⟨he, rfl, fun page id hid => ?_⟩
      rw [hnone] at hid
      cases hid
  | @event log e₁ e₂ v _ hv ih =>
      obtain ⟨hpooled, hsettings, hcounts⟩ := ih fun m hm => hwithin m (List.mem_append_left _ hm)
      have hlast := hwithin ⟨e₁, v⟩ (List.mem_append_right _ (List.mem_singleton_self _))
      have hsame := hpooled.coherent.settings_undergo hv
      refine ⟨hpooled.undergo hv, hsame.trans hsettings,
        hcounts.concat (hpooled.ticks_undergo hv hlast) hsame ?_⟩
      exact Nat.pos_of_ne_zero fun hz => hpooled.coherent.settings.delay (UInt32.toNat_inj.mp hz)
  | context _ context ih =>
      obtain ⟨hpooled, hsettings, hcounts⟩ := ih hwithin
      exact ⟨hpooled.setContext context, hsettings, hcounts⟩
  | count _ f ih =>
      obtain ⟨hpooled, hsettings, hcounts⟩ := ih hwithin
      exact ⟨⟨hpooled.coherent.count f, hpooled.recorded⟩, hsettings, hcounts⟩
  | link _ hl ih =>
      obtain ⟨hpooled, hsettings, hcounts⟩ := ih hwithin
      have hlinked := hpooled.link hl
      obtain ⟨_, _, hl⟩ := bind_eq_ok_iff.mp hl
      cases hl
      exact ⟨hlinked, hsettings, hcounts⟩

/-! ## The result -/

/-- What becomes of the pages under watches in an event, given the log of what was
before. -/
structure Moment.Disposes (m : Moment) (earlier : List Moment) (e' : Emulator) : Prop where
  put : ∀ page id, e'.memory.watch? page = some id →
    m.state.memory.watch? page = some id ∨ m.installs id
  kept : ∀ page id, m.state.memory.watch? page = some id →
    e'.memory.watch? page = some id ∨ e'.memory.watch? page = none
  /-- A watch goes with the last write that counts, or is taken for another page, or all
  code is discarded. -/
  gone : ∀ page id, m.state.memory.watch? page = some id → (e'.memory.watch? page = none ↔
    m.idles id ∧ idled id earlier + 1 = m.state.settings.releaseDelay.toNat ∨
      m.reclaims id ∨ m.event = .flush)
  /-- Then there is no code of the page, no flag, and no memory of changes. -/
  bare : ∀ page id, m.state.memory.watch? page = some id → e'.memory.watch? page = none →
    (∀ b src, e'.arena.sourceOf b = some src → src.page ≠ page) ∧
      (e'.memory.flags page).testBit 2 = false ∧ (e'.watches.watch id).changes = none

theorem Moment.Ticks.disposes {m : Moment} {earlier : List Moment} {e' : Emulator}
    (h : m.Ticks e') (hcounts : m.state.Counts earlier) (he : e'.Coherent) :
    m.Disposes earlier e' := by
  constructor
  case put => exact h.put
  case kept => exact h.kept
  case gone =>
    intro page id hid
    obtain ⟨hleft, hpos⟩ := hcounts page id hid
    rw [h.gone page id hid]
    refine or_congr (and_congr_right fun _ => ?_) Iff.rfl
    omega
  case bare =>
    intro page id hid hnone
    refine ⟨fun b src hs hpage => ?_, ?_, h.forgets page id hid hnone⟩
    · have hwatch : e'.memory.watch? src.page = some src.watch := he.guarded.watch?_page hs
      rw [hpage, hnone] at hwatch
      cases hwatch
    · refine (he.guarded.testBit_flags page).trans ?_
      rw [show e'.guarded.memory.watch? page = none from hnone]
      rfl

/-- **When a watch is released.**  Take the log of whatever was done to a new emulator,
with the bytes of a write over the edge of a page one by one.  At each entry, a page
goes from under its watch exactly if the entry is a write that changes the page while
the watch indexes nothing, and is the last of as many as the delay says since the watch
was put up or a block of it ended; or if the watch is taken for another page, being the
oldest where none is free; or if all code is discarded. -/
theorem disposes_of_new {settings : Settings} {memory : Memory} {decoder : Decoder} {e₀ : Emulator}
    (hm : memory.Unwatched) (hn : Emulator.new settings memory decoder = .ok e₀) :
    (∀ as e, e₀.performAll as = .ok e → Course e₀ (e₀.logAll as) e) ∧
    ∀ log e, Course e₀ log e → ∀ earlier m later,
      log.flatMap Moment.strokes = earlier ++ m :: later →
      ∃ e', m.state.undergo m.event = .ok e' ∧ Course e₀ earlier m.state ∧ Course e' later e ∧
        m.within = true ∧ m.Disposes earlier e' := by
  refine ⟨fun as e hp => course_performAll hp, fun log e hcourse earlier m later hlog => ?_⟩
  have hstrokes := hcourse.strokes
  have hwithin : ∀ x ∈ earlier ++ m :: later, x.within = true := by
    intro x hx
    rw [← hlog] at hx
    obtain ⟨y, _, hx⟩ := List.mem_flatMap.mp hx
    exact Moment.within_of_mem_strokes hx
  have hunwatched : ∀ page, e₀.memory.watch? page = none := by
    unfold Emulator.new at hn
    cases hobjection : settings.objection? with
    | some _ =>
        rw [hobjection] at hn
        cases hn
    | none =>
        rw [hobjection] at hn
        cases hn
        exact hm.watch
  have hfirst := hstrokes.before hlog
  obtain ⟨e', hundergo, hlast⟩ := hstrokes.after hlog
  obtain ⟨hpooled, _, hcounts⟩ := hfirst.counts (.new hm hn) hunwatched fun x hx =>
    hwithin x (List.mem_append_left _ hx)
  have hmwithin := hwithin m (List.mem_append_right _ List.mem_cons_self)
  have hticks := hpooled.ticks_undergo hundergo hmwithin
  exact ⟨e', hundergo, hfirst, hlast, hmwithin,
    hticks.disposes hcounts (hpooled.undergo hundergo).coherent⟩

/-- A block is compiled and torn down, and then the page changes fourteen times, and twice
more by one write over its end. -/
def abandoned : List Action :=
  [.fetch 0, .discard ⟨2⟩] ++
    (List.range 14).map (fun n => .write .byte 0x800 (n + 1).toUInt32) ++
    [.write .long 0xFFE 0x01010101]

/-- The second byte of that write is the one that releases the watch. -/
theorem disposes_of_abandoned :
    ∃ e earlier m later e', zeroed.performAll abandoned = .ok e ∧
      Course zeroed (zeroed.logAll abandoned) e ∧
      (zeroed.logAll abandoned).flatMap Moment.strokes = earlier ++ m :: later ∧
      m.event = .write .byte 0xFFF 1 none ∧ m.state.undergo m.event = .ok e' ∧
      m.state.memory.watch? 0 = some ⟨0⟩ ∧ m.idles ⟨0⟩ ∧ idled ⟨0⟩ earlier + 1 = 16 ∧
      e'.memory.watch? 0 = none ∧ m.Disposes earlier e' := by
  obtain ⟨e, he, htest⟩ := exists_of_succeeds (x := zeroed.performAll abandoned)
    (p := fun _ =>
      let log := (zeroed.logAll abandoned).flatMap Moment.strokes
      log[17]?.any fun m : Moment =>
        decide (m.event = .write .byte 0xFFF 1 none) &&
        decide (m.state.memory.watch? 0 = some ⟨0⟩) && decide (m.idles ⟨0⟩) &&
        decide (idled ⟨0⟩ (log.take 17) + 1 = 16) &&
        decide (m.state.settings.releaseDelay.toNat = 16)) (by decide +kernel)
  obtain ⟨m, hm, htest⟩ := Option.any_eq_true .. |>.mp htest
  simp only [Bool.and_eq_true, decide_eq_true_eq] at htest
  obtain ⟨⟨⟨⟨hevent, hwatch⟩, hidles⟩, hcount⟩, hdelay⟩ := htest
  obtain ⟨hcourse, hdisposes⟩ := disposes_of_new unwatched_zeroed new_zeroed
  have hlog : (zeroed.logAll abandoned).flatMap Moment.strokes =
      ((zeroed.logAll abandoned).flatMap Moment.strokes).take 17 ++
        m :: ((zeroed.logAll abandoned).flatMap Moment.strokes).drop 18 := by
    obtain ⟨hlt, rfl⟩ := List.getElem?_eq_some_iff.mp hm
    rw [← List.drop_eq_getElem_cons hlt, List.take_append_drop]
  obtain ⟨e', hundergo, _, _, _, hm⟩ := hdisposes _ e (hcourse _ e he) _ m _ hlog
  have hgone := (hm.gone 0 ⟨0⟩ hwatch).mpr (Or.inl ⟨hidles, hcount.trans hdelay.symm⟩)
  exact ⟨e, _, m, _, e', he, hcourse _ e he, hlog, hevent, hundergo, hwatch, hidles, hcount, hgone,
    hm⟩

end Emulator

end Recompiler
