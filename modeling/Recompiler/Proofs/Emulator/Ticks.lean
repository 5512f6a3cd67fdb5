import Recompiler.Proofs.Emulator.Lifetime
import Recompiler.Proofs.Emulator.Strokes
import Recompiler.Proofs.Guarded.Flush
import Recompiler.Proofs.Guarded.Countdown

/-!
# What an event does to the watches

An event may put a watch up, take blocks off watches, or find one idle.  For every
kind of event it is told which pages are under which watch afterwards, and what each
counts then: a watch that was put up or lost a block starts anew, one that was found
idle by a write has one write less to go, and any other stands where it stood.
-/

namespace Recompiler

namespace Emulator

/-! ## What counts -/

namespace Moment

/-- Whether an event puts a watch up: a look-up that compiles code from a page that is
under none puts up the first watch that is free, or else the oldest in use. -/
def installs : Moment → WatchId → Prop
  | ⟨e, .fetch eip⟩, id =>
      e.compiles eip ∧ e.memory.watch? (pageOf eip) = none ∧
        (e.watches.free ++ e.watches.used).head? = some id
  | _, _ => False

/-- Whether an event takes a watch in use for another page. -/
def reclaims (m : Moment) (id : WatchId) : Prop := m.installs id ∧ m.state.watches.free = []

/-- Whether an event ends a block that a watch indexes. -/
def loses (m : Moment) (id : WatchId) : Prop :=
  ∃ b ∈ (m.state.watches.watch id).blocks, m.ends b

/-- Whether a watch starts to count anew. -/
def restarts (m : Moment) (id : WatchId) : Prop := m.installs id ∨ m.loses id

/-- Whether an event is a write that changes the page of a watch which indexes
nothing. -/
def idles : Moment → WatchId → Prop
  | ⟨e, .write width addr value _⟩, id => e.guarded.Idles id width addr value
  | _, _ => False

instance : (m : Moment) → (id : WatchId) → Decidable (m.installs id)
  | ⟨_, .fetch _⟩, _ => inferInstanceAs (Decidable (_ ∧ _))
  | ⟨_, .write ..⟩, _ | ⟨_, .invalidate ..⟩, _ | ⟨_, .discard _⟩, _ | ⟨_, .flush⟩, _ =>
      inferInstanceAs (Decidable False)

instance (m : Moment) (id : WatchId) : Decidable (m.reclaims id) :=
  inferInstanceAs (Decidable (_ ∧ _))

instance (m : Moment) (id : WatchId) : Decidable (m.loses id) :=
  inferInstanceAs (Decidable (∃ b ∈ _, m.ends b))

instance (m : Moment) (id : WatchId) : Decidable (m.restarts id) :=
  inferInstanceAs (Decidable (_ ∨ _))

instance : (m : Moment) → (id : WatchId) → Decidable (m.idles id)
  | ⟨e, .write width addr value _⟩, id =>
      inferInstanceAs (Decidable (e.guarded.Idles id width addr value))
  | ⟨_, .fetch _⟩, _ | ⟨_, .invalidate ..⟩, _ | ⟨_, .discard _⟩, _ | ⟨_, .flush⟩, _ =>
      inferInstanceAs (Decidable False)

end Moment

/-! ## One event -/

/-- What an event does to the watches: which pages are under which, and what these
count. -/
structure Moment.Ticks (m : Moment) (e' : Emulator) : Prop where
  kept : ∀ page id, m.state.memory.watch? page = some id →
    e'.memory.watch? page = some id ∨ e'.memory.watch? page = none
  put : ∀ page id, e'.memory.watch? page = some id →
    m.state.memory.watch? page = some id ∨ m.installs id
  gone : ∀ page id, m.state.memory.watch? page = some id → (e'.memory.watch? page = none ↔
    m.idles id ∧ (m.state.watches.watch id).countdown ≤ 1 ∨ m.reclaims id ∨ m.event = .flush)
  forgets : ∀ page id, m.state.memory.watch? page = some id → e'.memory.watch? page = none →
    (e'.watches.watch id).changes = none
  anew : ∀ page id, e'.memory.watch? page = some id → m.restarts id →
    (e'.watches.watch id).countdown = m.state.settings.releaseDelay.toNat
  counts : ∀ page id, e'.memory.watch? page = some id → ¬m.restarts id → m.idles id →
    (e'.watches.watch id).countdown + 1 = (m.state.watches.watch id).countdown ∧
      0 < (e'.watches.watch id).countdown
  stands : ∀ page id, e'.memory.watch? page = some id → ¬m.restarts id → ¬m.idles id →
    (e'.watches.watch id).countdown = (m.state.watches.watch id).countdown

namespace Moment

variable {m : Moment} {e' : Emulator}

/-- An event that leaves every page under its watch, but for those of some watches. -/
theorem Ticks.of_watch? (gone : WatchId → Prop) [DecidablePred gone]
    (hwatch : ∀ page id, m.state.memory.watch? page = some id →
      e'.memory.watch? page = if gone id then none else some id)
    (hput : ∀ page id, e'.memory.watch? page = some id →
      m.state.memory.watch? page = some id ∨ m.installs id)
    (hgone : ∀ id, gone id ↔ m.idles id ∧ (m.state.watches.watch id).countdown ≤ 1 ∨
      m.reclaims id ∨ m.event = .flush)
    (hforgets : ∀ id, gone id → (e'.watches.watch id).changes = none)
    (hanew : ∀ page id, e'.memory.watch? page = some id → m.restarts id →
      (e'.watches.watch id).countdown = m.state.settings.releaseDelay.toNat)
    (hcounts : ∀ page id, e'.memory.watch? page = some id → ¬m.restarts id → m.idles id →
      (e'.watches.watch id).countdown + 1 = (m.state.watches.watch id).countdown ∧
        0 < (e'.watches.watch id).countdown)
    (hstands : ∀ page id, e'.memory.watch? page = some id → ¬m.restarts id → ¬m.idles id →
      (e'.watches.watch id).countdown = (m.state.watches.watch id).countdown) : m.Ticks e' := by
  have hnone : ∀ page id, m.state.memory.watch? page = some id →
      (e'.memory.watch? page = none ↔ gone id) := by
    intro page id hid
    rw [hwatch page id hid, ite_eq_left_iff]
    exact ⟨fun h => not_not.mp fun hn => Option.some_ne_none id (h hn), fun h hn => absurd h hn⟩
  refine ⟨fun page id hid => ?_, hput, fun page id hid => (hnone page id hid).trans (hgone id),
    fun page id hid he => hforgets id ((hnone page id hid).mp he), hanew, hcounts, hstands⟩
  rw [hwatch page id hid]
  split
  · exact Or.inr rfl
  · exact Or.inl rfl

/-- Most events put no watch up and find none idle. -/
theorem Ticks.of_continues (h : m.state.Pooled)
    (hw : ∀ page, e'.memory.watch? page = m.state.memory.watch? page)
    (hc : ∀ id, (m.state.watches.watch id).Continues (e'.watches.watch id) (m.loses id))
    (hinstalls : ∀ id, ¬m.installs id) (hidles : ∀ id, ¬m.idles id)
    (hflush : m.event ≠ .flush) : m.Ticks e' := by
  apply Ticks.of_watch? fun _ => False
  case hwatch => exact fun page _ hid => (hw page).trans hid
  case hput => exact fun page _ hid => Or.inl ((hw page).symm.trans hid)
  case hgone =>
    refine fun id => (iff_false_intro ?_).symm
    rintro (⟨hidle, _⟩ | ⟨hinstall, _⟩ | he)
    · exact hidles id hidle
    · exact hinstalls id hinstall
    · exact hflush he
  case hforgets => exact fun _ => False.elim
  case hanew =>
    intro page id hid hrestarts
    rw [hw] at hid
    rw [(hc id).anew (hrestarts.resolve_left (hinstalls id))]
    exact h.guarded.delay_eq hid
  case hcounts => exact fun _ id _ _ hidle => absurd hidle (hidles id)
  case hstands =>
    intro page id _ hrestarts _
    exact (hc id).stands fun hloses => hrestarts (Or.inr hloses)

end Moment

/-- What a watch loses is what is ended of the blocks that name it. -/
theorem Coherent.loses_iff {e : Emulator} (h : e.Coherent) (v : Event) (id : WatchId) :
    (⟨e, v⟩ : Moment).loses id ↔
      ∃ b src, e.arena.sourceOf b = some src ∧ src.watch = id ∧ (⟨e, v⟩ : Moment).ends b := by
  refine exists_congr fun b => ?_
  rw [show (⟨e, v⟩ : Moment).state.watches = e.guarded.code.watches from rfl,
    h.guarded.mem_blocks_iff]
  constructor
  · rintro ⟨⟨src, hs, hw⟩, hends⟩
    exact ⟨src, hs, hw, hends⟩
  · rintro ⟨src, hs, hw, hends⟩
    exact ⟨⟨src, hs, hw⟩, hends⟩

/-- **What is overwritten is lost** when a block is compiled, and nothing else is lost to
a watch but to the one that is put up. -/
theorem Coherent.loses_fetch_iff {e : Emulator} (h : e.Coherent) {eip : UInt32}
    (hc : e.compiles eip) {id : WatchId}
    (hid : e.memory.watch? (pageOf eip) = none →
      (e.watches.free ++ e.watches.used).head? ≠ some id) :
    (⟨e, .fetch eip⟩ : Moment).loses id ↔ e.guarded.code.Overwrites id := by
  rw [h.loses_iff]
  constructor
  · rintro ⟨b, src, hs, hw, _, hreclaimed | hover⟩
    · obtain ⟨hnone, hfree, holdest⟩ := h.guarded.oldest_of_reclaimed hs hreclaimed
      refine absurd ?_ (hid hnone)
      rw [← hw, show e.watches.free = [] from hfree]
      exact holdest
    · exact ⟨b, src, hover, hs, hw⟩
  · rintro ⟨b, src, hover, hs, hw⟩
    exact ⟨b, src, hs, hw, hc, Or.inr hover⟩

namespace Pooled

variable {e e' : Emulator} (h : e.Pooled)

include h

/-! ### Look-ups -/

omit h in
theorem installs_iff {eip : UInt32} (hc : e.compiles eip) {w : WatchId} {guarded : GuardedMemory}
    (hp : GuardedMemory.PutAnew e.settings e.guarded (pageOf eip) w guarded) (id : WatchId) :
    (⟨e, .fetch eip⟩ : Moment).installs id ↔ id = w := by
  constructor
  · rintro ⟨_, _, hnext⟩
    exact Option.some.inj (hnext.symm.trans hp.next)
  · rintro rfl
    exact ⟨hc, hp.unwatched, hp.next⟩

theorem ticks_install {eip : UInt32} (hc : e.compiles eip) {w : WatchId}
    {guarded : GuardedMemory} {code : CodeStore}
    (hp : GuardedMemory.PutAnew e.settings e.guarded (pageOf eip) w guarded)
    (hcounts : ∀ id, (guarded.code.watches.watch id).Continues (code.watches.watch id)
      (guarded.code.Overwrites id) ∧
        (code.watches.watch id).changes = (guarded.code.watches.watch id).changes) :
    (⟨e, .fetch eip⟩ : Moment).Ticks { e with guarded := { guarded with code } } := by
  have hinstalls := installs_iff hc hp
  have hloses : ∀ id, id ≠ w →
      ((⟨e, .fetch eip⟩ : Moment).loses id ↔ guarded.code.Overwrites id) := fun id hne =>
    (h.coherent.loses_fetch_iff hc fun _ hnext =>
      hne (Option.some.inj (hnext.symm.trans hp.next))).trans (hp.overwrites id hne).symm
  apply Moment.Ticks.of_watch? fun id => e.watches.free = [] ∧ id = w
  case hwatch => exact fun page id hid => hp.watch?_of_some hid
  case hput => exact fun page id hid => (hp.watch?_cases hid).imp_right (hinstalls id).mpr
  case hgone =>
    intro id
    constructor
    · rintro ⟨hfree, hid⟩
      exact Or.inr (Or.inl ⟨(hinstalls id).mpr hid, hfree⟩)
    · rintro (⟨hidle, _⟩ | ⟨hinstall, hfree⟩ | hflush)
      · exact hidle.elim
      · exact ⟨hfree, (hinstalls id).mp hinstall⟩
      · cases hflush
  case hforgets =>
    rintro id ⟨_, hid⟩
    have hsame := (hcounts w).2
    rw [hp.fresh] at hsame
    rw [hid]
    exact hsame
  case hanew =>
    intro page id hid hrestarts
    by_cases hw : id = w
    · have hfresh := (hcounts w).1.countdown_of_eq_delay (by rw [hp.fresh]; rfl)
      rw [hp.fresh] at hfresh
      rw [hw]
      exact hfresh
    · have hold := (hloses id hw).mp (hrestarts.resolve_left fun hi => hw ((hinstalls id).mp hi))
      have hanew := (hcounts id).1.anew hold
      rw [hp.others id hw] at hanew
      exact hanew.trans (h.guarded.delay_eq ((hp.watch?_cases hid).resolve_right hw))
  case hcounts => exact fun _ _ _ _ hidle => absurd hidle id
  case hstands =>
    intro page id _ hrestarts _
    have hw : id ≠ w := fun he => hrestarts (Or.inl ((hinstalls id).mpr he))
    have hkeeps : ¬guarded.code.Overwrites id := fun ho =>
      hrestarts (Or.inr ((hloses id hw).mpr ho))
    refine ((hcounts id).1.stands hkeeps).trans ?_
    rw [hp.others id hw]
    rfl

theorem ticks_fetch {eip : UInt32} {f : Fetched} (hf : e.fetch eip = .ok (f, e')) :
    (⟨e, .fetch eip⟩ : Moment).Ticks e' := by
  by_cases hc : e.compiles eip
  · obtain ⟨w, guarded, page, b, code, hw, hwatched, hcompile, rfl⟩ :=
      of_fetch_not_find? h.coherent hc.1 hc.2.1 hc.2.2 hf
    have hused := ((hwatched.coherent.mapped _ _).mp hwatched.watch).1
    have hcounts := hwatched.coherent.store.counts_compile hused hcompile
    cases hwatch : e.memory.watch? (pageOf eip) with
    | none => exact h.ticks_install hc (h.guarded.putAnew hwatch hw) hcounts
    | some x =>
        rcases h.coherent.guarded.watchPage_cases hw with ⟨_, rfl⟩ | ⟨hnone, _⟩ | ⟨hnone, _⟩
        · refine .of_continues h (fun _ => rfl) (fun id => (hcounts id).1.congr ?_) (fun id hi => ?_)
            (fun _ => id) ?_
          · refine h.coherent.loses_fetch_iff hc fun hnone => ?_
            rw [hwatch] at hnone
            cases hnone
          · rw [hi.2.1] at hwatch
            cases hwatch
          · intro he
            cases he
        · cases hnone.symm.trans hwatch
        · cases hnone.symm.trans hwatch
  · obtain ⟨g, rfl⟩ := eq_count_of_not_compiles hc hf
    refine .of_continues h (fun _ => rfl) (fun id => .refl _ ?_) (fun _ hi => hc hi.1)
      (fun _ => id) ?_
    · rintro ⟨b, _, hends⟩
      exact hc hends.1
    · intro he
      cases he

/-! ### Writes -/

section Write

variable {width : Width} {addr : UInt32} (hc : GuardedMemory.crossesPage width addr = false)
  (value : UInt32) (running : Option BlockId)

include hc

theorem continues_write {id : WatchId} (hn : ¬e.guarded.Idles id width addr value) :
    (e.watches.watch id).Continues
      ((e.guarded.write width addr value running).2.code.watches.watch id)
      ((⟨e, .write width addr value running⟩ : Moment).loses id) := by
  obtain ⟨freed, hfreed⟩ := h.coherent.guarded.freed_write width addr value running
  rw [GuardedMemory.write_of_within _ hc] at hfreed ⊢
  refine (h.coherent.guarded.continues_writeWithin hc value running hn).congr ?_
  rw [h.coherent.loses_iff, hfreed.loses_iff]
  refine exists_congr fun b => exists_congr fun src => and_congr_right fun hs =>
    and_congr_right fun _ => ?_
  constructor
  · rintro ⟨src', hs', hmeets⟩
    rw [hs, Option.some.injEq] at hs'
    exact hs' ▸ hmeets
  · exact fun hmeets => ⟨src, hs, hmeets⟩

omit h hc in
theorem idles_iff {w : WatchId} (hi : e.guarded.Idles w width addr value) (id : WatchId) :
    (⟨e, .write width addr value running⟩ : Moment).idles id ↔ id = w := by
  constructor
  · exact fun hidle => Option.some.inj (hidle.1.symm.trans hi.1)
  · rintro rfl
    exact hi

theorem watch?_write_of_idles {w : WatchId} (hi : e.guarded.Idles w width addr value) {page : Nat}
    {id : WatchId} (hid : e.memory.watch? page = some id) :
    (e.guarded.write width addr value running).2.memory.watch? page =
      if (e.watches.watch w).countdown ≤ 1 ∧ id = w then none else some id := by
  rw [GuardedMemory.write_of_within e.guarded hc value running]
  exact h.coherent.guarded.watch?_writeWithin_of_idles_of_some hc value running hi hid

theorem watch?_of_write_of_idles {w : WatchId} (hi : e.guarded.Idles w width addr value)
    {page : Nat} {id : WatchId}
    (hid : (e.guarded.write width addr value running).2.memory.watch? page = some id) :
    e.memory.watch? page = some id := by
  rw [GuardedMemory.write_of_within e.guarded hc value running,
    h.coherent.guarded.watch?_writeWithin_of_idles hc value running hi,
    Option.ite_none_left_eq_some] at hid
  exact hid.2

theorem countdown_write_of_idles {w : WatchId} (hi : e.guarded.Idles w width addr value)
    {page : Nat}
    (hid : (e.guarded.write width addr value running).2.memory.watch? page = some w) :
    ((e.guarded.write width addr value running).2.code.watches.watch w).countdown + 1 =
        (e.watches.watch w).countdown ∧
      0 < ((e.guarded.write width addr value running).2.code.watches.watch w).countdown := by
  have hmore : 1 < (e.watches.watch w).countdown := by
    have hwatch := h.watch?_write_of_idles hc value running hi
      (h.watch?_of_write_of_idles hc value running hi hid)
    rw [hid, eq_comm, Option.ite_none_left_eq_some] at hwatch
    exact Nat.not_le.mp fun hle => hwatch.1 ⟨hle, rfl⟩
  rw [GuardedMemory.write_of_within e.guarded hc value running,
    h.coherent.guarded.countdown_writeWithin_of_idles hc value running hi hmore]
  exact ⟨Nat.sub_add_cancel (Nat.le_of_lt hmore), Nat.sub_pos_of_lt hmore⟩

theorem ticks_idle {w : WatchId} (hi : e.guarded.Idles w width addr value) :
    (⟨e, .write width addr value running⟩ : Moment).Ticks
      { e with guarded := (e.guarded.write width addr value running).2 } := by
  have hg := h.coherent.guarded
  have hwrite := GuardedMemory.write_of_within e.guarded hc value running
  have hidles := idles_iff value running hi
  apply Moment.Ticks.of_watch? fun id => (e.watches.watch w).countdown ≤ 1 ∧ id = w
  case hwatch => exact fun page id hid => h.watch?_write_of_idles hc value running hi hid
  case hput => exact fun _ _ hid => Or.inl (h.watch?_of_write_of_idles hc value running hi hid)
  case hgone =>
    intro id
    constructor
    · rintro ⟨hlast, rfl⟩
      exact Or.inl ⟨hi, hlast⟩
    · rintro (⟨hidle, hlast⟩ | ⟨hinstall, _⟩ | hflush)
      · obtain rfl := (hidles id).mp hidle
        exact ⟨hlast, rfl⟩
      · exact hinstall.elim
      · cases hflush
  case hforgets =>
    rintro _ ⟨hlast, rfl⟩
    have hforgets := hg.changes_writeWithin_of_idles hc value running hi hlast
    rw [← hwrite] at hforgets
    exact hforgets
  case hanew =>
    intro page x hid hrestarts
    have hloses : (⟨e, .write width addr value running⟩ : Moment).loses x :=
      hrestarts.resolve_left id
    have hn : ¬e.guarded.Idles x width addr value := by
      rintro ⟨_, _, hnone⟩
      obtain ⟨b, hb, _⟩ := hloses
      exact List.not_mem_nil (hnone ▸ hb)
    exact ((h.continues_write hc value running hn).anew hloses).trans
      (h.guarded.delay_eq (h.watch?_of_write_of_idles hc value running hi hid))
  case hcounts =>
    intro page id hid _ hidle
    obtain rfl := (hidles id).mp hidle
    exact h.countdown_write_of_idles hc value running hi hid
  case hstands =>
    intro page id _ hrestarts hn
    exact (h.continues_write hc value running hn).stands fun hloses => hrestarts (Or.inr hloses)

theorem ticks_write :
    (⟨e, .write width addr value running⟩ : Moment).Ticks
      { e with guarded := (e.guarded.write width addr value running).2 } := by
  by_cases hi : ∃ w, e.guarded.Idles w width addr value
  · obtain ⟨w, hi⟩ := hi
    exact h.ticks_idle hc value running hi
  · rw [not_exists] at hi
    refine .of_continues h (fun page => ?_) (fun id => h.continues_write hc value running (hi id))
      (fun _ => id) hi ?_
    · show (e.guarded.write width addr value running).2.memory.watch? page = _
      rw [GuardedMemory.write_of_within _ hc]
      exact h.coherent.guarded.watch?_writeWithin hc value running hi page
    · intro he
      cases he

end Write

/-! ### All else -/

theorem ticks_invalidate (start stop : UInt32) :
    (⟨e, .invalidate start stop⟩ : Moment).Ticks (e.invalidate start stop).2 := by
  have hg := h.coherent.guarded
  obtain ⟨freed, _, hmet, _, _, hfrees⟩ := hg.frees_invalidateRange start stop e.running?
  refine .of_continues h (fun page => ?_) (fun id => ?_) (fun _ => id) (fun _ => id) ?_
  · show (e.guarded.invalidate start stop e.running?).2.2.memory.watch? page = _
    rw [e.guarded.memory_invalidate]
    rfl
  · refine ((hg.strips_invalidateRange start stop e.running?).continues id).congr ?_
    rw [h.coherent.loses_iff, hfrees.loses_iff]
    exact exists_congr fun b => exists_congr fun src => and_congr_right fun _ =>
      and_congr_right fun _ => (hmet b).symm
  · intro he
    cases he

theorem ticks_discard {b : BlockId} (hd : e.discard b = .ok e') :
    (⟨e, .discard b⟩ : Moment).Ticks e' := by
  obtain ⟨code, hcode, hd⟩ := bind_eq_ok_iff.mp hd
  cases hd
  have hstore := h.coherent.guarded.store
  refine .of_continues h (fun _ => rfl) (fun id => ?_) (fun _ => id) (fun _ => id) ?_
  · refine ((hstore.indexed.filed.strips_discard hcode).continues id).congr ?_
    rw [h.coherent.loses_iff, hstore.loses_discard_iff hcode]
    constructor
    · rintro ⟨_, src, hs, hw, rfl⟩
      exact ⟨src, hs, hw⟩
    · rintro ⟨src, hs, hw⟩
      exact ⟨b, src, hs, hw, rfl⟩
  · intro he
    cases he

theorem ticks_flush : (⟨e, .flush⟩ : Moment).Ticks e.flush := by
  have hnone : ∀ page, e.flush.memory.watch? page = none := h.coherent.guarded.watch?_flush
  have hno : ∀ {P : Prop} page id, e.flush.memory.watch? page = some id → P := by
    intro P page id hid
    rw [hnone] at hid
    cases hid
  apply Moment.Ticks.of_watch? fun _ => True
  case hwatch => exact fun page _ _ => hnone page
  case hput => exact fun page id hid => hno page id hid
  case hgone => exact fun id => iff_of_true trivial (Or.inr (Or.inr rfl))
  case hforgets =>
    intro id _
    rw [show e.flush.watches = (e.guarded.discarded e.settings.releaseDelay.toNat).code.watches from
      congrArg (fun g : GuardedMemory => g.code.watches) h.guarded.flush_eq]
    unfold Watches.watch GuardedMemory.discarded
    rw [Array.getD_eq_getD_getElem?]
    cases hw : (Array.replicate e.guarded.code.watches.capacity
        (Watch.fresh 0 e.settings.releaseDelay.toNat))[id.number]? with
    | none => rfl
    | some w =>
        rw [Array.eq_of_mem_replicate (Array.mem_of_getElem? hw)]
        rfl
  case hanew => exact fun page id hid => hno page id hid
  case hcounts => exact fun page id hid => hno page id hid
  case hstands => exact fun page id hid => hno page id hid

/-- **What any event does to the watches,** if it is no write over the edge of a page. -/
theorem ticks_undergo {v : Event} (hv : e.undergo v = .ok e')
    (hw : (⟨e, v⟩ : Moment).within = true) : (⟨e, v⟩ : Moment).Ticks e' := by
  cases v with
  | fetch eip =>
      obtain ⟨⟨f, e₁⟩, hf, hv⟩ := bind_eq_ok_iff.mp hv
      cases hv
      exact h.ticks_fetch hf
  | write width addr value running =>
      cases hv
      exact h.ticks_write (Bool.not_eq_true' _ ▸ hw) value running
  | invalidate start stop =>
      cases hv
      exact h.ticks_invalidate start stop
  | discard id => exact h.ticks_discard hv
  | flush =>
      cases hv
      exact h.ticks_flush

theorem undergo {v : Event} (hv : e.undergo v = .ok e') : e'.Pooled := by
  cases v with
  | fetch eip => exact h.perform (h.coherent.perform_eq (a := .fetch eip) hv)
  | write width addr value running =>
      cases hv
      exact h.write width addr value running
  | invalidate start stop =>
      exact h.perform (h.coherent.perform_eq (a := .invalidate start stop) hv)
  | discard id => exact h.discard hv
  | flush => exact h.perform (h.coherent.perform_eq (a := .flush) hv)

end Pooled

end Emulator

end Recompiler
