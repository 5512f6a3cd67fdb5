import Recompiler.Proofs.Emulator.Course
import Recompiler.Proofs.Emulator.Pool
import Recompiler.Proofs.Guarded.Range
import Recompiler.Proofs.Store.Overwritten

/-!
# How long a block lives

A block that is compiled stays compiled, under its name, in its place and with its
code, and is found where it starts, until one of a few things happens: a byte it
was compiled from changes or is invalidated, it is discarded, its region is needed
for another block, the watch of its page is needed for another page, or all code is
flushed.  Until then every look-up of its start answers with it, and does nothing
but count.
-/

namespace Recompiler

namespace GuardedMemory

/-- The blocks that go when a page comes under a watch: none, unless it is under
none and no watch is free; then those of the watch that was put up first. -/
def reclaimed (g : GuardedMemory) (page : Nat) : List BlockId :=
  match g.memory.watch? page, g.code.watches.free, g.code.watches.used with
  | none, [], oldest :: _ => (g.code.watches.watch oldest).blocks
  | _, _, _ => []

/-- The blocks that go are those of the watch that was put up first. -/
theorem Coherent.oldest_of_reclaimed {l : Limits} {g : GuardedMemory} (h : g.Coherent l)
    {page : Nat} {b : BlockId} {src : Source} (hs : g.code.arena.sourceOf b = some src)
    (hb : b ∈ g.reclaimed page) :
    g.memory.watch? page = none ∧ g.code.watches.free = [] ∧
      g.code.watches.used.head? = some src.watch := by
  unfold reclaimed at hb
  cases hw : g.memory.watch? page with
  | some x =>
      rw [hw] at hb
      cases hb
  | none =>
      cases hf : g.code.watches.free with
      | cons x rest =>
          rw [hw, hf] at hb
          cases hb
      | nil =>
          cases hu : g.code.watches.used with
          | nil =>
              rw [hw, hf, hu] at hb
              cases hb
          | cons oldest rest =>
              rw [hw, hf, hu] at hb
              obtain ⟨src', hs', hwatch⟩ := h.mem_blocks_iff.mp hb
              rw [hs, Option.some.injEq] at hs'
              exact ⟨rfl, rfl, by rw [hs', hwatch, List.head?_cons]⟩

theorem Coherent.frees_watchPage {l : Limits} {g g' : GuardedMemory} (h : g.Coherent l)
    {page : Nat} {id : WatchId} (hw : g.watchPage page = .ok (some id, g')) {b : BlockId}
    (hb : b ∉ g.reclaimed page) : ∃ freed, b ∉ freed ∧ g.code.Frees freed g'.code := by
  have hwatched := h.of_watchPage_ok hw
  have hpage := Memory.lt_pageCount_of_watch? hwatched.watch
  have hcode := hwatched.coherent.permitted page id hwatched.watch
  rw [← Memory.pageCount_bare, hwatched.bare, Memory.pageCount_bare] at hpage
  rw [← Memory.isNoCode_bare, hwatched.bare, Memory.isNoCode_bare] at hcode
  have hputs : ∃ id freed g', g.watchPage page = .ok (some id, g') ∧
      PutsUp {} g page id freed g' := h.putsUp_watchPage hpage hcode
  obtain ⟨_, freed, _, hok, hputs⟩ := hputs
  cases hok.symm.trans hw
  refine ⟨freed, fun hmem => ?_, hputs.frees⟩
  by_cases hspared : g.memory.watch? page ≠ none ∨ g.code.watches.free ≠ []
  · rw [hputs.spared hspared] at hmem
    cases hmem
  · rw [not_or, not_not, not_not] at hspared
    obtain ⟨oldest, rest, hused, _, _, hfreed⟩ := hputs.oldest hspared.1 hspared.2
    have hin : oldest ∈ g.code.watches.used := hused ▸ List.mem_cons_self
    refine hb ?_
    unfold reclaimed
    rw [hspared.1, hspared.2, hused]
    exact (h.mem_blocks_iff_page hin).mpr ((hfreed b).mp hmem)

end GuardedMemory

namespace Emulator

/-! ## What ends a block -/

def compiles (e : Emulator) (eip : UInt32) : Prop :=
  ¬e.Barred eip ∧ e.find? eip = none ∧ e.refused eip = false

/-- Whether an event ends a block, if it is compiled.

A look-up that compiles ends the blocks whose regions it takes, and those of the
page that loses its watch to it; a write those that were compiled from a byte it
changes, and the invalidation of a range those that reach into it. -/
def Moment.ends : Moment → BlockId → Prop
  | ⟨e, .fetch eip⟩, b =>
      e.compiles eip ∧ (b ∈ e.guarded.reclaimed (pageOf eip) ∨ b ∈ e.arena.overwritten)
  | ⟨e, .write width addr value _⟩, b =>
      ∃ src, e.arena.sourceOf b = some src ∧ src.meets (e.memory.changedBy width addr value)
  | ⟨e, .invalidate start stop⟩, b =>
      ∃ src, e.arena.sourceOf b = some src ∧ src.reaches start stop
  | ⟨_, .discard id⟩, b => id = b
  | ⟨_, .flush⟩, _ => True

instance (s : Source) (addrs : List UInt32) : Decidable (s.meets addrs) :=
  inferInstanceAs (Decidable (∃ a ∈ addrs, s.start ≤ a ∧ a ≤ s.stop))

instance (s : Source) (start stop : UInt32) : Decidable (s.reaches start stop) :=
  inferInstanceAs (Decidable (_ ∧ _))

instance (e : Emulator) (eip : UInt32) : Decidable (e.compiles eip) :=
  inferInstanceAs (Decidable (_ ∧ _))

instance : (m : Moment) → (b : BlockId) → Decidable (m.ends b)
  | ⟨_, .fetch _⟩, _ => inferInstanceAs (Decidable (_ ∧ _))
  | ⟨e, .write width addr value _⟩, b =>
      inferInstanceAs (Decidable (∃ src ∈ e.arena.sourceOf b,
        src.meets (e.memory.changedBy width addr value)))
  | ⟨e, .invalidate start stop⟩, b =>
      inferInstanceAs (Decidable (∃ src ∈ e.arena.sourceOf b, src.reaches start stop))
  | ⟨_, .discard id⟩, b => inferInstanceAs (Decidable (id = b))
  | ⟨_, .flush⟩, _ => inferInstanceAs (Decidable True)

/-- A look-up that compiles nothing counts the block it finds, if it finds one. -/
theorem eq_or_hit_of_not_compiles {e e' : Emulator} {eip : UInt32} {f : Fetched}
    (hn : ¬e.compiles eip) (hf : e.fetch eip = .ok (f, e')) :
    e' = e ∨ e' = e.count fun c => { c with hits := c.hits + 1 } := by
  by_cases hb : e.Barred eip
  · rw [fetch_of_barred hb] at hf
    cases hf
    exact Or.inl rfl
  · cases hfind : e.find? eip with
    | some id =>
        rw [fetch_of_find? hb hfind] at hf
        cases hf
        exact Or.inr rfl
    | none =>
        have hr : e.refused eip = true := by
          by_contra hr
          exact hn ⟨hb, hfind, Bool.eq_false_iff.mpr hr⟩
        rw [fetch_of_refuses ⟨hb, hfind, hr⟩] at hf
        cases hf
        exact Or.inl rfl

theorem eq_count_of_not_compiles {e e' : Emulator} {eip : UInt32} {f : Fetched}
    (hn : ¬e.compiles eip) (hf : e.fetch eip = .ok (f, e')) : ∃ g, e' = e.count g := by
  rcases eq_or_hit_of_not_compiles hn hf with rfl | rfl
  · exact ⟨fun c => c, rfl⟩
  · exact ⟨_, rfl⟩

/-! ## What stays -/

/-- The record of a block but for its links, and its code, are what they were. -/
structure Keeps (e : Emulator) (b : BlockId) (e' : Emulator) : Prop where
  core : (e'.arena.block b).core = (e.arena.block b).core
  code : e'.arena.code b = e.arena.code b

namespace Keeps

variable {e e' e'' : Emulator} {b : BlockId}

theorem refl (e : Emulator) (b : BlockId) : e.Keeps b e := ⟨rfl, rfl⟩

theorem count (e : Emulator) (b : BlockId) (f : Counters → Counters) : e.Keeps b (e.count f) :=
  ⟨rfl, rfl⟩

theorem trans (h : e.Keeps b e') (h' : e'.Keeps b e'') : e.Keeps b e'' :=
  ⟨h'.core.trans h.core, h'.code.trans h.code⟩

theorem isLive (h : e.Keeps b e') : e'.arena.isLive b = e.arena.isLive b :=
  Arena.isLive_eq_of_core h.core

theorem field {α : Type} (h : e.Keeps b e') (f : Descriptor → α) (hf : ∀ d, f d.core = f d) :
    f (e'.arena.block b) = f (e.arena.block b) := by
  rw [← hf, h.core, hf]

theorem of_frees {g : GuardedMemory} {freed : List BlockId}
    (hf : e.guarded.code.Frees freed g.code) (hb : b ∉ freed) :
    e.Keeps b { e with guarded := g } :=
  ⟨(hf.core b).trans (if_neg hb), hf.code b⟩

theorem of_alike {a : Arena} (ha : e.arena.Alike a) : e.Keeps b (e.modifyArena fun _ => a) :=
  ⟨(ha.core b).symm, Arena.code_eq_of_core (ha.core b).symm
    (congrArg Pen.image (Arena.pen_of_outline ha.outline).symm)⟩

end Keeps

theorem Coherent.keeps_fetch {e e' : Emulator} (h : e.Coherent) {eip : UInt32} {f : Fetched}
    (hf : e.fetch eip = .ok (f, e')) {b : BlockId} (hb : e.arena.isLive b = true)
    (hn : ¬(⟨e, .fetch eip⟩ : Moment).ends b) : e.Keeps b e' := by
  by_cases hc : e.compiles eip
  · have hspared := not_or.mp fun hends => hn ⟨hc, hends⟩
    rcases of_fetch_ok h hf with
      ⟨g, rfl⟩ | ⟨watch, guarded, page, id, code, hw, hwatched, hcompile, rfl⟩
    · exact .count e b g
    · obtain ⟨freed, hnot, hfrees⟩ := h.guarded.frees_watchPage hw hspared.1
      have hkept : e.Keeps b { e with guarded } := .of_frees hfrees hnot
      have hover : b ∉ guarded.code.arena.overwritten := by
        rw [hfrees.overwritten]
        exact hspared.2
      obtain ⟨hcore, hcode⟩ := hwatched.coherent.store.spared_compile h.settings.sufficient
        hcompile (hkept.isLive.trans hb) hover
      exact hkept.trans ⟨hcore, hcode⟩
  · obtain ⟨g, rfl⟩ := eq_count_of_not_compiles hc hf
    exact .count e b g

theorem Coherent.keeps_discard {e e' : Emulator} (h : e.Coherent) {id : BlockId}
    (hd : e.discard id = .ok e') {b : BlockId} (hne : id ≠ b) : e.Keeps b e' := by
  obtain ⟨code, hcode, he⟩ := bind_eq_ok_iff.mp hd
  cases he
  cases hid : id.isTrampoline with
  | true =>
      unfold CodeStore.discard at hcode
      rw [hid] at hcode
      cases hcode
      exact .refl e b
  | false =>
      have hstore := h.guarded.store
      rw [hstore.indexed.filed.discard_eq hid] at hcode
      cases hcode
      have hfrees := CodeStore.frees_without hstore.indexed hstore.linked hid
      exact Keeps.of_frees (g := { e.guarded with code := e.guarded.code.without id }) hfrees
        fun hmem => hne (List.mem_singleton.mp hmem).symm

/-- **An event keeps every block that it does not end.** -/
theorem Coherent.keeps_undergo {e e' : Emulator} (h : e.Coherent) {v : Event}
    (hv : e.undergo v = .ok e') {b : BlockId} (hb : e.arena.isLive b = true)
    (hn : ¬(⟨e, v⟩ : Moment).ends b) : e.Keeps b e' := by
  cases v with
  | fetch eip =>
      obtain ⟨⟨f, e₁⟩, hf, hv⟩ := bind_eq_ok_iff.mp hv
      cases hv
      exact h.keeps_fetch hf hb hn
  | write width addr value running =>
      cases hv
      obtain ⟨freed, hfreed⟩ := h.guarded.freed_write width addr value running
      exact .of_frees hfreed.code fun hmem => hn ((hfreed.met b).mp hmem)
  | invalidate start stop =>
      cases hv
      obtain ⟨freed, _, hmet, _, _, hfrees⟩ :=
        h.guarded.frees_invalidateRange start stop e.running?
      exact .of_frees hfrees fun hmem => hn ((hmet b).mp hmem)
  | discard id => exact h.keeps_discard hv hn
  | flush => exact absurd trivial hn

theorem Coherent.undergo {e e' : Emulator} (h : e.Coherent) {v : Event}
    (hv : e.undergo v = .ok e') : e'.Coherent := by
  cases v with
  | fetch eip => exact h.attempt (a := .fetch eip) hv
  | write width addr value running =>
      cases hv
      exact h.setGuarded (h.guarded.write width addr value running).coherent
  | invalidate start stop =>
      cases hv
      exact h.invalidate start stop
  | discard id => exact h.discard hv
  | flush =>
      cases hv
      exact h.flush

/-! ## Along a course -/

namespace Course

variable {e e' : Emulator} {log : List Moment}

theorem coherent (h : Course e log e') (he : e.Coherent) : e'.Coherent := by
  induction h with
  | refl => exact he
  | event _ hv ih => exact ih.undergo hv
  | context _ context ih => exact ih.setContext context
  | count _ f ih => exact ih.count f
  | link _ hl ih => exact ih.link hl

/-- **What no event on the way ends is kept to the end.** -/
theorem keeps (h : Course e log e') (he : e.Coherent) {b : BlockId}
    (hb : e.arena.isLive b = true) (hn : ∀ m ∈ log, ¬m.ends b) : e.Keeps b e' := by
  induction h with
  | refl => exact .refl e b
  | event h hv ih =>
      have hkept := ih fun m hm => hn m (List.mem_append_left _ hm)
      refine hkept.trans ((h.coherent he).keeps_undergo hv (hkept.isLive.trans hb) ?_)
      exact hn _ (List.mem_append_right _ (List.mem_singleton.mpr rfl))
  | context _ context ih => exact (ih hn).trans ⟨rfl, rfl⟩
  | count _ f ih => exact (ih hn).trans ⟨rfl, rfl⟩
  | link _ hl ih =>
      obtain ⟨a, ha, hl⟩ := bind_eq_ok_iff.mp hl
      cases hl
      exact (ih hn).trans (.of_alike (.link ha))

end Course

/-- A block of an emulator is there in another as well: under the same name and in
the same place, with the same code, compiled from the same bytes; and it is found
where it starts, by a look-up that only counts. -/
structure Stays (e : Emulator) (b : BlockId) (src : Source) (e' : Emulator) : Prop where
  live : e'.arena.isLive b = true
  source : e'.arena.sourceOf b = some src
  generation : (e'.arena.block b).generation = (e.arena.block b).generation
  kind : (e'.arena.block b).kind = (e.arena.block b).kind
  start : (e'.arena.block b).start = (e.arena.block b).start
  size : (e'.arena.block b).size = (e.arena.block b).size
  program : (e'.arena.block b).program = (e.arena.block b).program
  code : e'.arena.code b = e.arena.code b
  found : e'.find? src.start = some b
  fetched : e'.fetch src.start = .ok (.cached b, e'.count fun c => { c with hits := c.hits + 1 })

theorem Keeps.stays {e e' : Emulator} {b : BlockId} {src : Source} (h : e.Keeps b e')
    (he : e'.Coherent) (hb : e.arena.sourceOf b = some src) : e.Stays b src e' := by
  have hs : e'.arena.sourceOf b = some src := (Arena.sourceOf_eq_of_core h.core).trans hb
  have hfound : e'.find? src.start = some b := he.find?_eq_some_iff.mpr ⟨src, hs, rfl⟩
  exact
    { live := he.guarded.store.isLive_of_source hs
      source := hs
      generation := h.field Descriptor.generation Descriptor.generation_core
      kind := h.field Descriptor.kind Descriptor.kind_core
      start := h.field Descriptor.start Descriptor.start_core
      size := h.field Descriptor.size Descriptor.size_core
      program := h.field Descriptor.program Descriptor.program_core
      code := h.code
      found := hfound
      fetched := fetch_of_find? (he.not_barred hs) hfound }

/-- **A block lives until something ends it.**  Actions that succeed go the course of
their log.  If nothing in it ends a block, the block is what it was once they are
done; and at any event on the way it is what it was, unless something before ended
it.  So all that time a look-up of its start, whoever asks, answers with it and
changes a counter only. -/
theorem stays_of_visited {e e' : Emulator} (h : Visited e) {as : List Action}
    (hp : e.performAll as = .ok e') {b : BlockId} (hb : e.arena.isLive b = true) :
    ∃ src, e.arena.sourceOf b = some src ∧ Course e (e.logAll as) e' ∧
      ((∀ m ∈ e.logAll as, ¬m.ends b) → e.Stays b src e') ∧
      ∀ before m after, e.logAll as = before ++ m :: after → (∀ x ∈ before, ¬x.ends b) →
        e.Stays b src m.state := by
  have he := h.coherent
  obtain ⟨src, hs⟩ := Option.isSome_iff_exists.mp
    ((he.guarded.store.indexed.live b).symm.trans hb)
  have hcourse := course_performAll hp
  refine ⟨src, hs, hcourse, fun hn => ?_, fun before m after hlog hn => ?_⟩
  · exact (hcourse.keeps he hb hn).stays (hcourse.coherent he) hs
  · have hfirst := hcourse.before hlog
    exact (hfirst.keeps he hb hn).stays (hfirst.coherent he) hs

def pusher : Cpu := (({} : Cpu).setReg .esp 0x900).setReg .eax 1

/-- Another block of the page is compiled and torn down, bytes of the page are written
and invalidated, and the loop is run, linked to itself; it pushes on the page that it
was compiled from. -/
def bustle : List Action :=
  [.fetch 0x800, .write .byte 0x900 0x44, .discard ⟨3⟩, .invalidate 0x900 0x9FF,
    .run stepper () 2]

/-- The block of the loop lives through all that. -/
theorem stays_of_bustle :
    ∃ e e', Visited e ∧ e.performAll bustle = .ok e' ∧ e.arena.isLive ⟨2⟩ = true ∧
      .write .long 0x8FC 1 (some ⟨2⟩) ∈ (e.logAll bustle).map Moment.event ∧
      (∀ m ∈ e.logAll bustle, ¬m.ends ⟨2⟩) ∧
      ∃ src, e.arena.sourceOf ⟨2⟩ = some src ∧ Course e (e.logAll bustle) e' ∧
        e.Stays ⟨2⟩ src e' := by
  obtain ⟨⟨e, e'⟩, hdone, htest⟩ := exists_of_succeeds
    (x := do
      let e ← zeroed.performAll [.load 0 [0x50, 0xEB, 0xFD], .fetch 0, .setCpu pusher]
      let e' ← e.performAll bustle
      return (e, e'))
    (p := fun r => r.1.arena.isLive ⟨2⟩ &&
      decide (.write .long 0x8FC 1 (some ⟨2⟩) ∈ (r.1.logAll bustle).map Moment.event) &&
      (r.1.logAll bustle).all fun m => !decide (m.ends ⟨2⟩)) (by decide +kernel)
  obtain ⟨e₁, he, hdone⟩ := bind_eq_ok_iff.mp hdone
  obtain ⟨e₂, hp, hdone⟩ := bind_eq_ok_iff.mp hdone
  cases hdone
  simp only [Bool.and_eq_true, decide_eq_true_eq] at htest
  obtain ⟨⟨hlive, hwrites⟩, hends⟩ := htest
  have h : Reached (fun _ => True) e :=
    .performAll (fun _ _ => trivial) (.new unwatched_zeroed new_zeroed) he
  have hn : ∀ m ∈ e.logAll bustle, ¬m.ends ⟨2⟩ := fun m hm => by
    have hm := List.all_eq_true.mp hends m hm
    rwa [Bool.not_eq_true', decide_eq_false_iff_not] at hm
  obtain ⟨src, hs, hcourse, hstays, -⟩ := stays_of_visited h.visited hp hlive
  exact ⟨e, e', h.visited, hp, hlive, hwrites, hn, src, hs, hcourse, hstays hn⟩

end Emulator

end Recompiler
