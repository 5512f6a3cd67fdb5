import Recompiler.Proofs.Guarded.Write

/-!
# Finding or compiling a block

A look-up finds the block at an address if there is one, and else compiles it;
either way the block it answers with starts at that address, and what else was
compiled is as it was or gone.
-/

namespace Recompiler

theorem Settings.Valid.sufficient {s : Setup} (h : s.Valid) :
    Limits.Sufficient ⟨s.blockInstructions, s.blockBytes, s.decoder⟩ :=
  ⟨h.instructions, h.block⟩

namespace Emulator

/-- An emulator whose compiled code is the translation of its memory. -/
structure Coherent (e : Emulator) : Prop where
  settings : e.settings.Valid
  guarded : e.guarded.Coherent e.limits

namespace Coherent

variable {e : Emulator} (h : e.Coherent)

include h

theorem start_eq {b : BlockId} {src : Source} (hb : e.arena.sourceOf b = some src) :
    pageOf src.start = src.page ∧ offsetOf src.start = src.first := by
  have hpage := (h.guarded.store.translated b src hb).page
  exact ⟨pageOf_addressOf _ hpage, offsetOf_addressOf _ hpage⟩

/-- **A look-up finds the block that starts at the address,** and no other. -/
theorem find?_eq_some_iff {addr : UInt32} {b : BlockId} :
    e.find? addr = some b ↔ ∃ src, e.arena.sourceOf b = some src ∧ src.start = addr := by
  unfold find?
  rw [Option.bind_eq_some_iff]
  constructor
  · rintro ⟨id, hid, hf⟩
    obtain ⟨src, hs, hw, hfirst⟩ := h.guarded.store.indexed.find?_eq_some_iff.mp hf
    refine ⟨src, hs, ?_⟩
    have hpage := h.guarded.store.indexed.page b src hs
    rw [hw, ((h.guarded.mapped _ _).mp hid).2] at hpage
    rw [Source.start, hpage, hfirst, addressOf_pageOf_offsetOf]
  · rintro ⟨src, hs, rfl⟩
    obtain ⟨hpage, hfirst⟩ := h.start_eq hs
    refine ⟨src.watch, ?_, h.guarded.store.indexed.find?_eq_some_iff.mpr ⟨src, hs, rfl, ?_⟩⟩
    · rw [hpage]
      exact h.guarded.watch?_page hs
    · exact hfirst.symm

theorem start_inj {b c : BlockId} {src src' : Source} (hb : e.arena.sourceOf b = some src)
    (hc : e.arena.sourceOf c = some src') (hs : src.start = src'.start) : b = c := by
  have hb := h.find?_eq_some_iff.mpr ⟨src, hb, rfl⟩
  rw [hs, h.find?_eq_some_iff.mpr ⟨src', hc, rfl⟩] at hb
  exact (Option.some.inj hb).symm

end Coherent

/-- The emulator once the block at an address was found or compiled. -/
structure Found (e : Emulator) (eip : UInt32) (id : BlockId) (e' : Emulator) : Prop where
  coherent : e'.Coherent
  settings : e'.settings = e.settings
  context : e'.context = e.context
  bare : e'.memory.bare = e.memory.bare
  source : ∃ src, e'.arena.sourceOf id = some src ∧ src.start = eip
  /-- What is compiled was before, or it is the new block. -/
  core : ∀ b, e'.arena.isLive b = true → (e'.arena.block b).core = (e.arena.block b).core ∨
    b = id ∧ (e'.arena.block b).generation = (e.arena.block b).generation + 1 ∧
      (e'.arena.block b).links = .unlinked ∧ (e'.arena.block b).ring = .empty
  link : ∀ d t, e'.arena.successor d t = e.arena.successor d t ∨
    e'.arena.successor d t = .trampoline t

/-- Whether the instruction at an address is left to the interpreter whatever
it is. -/
def Barred (e : Emulator) (eip : UInt32) : Prop :=
  e.memory.contains eip = false ∨ e.memory.isNoCode (pageOf eip) = true

/-- Whether an address is not compiled because it was written to too often. -/
def Refuses (e : Emulator) (eip : UInt32) : Prop :=
  ¬e.Barred eip ∧ e.find? eip = none ∧ e.refused eip = true

instance (e : Emulator) (eip : UInt32) : Decidable (e.Barred eip) :=
  inferInstanceAs (Decidable (_ ∨ _))

instance (e : Emulator) (eip : UInt32) : Decidable (e.Refuses eip) :=
  inferInstanceAs (Decidable (_ ∧ _))

theorem Coherent.not_barred {e : Emulator} (h : e.Coherent) {b : BlockId} {src : Source}
    (hb : e.arena.sourceOf b = some src) : ¬e.Barred src.start := by
  have hwatch := h.guarded.watch?_page hb
  rw [← (h.start_eq hb).1] at hwatch
  have hcontains := (e.memory.contains_iff src.start).mpr (Memory.lt_pageCount_of_watch? hwatch)
  have hcode := h.guarded.permitted _ _ hwatch
  rintro (hbarred | hbarred)
  · cases hbarred.symm.trans hcontains
  · cases hbarred.symm.trans hcode

theorem fetch_of_barred {e : Emulator} {eip : UInt32} (h : e.Barred eip) :
    e.fetch eip = .ok (.interpret, e) := by
  unfold fetch
  rw [if_pos]
  rcases h with h | h
  · rw [h]
    rfl
  · rw [h, Bool.or_true]

theorem fetch_of_find? {e : Emulator} {eip : UInt32} (h : ¬e.Barred eip) {id : BlockId}
    (hf : e.find? eip = some id) :
    e.fetch eip = .ok (.cached id, e.count fun c => { c with hits := c.hits + 1 }) := by
  rw [Barred, not_or] at h
  unfold fetch
  rw [if_neg, hf]
  simpa using h

theorem fetch_of_refuses {e : Emulator} {eip : UInt32} (h : e.Refuses eip) :
    e.fetch eip = .ok (.interpret, e) := by
  obtain ⟨hb, hf, hr⟩ := h
  rw [Barred, not_or] at hb
  unfold fetch
  rw [if_neg (by simpa using hb), hf, hr]
  rfl

theorem fetch_of_not_find? {e : Emulator} {eip : UInt32} (h : ¬e.Barred eip)
    (hf : e.find? eip = none) (hr : e.refused eip = false) {watch : WatchId}
    {guarded : GuardedMemory} (hw : e.guarded.watchPage (pageOf eip) = .ok (some watch, guarded)) :
    e.fetch eip = ({ e with guarded } : Emulator).compile watch eip >>= fun r =>
      .ok (.compiled r.1, r.2) := by
  rw [Barred, not_or] at h
  unfold fetch
  rw [if_neg (by simpa using h), hf, hr]
  simp only [Bool.false_eq_true, if_false]
  rw [hw]
  rfl

section Fetch

variable {e : Emulator} (h : e.Coherent)

include h

theorem Coherent.count (f : Counters → Counters) : (e.count f).Coherent :=
  ⟨h.settings, h.guarded.count f⟩

theorem found_of_find? {eip : UInt32} {id : BlockId} (hf : e.find? eip = some id)
    (f : Counters → Counters) : e.Found eip id (e.count f) :=
  ⟨h.count f, rfl, rfl, rfl, h.find?_eq_some_iff.mp hf, fun _ _ => Or.inl rfl,
    fun _ _ => Or.inl rfl⟩

omit h in
theorem of_not_barred {eip : UInt32} (hb : ¬e.Barred eip) :
    pageOf eip < e.memory.pageCount ∧ e.memory.isNoCode (pageOf eip) = false := by
  rw [Barred, not_or] at hb
  exact ⟨(Memory.contains_iff _ _).mp (eq_true_of_ne_false hb.1), eq_false_of_ne_true hb.2⟩

theorem found_of_compile {eip : UInt32} (hf : e.find? eip = none) {watch : WatchId}
    {guarded : GuardedMemory}
    (hw : GuardedMemory.Coherent.Watched e.limits e.guarded (pageOf eip) watch guarded)
    {page : Vector UInt8 pageSize} (hp : guarded.memory.bytes? (pageOf eip) = some page)
    {id : BlockId} {code : CodeStore}
    (hc : guarded.code.compile e.limits watch page eip = .ok (id, code)) :
    e.Found eip id { e with guarded := { guarded with code } } := by
  have hl := h.settings.sufficient
  obtain ⟨hused, hpage⟩ := (hw.coherent.mapped _ _).mp hw.watch
  have hcompiled := CodeStore.compiled_of_ok hw.coherent.store hpage hc
  have hfresh : ∀ b src, guarded.code.arena.sourceOf b = some src → src.watch = watch →
      src.first ≠ offsetOf eip := by
    intro b src hb hbw hfirst
    rcases hw.unchanged with ⟨hold, rfl⟩ | ⟨_, hnone⟩
    · have : e.find? eip = some b := by
        unfold find?
        rw [show e.memory.watch? (pageOf eip) = _ from hold, Option.bind_some]
        exact h.guarded.store.indexed.find?_eq_some_iff.mpr ⟨src, hb, hbw, hfirst⟩
      rw [hf] at this
      cases this
    · exact hnone b src hb hbw
  have hstore := hw.coherent.store.compile hpage hc hl hused hfresh
  set src : Source := ⟨watch, pageOf eip, offsetOf eip, (Sequence.at page e.limits eip).last,
    bytesBetween page (offsetOf eip) (Sequence.at page e.limits eip).last⟩ with hsrc
  have hguarded : ({ guarded with code } : GuardedMemory).Coherent e.limits := by
    refine ⟨hstore, fun n x => ?_, hw.coherent.permitted, hw.coherent.marked, fun b t hb => ?_⟩
    · rw [hcompiled.use.used, hcompiled.use.page]
      exact hw.coherent.mapped n x
    · by_cases hbid : b = id
      · rw [hbid, hcompiled.source, Option.some.injEq] at hb
        exact hb ▸ ⟨page, hp, rfl⟩
      · refine hw.coherent.current b t ?_
        rw [← Arena.sourceOf_eq_of_core (hcompiled.kept b hbid (hstore.isLive_of_source hb))]
        exact hb
  refine ⟨⟨h.settings, hguarded⟩, rfl, rfl, hw.bare, ⟨src, hcompiled.source, ?_⟩,
    fun b hb => ?_, fun d t => ?_⟩
  · exact addressOf_pageOf_offsetOf eip
  · by_cases hbid : b = id
    · rw [hbid]
      exact Or.inr ⟨rfl, hcompiled.generation.trans (by rw [hw.shrinks.generation]; rfl),
        hcompiled.links, hcompiled.ring⟩
    · have hcore : (code.arena.block b).core = _ := hcompiled.kept b hbid hb
      refine Or.inl (hcore.trans (hw.shrinks.core b ?_))
      rw [← Arena.isLive_eq_of_core hcore]
      exact hb
  · rcases hcompiled.link d t with he | he
    · have := hw.shrinks.link d t
      rw [← he] at this
      exact this
    · exact Or.inr he

/-- **A look-up leaves the instruction to the interpreter, or answers with the
block at the address, or finds no descriptor left.** -/
theorem fetch_spec (eip : UInt32) :
    (e.fetch eip = .ok (.interpret, e) ∧ (e.Barred eip ∨ e.Refuses eip)) ∨
      (∃ f id e', e.fetch eip = .ok (f, e') ∧ f.block? = some id ∧ e.Found eip id e' ∧
        ¬e.Barred eip) ∨
      e.fetch eip = .error (.descriptorsExhausted e.arena.capacity) := by
  by_cases hb : e.Barred eip
  · exact Or.inl ⟨fetch_of_barred hb, Or.inl hb⟩
  cases hf : e.find? eip with
  | some id =>
      exact Or.inr (Or.inl ⟨_, id, _, fetch_of_find? hb hf, rfl, found_of_find? h hf _, hb⟩)
  | none =>
      cases hr : e.refused eip with
      | true => exact Or.inl ⟨fetch_of_refuses ⟨hb, hf, hr⟩, Or.inr ⟨hb, hf, hr⟩⟩
      | false =>
          obtain ⟨hpage, hcode⟩ := of_not_barred hb
          obtain ⟨watch, guarded, hw, hwatched⟩ := h.guarded.watchPage hpage hcode
          obtain ⟨page, hp⟩ := Memory.bytes?_eq_some_of_lt
            (Memory.lt_pageCount_of_watch? hwatched.watch)
          have hcap : guarded.code.arena.capacity = e.arena.capacity := hwatched.capacity
          rw [fetch_of_not_find? hb hf hr hw,
            compile_eq (e := { e with guarded }) hp watch]
          rcases hwatched.coherent.store.compile_ok_or h.settings.sufficient watch page eip with
            ⟨⟨id, code⟩, hc⟩ | hc
          · refine Or.inr (Or.inl ⟨.compiled id, id, { e with guarded := { guarded with code } }, ?_,
              rfl, found_of_compile h hf hwatched hp hc, hb⟩)
            show (Except.map _ (guarded.code.compile e.limits watch page eip) >>= _) = _
            rw [hc]
            rfl
          · refine Or.inr (Or.inr ?_)
            show (Except.map _ (guarded.code.compile e.limits watch page eip) >>= _) = _
            rw [hc, ← hcap]
            rfl

/-- Where nothing is found or refused a block is compiled, for a page that is then under
a watch. -/
theorem of_fetch_not_find? {eip : UInt32} (hb : ¬e.Barred eip) (hfind : e.find? eip = none)
    (hr : e.refused eip = false) {f : Fetched} {e' : Emulator} (hf : e.fetch eip = .ok (f, e')) :
    ∃ watch guarded page id code, e.guarded.watchPage (pageOf eip) = .ok (some watch, guarded) ∧
      GuardedMemory.Coherent.Watched e.limits e.guarded (pageOf eip) watch guarded ∧
      guarded.code.compile e.limits watch page eip = .ok (id, code) ∧
      e' = { e with guarded := { guarded with code } } := by
  obtain ⟨hpage, hcode⟩ := of_not_barred hb
  obtain ⟨watch, guarded, hw, hwatched⟩ := h.guarded.watchPage hpage hcode
  obtain ⟨page, hp⟩ := Memory.bytes?_eq_some_of_lt (Memory.lt_pageCount_of_watch? hwatched.watch)
  rw [fetch_of_not_find? hb hfind hr hw, compile_eq (e := { e with guarded }) hp watch] at hf
  obtain ⟨r, hr, hf⟩ := bind_eq_ok_iff.mp hf
  have hr : Except.map _ (guarded.code.compile e.limits watch page eip) = .ok r := hr
  cases hc : guarded.code.compile e.limits watch page eip with
  | error fault =>
      rw [hc] at hr
      cases hr
  | ok q =>
      rw [hc] at hr
      cases hr
      cases hf
      exact ⟨watch, guarded, page, q.1, q.2, hw, hwatched, hc, rfl⟩

/-- **A look-up that changes more than the counters compiles a block** for a
page that is then under a watch. -/
theorem of_fetch_ok {eip : UInt32} {f : Fetched} {e' : Emulator}
    (hf : e.fetch eip = .ok (f, e')) :
    (∃ g, e' = e.count g) ∨
      ∃ watch guarded page id code, e.guarded.watchPage (pageOf eip) = .ok (some watch, guarded) ∧
        GuardedMemory.Coherent.Watched e.limits e.guarded (pageOf eip) watch guarded ∧
        guarded.code.compile e.limits watch page eip = .ok (id, code) ∧
        e' = { e with guarded := { guarded with code } } := by
  by_cases hb : e.Barred eip
  · rw [fetch_of_barred hb] at hf
    cases hf
    exact Or.inl ⟨fun c => c, rfl⟩
  cases hfind : e.find? eip with
  | some id =>
      rw [fetch_of_find? hb hfind] at hf
      cases hf
      exact Or.inl ⟨_, rfl⟩
  | none =>
      cases hr : e.refused eip with
      | true =>
          rw [fetch_of_refuses ⟨hb, hfind, hr⟩] at hf
          cases hf
          exact Or.inl ⟨fun c => c, rfl⟩
      | false => exact Or.inr (of_fetch_not_find? h hb hfind hr hf)

theorem Coherent.fetch {eip : UInt32} {f : Fetched} {e' : Emulator}
    (hf : e.fetch eip = .ok (f, e')) : e'.Coherent := by
  rcases fetch_spec h eip with ⟨hi, _⟩ | ⟨_, _, _, hok, _, hfound, _⟩ | herr
  · rw [hi] at hf
    cases hf
    exact h
  · rw [hok] at hf
    cases hf
    exact hfound.coherent
  · rw [herr] at hf
    cases hf

end Fetch

end Emulator

end Recompiler
