import Recompiler.Proofs.Emulator.Lifetime
import Recompiler.Proofs.Guarded.Teardown
import Recompiler.Proofs.Store.Alignment

/-!
# The stores that occur

A store of compiled code is a new one or that of an emulator, and from either on
regions may be opened, blocks closed, torn down and linked by hand.  In all of
them layout and link graph are in order, regions are cut where they should be, and
the watches list what has a source.
-/

namespace Recompiler

namespace CodeStore

/-- **Every action keeps what is listed in order.** -/
theorem Filed.perform {s s' : CodeStore} {action : Action} (h : s.Filed) (hs : s.Sound)
    (hp : s.perform action = .ok s') : s'.Filed := by
  have hp := of_perform_ok hp
  cases action with
  | openRegion =>
      obtain ⟨id, ho⟩ := hp
      exact h.openRegion hs.arranged hs.linked ho
  | emit _ | fill _ _ | emitProgram _ =>
      obtain ⟨pen, rfl⟩ := hp
      exact h.congr (fun _ => rfl) fun _ hb => Or.inl hb
  | close _ _ =>
      obtain ⟨id, a, hc, rfl⟩ := hp
      have hdead := (hs.arranged.opened id (Arena.of_close_ok hc).1).2.1
      have hsource := Arena.field_close hs.arranged hc Descriptor.source fun _ _ _ => rfl
      have hlive := Arena.field_close hs.arranged hc Descriptor.isLive fun _ _ _ => rfl
      apply h.congr
      · intro b
        refine (hsource b).trans ?_
        split
        · rfl
        · rfl
      · intro b hb
        by_cases hid : b = id
        · exact Or.inl (hid ▸ hdead)
        · exact Or.inl (((hlive b).trans (if_neg hid)).symm.trans hb)
  | discard _ => exact h.discard hp
  | link _ _ _ =>
      obtain ⟨a, hl, rfl⟩ := hp
      have hcore := fun b => ((Arena.Alike.link hl).core b).symm
      apply h.congr
      · intro b
        exact Arena.sourceOf_eq_of_core (hcore b)
      · intro b hb
        exact Or.inl ((Arena.isLive_eq_of_core (hcore b)).symm.trans hb)

/-- An arena of the sizes that settings ask for, cut where it should be. -/
structure Cut (settings : Settings) (a : Arena) : Prop where
  aligned : a.Aligned
  sizes : OfSizes settings a

theorem Cut.perform {settings : Settings} {s s' : CodeStore} {action : Action}
    (h : Cut settings s.arena) (harr : s.arena.Arranged) (hp : s.perform action = .ok s') :
    Cut settings s'.arena :=
  ⟨aligned_perform harr h.aligned hp, h.sizes.perform harr hp⟩

theorem Cut.lasting (settings : Settings) : Arena.Lasting (Cut settings) where
  vacate {a} id h := ⟨h.aligned.vacate id,
    h.sizes.of_frame (Arena.frame_of_outline (Arena.outline_vacate a id).symm)⟩
  count f h := ⟨h.aligned.count f, h.sizes.of_frame rfl⟩

theorem cut_compile {settings : Settings} {l : Limits} {s s' : CodeStore} (h : s.Coherent l)
    (hcut : Cut settings s.arena) {watch : WatchId} {page : Vector UInt8 pageSize} {eip : UInt32}
    {id : BlockId} (hc : s.compile l watch page eip = .ok (id, s')) : Cut settings s'.arena := by
  obtain ⟨code, a₁, a₂, ho, he, hcl, rfl⟩ := of_compile_ok hc
  have hopened : s.perform .openRegion = .ok code := by
    rw [perform, ho]
    rfl
  have hwrote : code.perform (.emitProgram ((Sequence.at page l eip).operations id)) =
      .ok { code with arena := a₁ } := by
    rw [perform, he]
    rfl
  have hsealed : ({ code with arena := a₁ } : CodeStore).perform
      (.close (Sequence.at page l eip).exit.kind ((Sequence.at page l eip).operations id)) =
        .ok { code with arena := a₂ } := by
    rw [perform, hcl]
    rfl
  have hopen : Cut settings code.arena := hcut.perform h.arranged hopened
  have hwritten : Cut settings a₁ := hopen.perform (sound_openRegion h ho).arranged hwrote
  have hclosed : Cut settings a₂ :=
    Cut.perform hwritten (sound_emitProgram h ho he).arranged hsealed
  constructor
  · apply hclosed.aligned.congr (Arena.frame_of_outline (Arena.outline_modify ..).symm)
    · exact fun b => Arena.field_modify a₂ id b Descriptor.start fun _ => rfl
    · exact fun b => Arena.field_modify a₂ id b Descriptor.size fun _ => rfl
    · intro b hb
      refine Or.inl (Eq.trans (Eq.symm ?_) hb)
      exact Arena.field_modify a₂ id b Descriptor.isLive fun _ => rfl
    · exact hclosed.aligned.cursor
  · exact hclosed.sizes.of_frame (Arena.frame_of_outline (Arena.outline_modify ..).symm)

theorem cut_new {settings : Settings} (hs : settings.Valid) :
    Cut settings (CodeStore.new settings).arena :=
  ⟨aligned_new hs, ofSizes_new settings⟩

end CodeStore

namespace Emulator

open CodeStore (Cut)

def IsCut (e : Emulator) : Prop := Cut e.settings e.arena

variable {e e' : Emulator}

theorem isCut_fetch (h : e.Coherent) (hcut : e.IsCut) {eip : UInt32} {f : Fetched}
    (hf : e.fetch eip = .ok (f, e')) : e'.IsCut := by
  rcases of_fetch_ok h hf with ⟨g, rfl⟩ | ⟨watch, guarded, page, id, code, hw, hwatched, hc, rfl⟩
  · exact (Cut.lasting e.settings).count g hcut
  · have hpage : Cut e.settings guarded.code.arena := (Cut.lasting e.settings).watchPage hcut hw
    exact CodeStore.cut_compile hwatched.coherent.store hpage hc

theorem isCut_discard (hcut : e.IsCut) {id : BlockId} (hd : e.discard id = .ok e') :
    e'.IsCut := by
  obtain ⟨code, hcode, hd⟩ := bind_eq_ok_iff.mp hd
  cases hd
  exact (Cut.lasting e.settings).discard hcut hcode

theorem isCut_undergo (h : e.Coherent) (hcut : e.IsCut) {v : Event} (hv : e.undergo v = .ok e') :
    e'.IsCut := by
  have hlasting := Cut.lasting e.settings
  cases v with
  | fetch eip =>
      obtain ⟨⟨f, e₁⟩, hf, hv⟩ := bind_eq_ok_iff.mp hv
      cases hv
      exact isCut_fetch h hcut hf
  | write width addr value running =>
      cases hv
      exact hlasting.write hcut width addr value running
  | invalidate start stop =>
      cases hv
      exact hlasting.invalidate hcut start stop e.running?
  | discard id => exact isCut_discard hcut hv
  | flush =>
      cases hv
      exact hlasting.flush hcut

/-- **Along a course regions stay cut where they should be.** -/
theorem Course.isCut {log : List Moment} (hc : Course e log e') (h : e.Coherent)
    (hcut : e.IsCut) : e'.IsCut := by
  induction hc with
  | refl => exact hcut
  | event hc hv ih => exact isCut_undergo (hc.coherent h) ih hv
  | context _ context ih => exact ih
  | count _ f ih => exact (Cut.lasting _).count f ih
  | link _ hl ih =>
      obtain ⟨a, ha, hl⟩ := bind_eq_ok_iff.mp hl
      cases hl
      have halike := Arena.Alike.link ha
      exact ⟨ih.aligned.of_alike halike, ih.sizes.of_frame (Arena.frame_of_outline halike.outline)⟩

theorem Visited.isCut (h : Visited e) : e.IsCut := by
  induction h with
  | new _ hn =>
      have hs := (Coherent.new ‹_› hn).settings
      unfold Emulator.new at hn
      split at hn
      · cases hn
      · cases hn
        exact CodeStore.cut_new hs
  | perform h hp ih => exact (course_perform hp).isCut h.coherent ih
  | write _ width addr value running ih => exact (Cut.lasting _).write ih width addr value running
  | context _ _ ih => exact ih

end Emulator

namespace CodeStore

/-- The stores there are under some settings: a new one, that of an emulator at any
moment of its history, and what comes of these by actions that did not fail. -/
inductive Occurs (settings : Settings) : CodeStore → Prop
  | new (hs : settings.Valid) : Occurs settings (.new settings)
  | emulator {e : Emulator} (h : Emulator.Visited e) (hs : e.settings = settings) :
      Occurs settings e.guarded.code
  | perform {s s' : CodeStore} {a : Action} (h : Occurs settings s)
      (hp : s.perform a = .ok s') : Occurs settings s'

namespace Occurs

variable {settings : Settings} {s s' : CodeStore}

theorem foldlM (h : Occurs settings s) {actions : List Action}
    (hf : actions.foldlM CodeStore.perform s = .ok s') : Occurs settings s' := by
  induction actions generalizing s with
  | nil =>
      cases hf
      exact h
  | cons a rest ih =>
      obtain ⟨s₁, hp, hf⟩ := bind_eq_ok_iff.mp hf
      exact ih (h.perform hp) hf

theorem sound (h : Occurs settings s) : s.Sound := by
  induction h with
  | new hs => exact sound_new hs
  | emulator h _ => exact h.coherent.guarded.store.toSound
  | perform _ hp ih => exact ih.perform hp

/-- **What has a source is listed,** in every store. -/
theorem filed (h : Occurs settings s) : s.Filed := by
  induction h with
  | new hs => exact (Indexed.new hs).filed
  | emulator h _ => exact h.coherent.guarded.store.indexed.filed
  | perform h hp ih => exact ih.perform h.sound hp

/-- **Regions are cut where they should be,** in every store. -/
theorem cut (h : Occurs settings s) : Cut settings s.arena := by
  induction h with
  | new hs => exact cut_new hs
  | emulator h hs => exact hs ▸ h.isCut
  | perform h hp ih => exact ih.perform h.sound.arranged hp

end Occurs

end CodeStore

end Recompiler
