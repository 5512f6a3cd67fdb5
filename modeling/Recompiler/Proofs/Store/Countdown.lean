import Recompiler.Proofs.Store.Freed
import Recompiler.Proofs.Store.Overwritten

/-!
# What a watch counts when blocks go

Blocks are taken off their watches in many ways: torn down by hand, met by a range,
or overwritten by the opening of a region.  All of these come to the same for what a
watch counts.  If it loses a block its countdown starts anew, and if it loses none
its countdown stays; the changes it has seen are forgotten in neither case.
-/

namespace Recompiler

/-- A watch goes on counting: its countdown starts anew if it has lost a block, and
else it stands where it stood. -/
structure Watch.Continues (w w' : Watch) (lost : Prop) : Prop where
  delay : w'.delay = w.delay
  anew : lost → w'.countdown = w.delay
  stands : ¬lost → w'.countdown = w.countdown

namespace Watch.Continues

variable {w w' w'' : Watch} {p q r : Prop}

theorem refl (w : Watch) (hn : ¬p) : w.Continues w p := ⟨rfl, fun h => absurd h hn, fun _ => rfl⟩

theorem trans (h : w.Continues w' p) (h' : w'.Continues w'' q) (hr : r ↔ p ∨ q) :
    w.Continues w'' r := by
  constructor
  case delay => exact h'.delay.trans h.delay
  case anew =>
    intro hlost
    by_cases hq : q
    · rw [h'.anew hq, h.delay]
    · rw [h'.stands hq]
      exact h.anew ((hr.mp hlost).resolve_right hq)
  case stands =>
    intro hn
    rw [hr, not_or] at hn
    rw [h'.stands hn.2, h.stands hn.1]

theorem congr (h : w.Continues w' p) (hq : q ↔ p) : w.Continues w' q :=
  ⟨h.delay, fun hl => h.anew (hq.mp hl), fun hn => h.stands fun hl => hn (hq.mpr hl)⟩

theorem countdown_of_eq_delay (h : w.Continues w' p) (hd : w.countdown = w.delay) :
    w'.countdown = w.delay := by
  by_cases hp : p
  · exact h.anew hp
  · rw [h.stands hp, hd]

end Watch.Continues

namespace CodeStore

/-- Whether a watch has lost a block on the way from one store to another. -/
def Loses (s s' : CodeStore) (id : WatchId) : Prop :=
  ∃ b src, s.arena.sourceOf b = some src ∧ src.watch = id ∧ s'.arena.sourceOf b = none

/-- Blocks were taken off their watches, and none was listed. -/
structure Strips (s s' : CodeStore) : Prop where
  source : ∀ b src, s'.arena.sourceOf b = some src → s.arena.sourceOf b = some src
  changes : ∀ id, (s'.watches.watch id).changes = (s.watches.watch id).changes
  continues : ∀ id, (s.watches.watch id).Continues (s'.watches.watch id) (s.Loses s' id)

namespace Strips

variable {s s' s'' : CodeStore}

theorem of_source (hs : ∀ b, s'.arena.sourceOf b = s.arena.sourceOf b)
    (hw : s'.watches = s.watches) : s.Strips s' := by
  constructor
  case source =>
    intro b src hb
    rw [← hs]
    exact hb
  case changes => exact fun _ => by rw [hw]
  case continues =>
    intro id
    rw [hw]
    refine .refl _ ?_
    rintro ⟨b, src, hb, _, hgone⟩
    rw [hs, hb] at hgone
    cases hgone

theorem refl (s : CodeStore) : s.Strips s := of_source (fun _ => rfl) rfl

/-- What a watch has lost in the end it has lost first or thereafter. -/
theorem loses_iff (h : s.Strips s') (h' : s'.Strips s'') (id : WatchId) :
    s.Loses s'' id ↔ s.Loses s' id ∨ s'.Loses s'' id := by
  constructor
  · rintro ⟨b, src, hb, hw, hgone⟩
    cases hmid : s'.arena.sourceOf b with
    | none => exact Or.inl ⟨b, src, hb, hw, hmid⟩
    | some t =>
        have ht := h.source b t hmid
        rw [hb, Option.some.injEq] at ht
        exact Or.inr ⟨b, t, hmid, ht ▸ hw, hgone⟩
  · rintro (⟨b, src, hb, hw, hmid⟩ | ⟨b, src, hb, hw, hgone⟩)
    · refine ⟨b, src, hb, hw, ?_⟩
      cases hgone : s''.arena.sourceOf b with
      | none => rfl
      | some t =>
          rw [h'.source b t hgone] at hmid
          cases hmid
    · exact ⟨b, src, h.source b src hb, hw, hgone⟩

theorem trans (h : s.Strips s') (h' : s'.Strips s'') : s.Strips s'' where
  source b src hb := h.source b src (h'.source b src hb)
  changes id := (h'.changes id).trans (h.changes id)
  continues id := (h.continues id).trans (h'.continues id) (h.loses_iff h' id)

theorem count (h : s.Strips s') (f : Counters → Counters) : s.Strips (s'.count f) :=
  h.trans (.of_source (fun _ => rfl) rfl)

end Strips

/-! ## Tearing blocks down -/

namespace Filed

variable {s s' : CodeStore} (h : s.Filed)

include h

omit h in
/-- Where a block has no source, tearing it down takes nothing off any watch. -/
theorem strips_without_of_none {id : BlockId} (hid : s.arena.sourceOf id = none) :
    s.Strips (s.without id) := by
  have hwatches : (s.without id).watches = s.watches := by
    unfold CodeStore.without
    rw [hid]
  refine .of_source (fun b => ?_) hwatches
  refine (Arena.sourceOf_vacate s.arena id b).trans ?_
  unfold Watch.setSource
  split
  · next hb => rw [hb, hid]
  · rfl

section Struck

variable {id : BlockId} {src : Source} (hid : s.arena.sourceOf id = some src)

include hid

theorem watch_without (x : WatchId) : (s.without id).watches.watch x =
    if src.watch = x then (s.watches.watch src.watch).strike id src
    else s.watches.watch x := by
  unfold CodeStore.without
  rw [hid]
  exact Watches.watch_set _ _ _ _ (h.pooled id src hid)

omit h in
theorem loses_without_iff (x : WatchId) : s.Loses (s.without id) x ↔ src.watch = x := by
  have hsource := Arena.sourceOf_vacate s.arena id
  constructor
  · rintro ⟨b, t, hb, hw, hgone⟩
    have hgone : (s.arena.vacate id).sourceOf b = none := hgone
    rw [hsource, Watch.setSource] at hgone
    split at hgone
    · next hbid =>
        rw [hbid, hid, Option.some.injEq] at hb
        rw [hb, hw]
    · rw [hb] at hgone
      cases hgone
  · intro hw
    refine ⟨id, src, hid, hw, ?_⟩
    show (s.arena.vacate id).sourceOf id = none
    rw [hsource, Watch.setSource, if_pos rfl]

theorem strips_without_of_some : s.Strips (s.without id) := by
  constructor
  case source =>
    intro b t hb
    have hb : (s.arena.vacate id).sourceOf b = some t := hb
    rw [Arena.sourceOf_vacate] at hb
    exact Watch.of_setSource_none hb
  case changes =>
    intro x
    rw [h.watch_without hid]
    split
    · next hx => rw [← hx]; rfl
    · rfl
  case continues =>
    intro x
    rw [h.watch_without hid]
    split
    · next hx => exact ⟨by rw [← hx]; rfl, fun _ => by rw [← hx]; rfl,
        fun hn => absurd ((loses_without_iff hid x).mpr hx) hn⟩
    · next hx => exact .refl _ fun hl => hx ((loses_without_iff hid x).mp hl)

end Struck

/-- **A watch that loses a block starts its countdown anew.** -/
theorem strips_without (id : BlockId) : s.Strips (s.without id) := by
  cases hid : s.arena.sourceOf id with
  | none => exact strips_without_of_none hid
  | some src => exact h.strips_without_of_some hid

theorem strips_discard {id : BlockId} (hd : s.discard id = .ok s') : s.Strips s' := by
  rcases h.eq_or_without hd with rfl | ⟨_, rfl⟩
  · exact .refl _
  · exact h.strips_without id

theorem strips_withoutAll (ids : List BlockId) : s.Strips (s.withoutAll ids) :=
  (withoutAll_induction (P := fun t => t.Filed ∧ s.Strips t)
    (fun _ b _ ht => ⟨ht.1.without b, ht.2.trans (ht.1.strips_without b)⟩) ⟨h, .refl s⟩).2

theorem strips_evict {id : BlockId} (he : s.evict id = .ok s') : s.Strips s' := by
  rcases of_evict_ok he with ⟨_, rfl⟩ | ⟨_, s₁, hd, rfl⟩
  · exact .refl _
  · exact (h.strips_discard hd).count _

theorem strips_openRegion {id : BlockId} (ha : s.arena.Arranged) (hl : s.arena.Linked)
    (ho : s.openRegion = .ok (id, s')) : s.Strips s' := by
  refine (openRegion_induction (P := fun t => t.Filed ∧ s.Strips t) ?_ ?_ ?_ ha hl ho
    ⟨h, .refl s⟩).2.2
  · intro t t' b _ _ he ht
    exact ⟨ht.1.evict he, ht.2.trans (ht.1.strips_evict he)⟩
  · intro t b _ _ hd ht
    have hsource := t.arena.field_recycle Descriptor.source (ht.1.dead b hd).symm
    exact ⟨ht.1.recycle hd, ht.2.trans (.of_source hsource rfl)⟩
  · intro t b size a _ _ _ hb ht
    refine ⟨ht.1.resize hb, ht.2.trans (.of_source (fun c => ?_) rfl)⟩
    show (a.block c).source = _
    rw [hb]
    exact t.arena.sourceOf_resize b size c

end Filed

/-- What a watch loses when some blocks are freed are those of them that it lists. -/
theorem Frees.loses_iff {s s' : CodeStore} {freed : List BlockId} (h : s.Frees freed s')
    (id : WatchId) : s.Loses s' id ↔
      ∃ b src, s.arena.sourceOf b = some src ∧ src.watch = id ∧ b ∈ freed := by
  refine exists_congr fun b => exists_congr fun src => and_congr_right fun hb =>
    and_congr_right fun _ => ?_
  rw [h.sourceOf]
  by_cases hmem : b ∈ freed
  · simp [hmem]
  · simp [hmem, hb]

theorem Coherent.loses_discard_iff {l : Limits} {s s' : CodeStore} (h : s.Coherent l)
    {b : BlockId} (hd : s.discard b = .ok s') (id : WatchId) :
    s.Loses s' id ↔ ∃ src, s.arena.sourceOf b = some src ∧ src.watch = id := by
  cases hb : b.isTrampoline with
  | true =>
      unfold CodeStore.discard at hd
      rw [hb] at hd
      cases hd
      constructor
      · rintro ⟨x, src, hx, _, hgone⟩
        rw [hx] at hgone
        cases hgone
      · rintro ⟨src, hs, _⟩
        rw [h.not_trampoline hs] at hb
        cases hb
  | false =>
      rw [h.indexed.filed.discard_eq hb] at hd
      cases hd
      rw [(frees_without h.indexed h.linked hb).loses_iff]
      constructor
      · rintro ⟨x, src, hx, hw, hmem⟩
        exact ⟨src, List.mem_singleton.mp hmem ▸ hx, hw⟩
      · rintro ⟨src, hs, hw⟩
        exact ⟨b, src, hs, hw, List.mem_singleton_self b⟩

/-! ## Compiling -/

section Compile

variable {l : Limits} {s s' : CodeStore} {watch : WatchId} {page : Vector UInt8 pageSize}
  {eip : UInt32} {b : BlockId}

def Overwrites (s : CodeStore) (id : WatchId) : Prop :=
  ∃ x src, x ∈ s.arena.overwritten ∧ s.arena.sourceOf x = some src ∧ src.watch = id

/-- Freeing blocks of one watch leaves those of another to be overwritten. -/
theorem Frees.overwrites_iff {s s' : CodeStore} {ids : List BlockId} (h : s.Frees ids s')
    {id : WatchId} (hids : ∀ x src, s.arena.sourceOf x = some src → src.watch = id → x ∉ ids) :
    s'.Overwrites id ↔ s.Overwrites id := by
  unfold Overwrites
  rw [h.overwritten]
  refine exists_congr fun x => exists_congr fun src => and_congr_right fun _ => ?_
  rw [h.sourceOf]
  constructor
  · rintro ⟨hx, hw⟩
    split at hx
    · cases hx
    · exact ⟨hx, hw⟩
  · rintro ⟨hx, hw⟩
    exact ⟨(if_neg (hids x src hx hw)).trans hx, hw⟩

/-- What opening a region takes off a watch are the blocks that it overwrites. -/
theorem Coherent.loses_openRegion_iff (h : s.Coherent l) (ho : s.openRegion = .ok (b, s'))
    (id : WatchId) : s.Loses s' id ↔ s.Overwrites id := by
  obtain ⟨_, _, taken, rest, hre⟩ := reopened_of_ok h.arranged ho
  have hover := hre.eq_overwritten h.arranged ho
  have hindexed := h.indexed.openRegion h.arranged h.linked ho
  have hgone : ∀ x src, s.arena.sourceOf x = some src →
      (s'.arena.sourceOf x = none ↔ x ∈ s.arena.overwritten) := by
    intro x src hx
    have hlive := hindexed.live x
    rw [hre.isLive_eq, h.isLive_of_source hx] at hlive
    rw [hover, List.mem_cons, ← Option.isNone_iff_eq_none, ← Option.not_isSome, ← hlive]
    by_cases hin : x = b ∨ x ∈ taken
    · simp [hin]
    · simp [hin]
  constructor
  · rintro ⟨x, src, hx, hw, hnone⟩
    exact ⟨x, src, (hgone x src hx).mp hnone, hx, hw⟩
  · rintro ⟨x, src, hmem, hx, hw⟩
    exact ⟨x, src, hx, hw, (hgone x src hx).mpr hmem⟩

/-- **Compiling counts the blocks that it overwrites as lost,** and nothing else. -/
theorem Coherent.counts_compile (h : s.Coherent l) (hwatch : watch ∈ s.watches.used)
    (hc : s.compile l watch page eip = .ok (b, s')) (id : WatchId) :
    (s.watches.watch id).Continues (s'.watches.watch id) (s.Overwrites id) ∧
      (s'.watches.watch id).changes = (s.watches.watch id).changes := by
  obtain ⟨code, a₁, a₂, ho, _, _, rfl⟩ := of_compile_ok hc
  have hopen := h.indexed.filed.strips_openRegion h.arranged h.linked ho
  have hlt : watch.number < code.watches.capacity := by
    rw [(sameUse_openRegion h.toSound ho).capacity]
    exact (h.indexed.pooled watch).mp (List.mem_append_right _ hwatch)
  have hindex : ∀ first last, (code.watches.watch id).Continues
      ((code.watches.set watch ((code.watches.watch watch).index b first last)).watch id) False ∧
      ((code.watches.set watch ((code.watches.watch watch).index b first last)).watch id).changes =
        (code.watches.watch id).changes := by
    intro first last
    rw [Watches.watch_set _ _ _ _ hlt]
    split
    · next he =>
        rw [← he]
        exact ⟨⟨rfl, False.elim, fun _ => rfl⟩, rfl⟩
    · exact ⟨.refl _ not_false, rfl⟩
  obtain ⟨hindexed, hsame⟩ := hindex (offsetOf eip) (Sequence.at page l eip).last
  exact ⟨((hopen.continues id).congr (h.loses_openRegion_iff ho id).symm).trans hindexed
    (iff_of_eq (or_false _)).symm, hsame.trans (hopen.changes id)⟩

end Compile

end CodeStore

end Recompiler
