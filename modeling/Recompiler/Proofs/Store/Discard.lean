import Recompiler.Proofs.Arena.New
import Recompiler.Proofs.Store.Index

/-!
# Tearing blocks down

Tearing a block down succeeds wherever the index is in order, and leaves it in
order: the block is neither compiled nor indexed any more, and no other block
is touched but for links.
-/

namespace Recompiler

namespace Arena

theorem sourceOf_vacate (a : Arena) (id b : BlockId) :
    (a.vacate id).sourceOf b = Watch.setSource a.sourceOf id none b := by
  have h := congrArg Descriptor.source (core_vacate a id b)
  rw [Descriptor.source_core] at h
  rw [sourceOf, h, Watch.setSource]
  split
  · rfl
  · rfl

theorem sourceOf_eq_of_core {a b : Arena} {id : BlockId}
    (h : (a.block id).core = (b.block id).core) : a.sourceOf id = b.sourceOf id :=
  show (a.block id).core.source = (b.block id).core.source by rw [h]

theorem isLive_eq_of_core {a b : Arena} {id : BlockId}
    (h : (a.block id).core = (b.block id).core) : a.isLive id = b.isLive id :=
  show (a.block id).core.isLive = (b.block id).core.isLive by rw [h]

theorem field_recycle {α : Type} (a : Arena) {id : BlockId} (g : Descriptor → α)
    (hg : g (a.block id).recycled = g (a.block id)) (b : BlockId) :
    g ((a.recycle id).block b) = g (a.block b) := by
  have hblock : (a.recycle id).block b = (a.modify id Descriptor.recycled).block b := rfl
  rw [hblock, block_modify]
  split
  · next hb =>
      rw [← hb.1]
      exact hg
  · rfl

theorem sourceOf_resize (a : Arena) (id : BlockId) (size : Nat) (b : BlockId) :
    (a.resize id size).sourceOf b = a.sourceOf b :=
  field_modify _ id b Descriptor.source fun _ => rfl

end Arena

namespace CodeStore

def without (s : CodeStore) (id : BlockId) : CodeStore where
  arena := s.arena.vacate id
  watches :=
    match s.arena.sourceOf id with
    | none => s.watches
    | some src => s.watches.set src.watch ((s.watches.watch src.watch).strike id src)

theorem sameUse_without (s : CodeStore) (id : BlockId) :
    s.watches.SameUse (s.without id).watches := by
  unfold without
  cases s.arena.sourceOf id with
  | none => exact .refl _
  | some src => exact .set _ rfl

def count (s : CodeStore) (f : Counters → Counters) : CodeStore :=
  { s with arena := s.arena.count f }

theorem Indexed.count {s : CodeStore} (h : s.Indexed) (f : Counters → Counters) :
    (s.count f).Indexed :=
  h.congr (fun _ => rfl) fun _ => rfl

/-! ## Where what has a source is listed -/

namespace Filed

variable {s : CodeStore} (h : s.Filed)

include h

/-- **Tearing a block down succeeds.** -/
theorem discard_eq {id : BlockId} (hid : id.isTrampoline = false) :
    s.discard id = .ok (s.without id) := by
  unfold CodeStore.discard CodeStore.unindex CodeStore.without
  rw [hid, show (s.arena.block id).source = s.arena.sourceOf id from rfl]
  cases hs : s.arena.sourceOf id with
  | none => rfl
  | some src =>
      simp only [Bool.false_eq_true, if_false]
      rw [(h.indexes src.watch).remove?_eq hs rfl]
      rfl

theorem without (id : BlockId) : (s.without id).Filed := by
  have hlive := fun b => Arena.isLive_vacate s.arena id b
  have hsource := fun b => Arena.sourceOf_vacate s.arena id b
  cases hs : s.arena.sourceOf id with
  | none =>
      have hw : s.without id = { s with arena := s.arena.vacate id } := by
        rw [CodeStore.without, hs]
      rw [hw]
      refine h.congr (fun b => ?_) fun b hb => ?_
      · rw [hsource, Watch.setSource]
        split
        · next hb => rw [hb, hs]
        · rfl
      · rw [hlive] at hb
        split at hb
        · next he => exact Or.inr (he ▸ hs)
        · exact Or.inl hb
  | some src =>
      have hw : s.without id = ⟨s.arena.vacate id,
          s.watches.set src.watch ((s.watches.watch src.watch).strike id src)⟩ := by
        rw [CodeStore.without, hs]
      rw [hw]
      exact h.remove hs hsource hlive

theorem count (f : Counters → Counters) : (s.count f).Filed :=
  h.congr (fun _ => rfl) fun _ hb => Or.inl hb

theorem discard_ok (id : BlockId) : ∃ s', s.discard id = .ok s' := by
  cases hid : id.isTrampoline with
  | true =>
      refine ⟨s, ?_⟩
      unfold CodeStore.discard
      rw [hid]
      rfl
  | false => exact ⟨_, h.discard_eq hid⟩

theorem eq_or_without {s' : CodeStore} {id : BlockId} (hd : s.discard id = .ok s') :
    s' = s ∨ id.isTrampoline = false ∧ s' = s.without id := by
  rcases of_discard_ok hd with ⟨_, rfl⟩ | ⟨hid, _⟩
  · exact Or.inl rfl
  · rw [h.discard_eq hid] at hd
    cases hd
    exact Or.inr ⟨hid, rfl⟩

theorem discard {s' : CodeStore} {id : BlockId} (hd : s.discard id = .ok s') : s'.Filed := by
  rcases h.eq_or_without hd with rfl | ⟨_, rfl⟩
  · exact h
  · exact h.without id

theorem evict {s' : CodeStore} {id : BlockId} (he : s.evict id = .ok s') : s'.Filed := by
  rcases of_evict_ok he with ⟨_, rfl⟩ | ⟨_, s₁, hd, rfl⟩
  · exact h
  · exact (h.discard hd).count _

theorem recycle {id : BlockId} (hd : s.arena.isLive id = false) :
    ({ s with arena := s.arena.recycle id } : CodeStore).Filed := by
  have hsource := s.arena.field_recycle Descriptor.source (h.dead id hd).symm
  have hlive := s.arena.field_recycle Descriptor.isLive hd.symm
  exact h.congr hsource fun b hb => Or.inl ((hlive b).symm.trans hb)

theorem resize {id : BlockId} {size : Nat} {a : Arena}
    (hb : ∀ b, a.block b = (s.arena.resize id size).block b) :
    ({ s with arena := a } : CodeStore).Filed := by
  refine h.congr (fun b => ?_) fun b hdead => Or.inl ?_
  · rw [Arena.sourceOf, hb]
    exact s.arena.sourceOf_resize id size b
  · rw [Arena.isLive, hb] at hdead
    exact (Arena.isLive_resize ..).symm.trans hdead

theorem openRegion {s' : CodeStore} {id : BlockId} (ha : s.arena.Arranged)
    (hl : s.arena.Linked) (ho : s.openRegion = .ok (id, s')) : s'.Filed := by
  refine (openRegion_induction (P := Filed) ?_ ?_ ?_ ha hl ho h).2
  · exact fun _ _ he h => h.evict he
  · exact fun _ _ hd h => h.recycle hd
  · exact fun _ _ _ hb h => h.resize hb

/-! ### Opening succeeds -/

theorem evict_ok {id : BlockId} (hid : id.isTrampoline = false) : ∃ s', s.evict id = .ok s' := by
  unfold CodeStore.evict
  split
  · rw [h.discard_eq hid]
    exact ⟨_, rfl⟩
  · exact ⟨s, rfl⟩

omit h in
theorem absorb_ok {s : CodeStore} (h : s.Filed) (size : Nat) {ids : List BlockId}
    (hids : ∀ id ∈ ids, id.isTrampoline = false) : ∃ r, s.absorb size ids = .ok r := by
  induction ids generalizing s size with
  | nil => exact ⟨_, rfl⟩
  | cons id rest ih =>
      have hid := hids id List.mem_cons_self
      unfold CodeStore.absorb
      split
      · obtain ⟨s', he⟩ := h.evict_ok hid
        rw [he]
        refine ih ?_ _ fun x hx => hids x (List.mem_cons_of_mem _ hx)
        refine (h.evict he).recycle ?_
        rw [isLive_evict hid he, if_pos rfl]
      · exact ⟨_, rfl⟩

/-- **The active region can be opened.** -/
theorem openRegion_ok (ha : s.arena.Arranged) (hclosed : s.arena.opened = none) :
    ∃ id s', s.openRegion = .ok (id, s') := by
  have hid := ha.not_trampoline_of_region ha.active
  obtain ⟨s₁, he⟩ := h.evict_ok hid
  have hafter : ∀ x ∈ (s.arena.around s.arena.active).2, x.isTrampoline = false :=
    fun x hx => (ha.bounds_of_mem_after ha.active hx).1
  obtain ⟨r, hr⟩ := (h.evict he).absorb_ok (s₁.arena.block s.arena.active).size hafter
  unfold CodeStore.openRegion
  rw [hclosed]
  simp only [Option.isSome_none, Bool.false_eq_true, if_false]
  rw [he]
  show ∃ id s', (s₁.absorb _ _ >>= _) = _
  rw [hr]
  exact ⟨_, _, rfl⟩

end Filed

/-! ## Where every compiled block is indexed -/

namespace Indexed

variable {s : CodeStore} (h : s.Indexed)

include h

theorem without (id : BlockId) : (s.without id).Indexed := by
  have hsource := Arena.sourceOf_vacate s.arena id
  apply h.shrink (h.filed.without id) (sameUse_without s id)
  · intro b
    show (s.arena.vacate id).isLive b = ((s.arena.vacate id).sourceOf b).isSome
    rw [Arena.isLive_vacate, hsource, Watch.setSource]
    split
    · rfl
    · exact h.live b
  · intro b src hb
    exact Watch.of_setSource_none ((hsource b).symm.trans hb)

theorem discard {s' : CodeStore} {id : BlockId} (hd : s.discard id = .ok s') : s'.Indexed := by
  rcases h.filed.eq_or_without hd with rfl | ⟨_, rfl⟩
  · exact h
  · exact h.without id

theorem evict {s' : CodeStore} {id : BlockId} (he : s.evict id = .ok s') : s'.Indexed := by
  rcases of_evict_ok he with ⟨_, rfl⟩ | ⟨_, s₁, hd, rfl⟩
  · exact h
  · exact (h.discard hd).count _

theorem recycle {id : BlockId} (hd : s.arena.isLive id = false) :
    ({ s with arena := s.arena.recycle id } : CodeStore).Indexed := by
  have hsource := s.arena.field_recycle Descriptor.source (h.sourceOf_eq_none hd).symm
  have hlive := s.arena.field_recycle Descriptor.isLive hd.symm
  exact h.congr hsource hlive

theorem openRegion {s' : CodeStore} {id : BlockId} (ha : s.arena.Arranged)
    (hl : s.arena.Linked) (ho : s.openRegion = .ok (id, s')) : s'.Indexed := by
  refine (openRegion_induction (P := Indexed) ?_ ?_ ?_ ha hl ho h).2
  · exact fun _ _ he h => h.evict he
  · exact fun _ _ hd h => h.recycle hd
  · intro s id size a _ _ _ hb h
    refine h.congr (fun b => ?_) fun b => ?_
    · rw [Arena.sourceOf, hb]
      exact s.arena.sourceOf_resize id size b
    · rw [Arena.isLive, hb]
      exact Arena.isLive_resize ..

end Indexed

/-! ## Tearing several blocks down -/

/-- The store once some blocks are torn down, one after the other. -/
def withoutAll (s : CodeStore) (ids : List BlockId) : CodeStore := ids.foldl without s

@[simp] theorem withoutAll_nil (s : CodeStore) : s.withoutAll [] = s := rfl

@[simp] theorem withoutAll_cons (s : CodeStore) (id : BlockId) (ids : List BlockId) :
    s.withoutAll (id :: ids) = (s.without id).withoutAll ids := rfl

theorem withoutAll_append (s : CodeStore) (xs ys : List BlockId) :
    s.withoutAll (xs ++ ys) = (s.withoutAll xs).withoutAll ys :=
  List.foldl_append ..

/-- What is kept by tearing one block down is kept by tearing down several. -/
theorem withoutAll_induction {P : CodeStore → Prop} {ids : List BlockId}
    (h : ∀ s id, id ∈ ids → P s → P (s.without id)) {s : CodeStore} (hs : P s) :
    P (s.withoutAll ids) := by
  induction ids generalizing s with
  | nil => exact hs
  | cons id rest ih =>
      exact ih (fun s x hx => h s x (List.mem_cons_of_mem _ hx)) (h s id List.mem_cons_self hs)

theorem sameUse_withoutAll (s : CodeStore) (ids : List BlockId) :
    s.watches.SameUse (s.withoutAll ids).watches :=
  withoutAll_induction (P := fun t => s.watches.SameUse t.watches)
    (fun t id _ ht => ht.trans (sameUse_without t id)) (.refl _)

theorem core_without (s : CodeStore) (id b : BlockId) :
    ((s.without id).arena.block b).core =
      if b = id then (s.arena.block b).vacated else (s.arena.block b).core :=
  Arena.core_vacate ..

theorem core_withoutAll (s : CodeStore) (ids : List BlockId) (b : BlockId) :
    ((s.withoutAll ids).arena.block b).core =
      if b ∈ ids then (s.arena.block b).vacated else (s.arena.block b).core := by
  induction ids generalizing s with
  | nil => simp
  | cons id rest ih =>
      rw [withoutAll_cons, ih, ← Descriptor.vacated_core, core_without]
      by_cases hb : b = id
      · simp [hb]
      · simp [hb]

theorem outline_withoutAll (s : CodeStore) (ids : List BlockId) :
    (s.withoutAll ids).arena.outline = s.arena.outline :=
  withoutAll_induction (P := fun t => t.arena.outline = s.arena.outline)
    (fun _ id _ ht => (Arena.outline_vacate _ id).trans ht) rfl

theorem isLive_withoutAll (s : CodeStore) (ids : List BlockId) (b : BlockId) :
    (s.withoutAll ids).arena.isLive b = if b ∈ ids then false else s.arena.isLive b := by
  rw [Arena.isLive, ← Descriptor.isLive_core, core_withoutAll]
  split
  · rfl
  · rfl

theorem sourceOf_withoutAll (s : CodeStore) (ids : List BlockId) (b : BlockId) :
    (s.withoutAll ids).arena.sourceOf b = if b ∈ ids then none else s.arena.sourceOf b := by
  rw [Arena.sourceOf, ← Descriptor.source_core, core_withoutAll]
  split
  · rfl
  · rfl

end CodeStore

end Recompiler
