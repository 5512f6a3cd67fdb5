import Recompiler.Proofs.Store.Coherent

/-!
# What freeing blocks leaves

Of the blocks that go nothing is left but their regions.  Every other block
keeps its record, its code and its place on the list that names it; of its exits
those that led to a freed block are back at their trampolines, and no others.
-/

namespace Recompiler

namespace CodeStore

/-- What is left of a store once some blocks were freed. -/
structure Frees (s : CodeStore) (ids : List BlockId) (s' : CodeStore) : Prop where
  outline : s'.arena.outline = s.arena.outline
  core : ∀ b, (s'.arena.block b).core =
    if b ∈ ids then (s.arena.block b).vacated else (s.arena.block b).core
  link : ∀ b slot, (s'.arena.block b).links.get slot =
    if b ∈ ids ∨ s.arena.successor b slot ∈ ids then .trampoline slot
    else (s.arena.block b).links.get slot
  /-- Lists keep their order. -/
  listed : ∀ id (k : Bucket), getElem (s'.watches.watch id).buckets k.val k.isLt =
    (getElem (s.watches.watch id).buckets k.val k.isLt).filter (· ∉ ids)

namespace Frees

variable {s s' s'' : CodeStore} {ids ids' : List BlockId}

theorem of_lists {ws : Watches} (h : ∀ id (k : Bucket), getElem (ws.watch id).buckets k.val k.isLt =
    getElem (s.watches.watch id).buckets k.val k.isLt) : s.Frees [] { s with watches := ws } :=
  ⟨rfl, fun b => by simp, fun b slot => by simp, fun id k => by simp [h id k]⟩

theorem refl (s : CodeStore) : s.Frees [] s := of_lists fun _ _ => rfl

theorem set {id : WatchId} (hid : id.number < s.watches.capacity) {w : Watch}
    (hw : ∀ k : Bucket, getElem w.buckets k.val k.isLt =
      getElem (s.watches.watch id).buckets k.val k.isLt) :
    s.Frees [] { s with watches := s.watches.set id w } := by
  refine of_lists fun x k => ?_
  rw [Watches.watch_set _ _ _ _ hid]
  split
  · next he => exact he ▸ hw k
  · rfl

theorem count (h : s.Frees ids s') (f : Counters → Counters) : s.Frees ids (s'.count f) :=
  ⟨h.outline, h.core, h.link, h.listed⟩

theorem successor (h : s.Frees ids s') (b : BlockId) (slot : Slot) :
    s'.arena.successor b slot =
      if b ∈ ids ∨ s.arena.successor b slot ∈ ids then .trampoline slot
      else s.arena.successor b slot := by
  rw [Arena.successor, h.link]
  split
  · rfl
  · rfl

theorem isLive (h : s.Frees ids s') (b : BlockId) :
    s'.arena.isLive b = if b ∈ ids then false else s.arena.isLive b := by
  rw [Arena.isLive, ← Descriptor.isLive_core, h.core]
  split
  · rfl
  · rfl

theorem sourceOf (h : s.Frees ids s') (b : BlockId) :
    s'.arena.sourceOf b = if b ∈ ids then none else s.arena.sourceOf b := by
  rw [Arena.sourceOf, ← Descriptor.source_core, h.core]
  split
  · rfl
  · rfl

theorem code (h : s.Frees ids s') (b : BlockId) : s'.arena.code b = s.arena.code b := by
  have hstart : (s'.arena.block b).start = (s.arena.block b).start := by
    rw [← Descriptor.start_core, h.core]
    split
    · rfl
    · rfl
  have hsize : (s'.arena.block b).size = (s.arena.block b).size := by
    rw [← Descriptor.size_core, h.core]
    split
    · rfl
    · rfl
  exact Arena.code_congr hstart hsize fun i _ _ => by rw [Arena.pen_of_outline h.outline]

theorem append (h : s.Frees ids s') (h' : s'.Frees ids' s'') : s.Frees (ids ++ ids') s'' := by
  refine ⟨h'.outline.trans h.outline, fun b => ?_, fun b slot => ?_, fun id k => ?_⟩
  · rw [h'.core, ← Descriptor.vacated_core, h.core]
    by_cases hb : b ∈ ids
    · simp [hb]
    · simp [hb]
  · rw [h'.link, h.link, h.successor]
    by_cases hgone : b ∈ ids ∨ s.arena.successor b slot ∈ ids
    · have hall : b ∈ ids ++ ids' ∨ s.arena.successor b slot ∈ ids ++ ids' :=
        hgone.imp (List.mem_append_left _) (List.mem_append_left _)
      rw [if_pos hgone, if_pos hgone, if_pos hall, ite_self]
    · have hall : (b ∈ ids ++ ids' ∨ s.arena.successor b slot ∈ ids ++ ids') ↔
          (b ∈ ids' ∨ s.arena.successor b slot ∈ ids') := by
        rw [not_or] at hgone
        simp [hgone.1, hgone.2]
      rw [if_neg hgone, if_neg hgone]
      exact if_congr hall.symm rfl rfl
  · rw [h'.listed, h.listed, List.filter_filter]
    refine List.filter_congr fun b _ => ?_
    simp only [List.mem_append, not_or, Bool.decide_and, Bool.and_comm]

end Frees

theorem filter_ne_eq_self {l : List BlockId} {b : BlockId} (h : b ∉ l) :
    l.filter (· ∉ [b]) = l := by
  refine List.filter_eq_self.mpr fun x hx => decide_eq_true ?_
  rw [List.mem_singleton]
  rintro rfl
  exact h hx

theorem frees_without {s : CodeStore} (hi : s.Indexed) (hl : s.arena.Linked) {b : BlockId}
    (hb : b.isTrampoline = false) : s.Frees [b] (s.without b) := by
  refine ⟨Arena.outline_vacate .., fun c => ?_, fun c slot => ?_, fun id k => ?_⟩
  · rw [core_without]
    simp only [List.mem_singleton]
  · simp only [List.mem_singleton]
    exact Arena.link_vacate hl hb c slot
  · unfold without
    cases hs : s.arena.sourceOf b with
    | none =>
        refine (filter_ne_eq_self fun hmem => ?_).symm
        obtain ⟨src, hsrc, _⟩ := ((hi.indexes id).listed k b).mp hmem
        rw [hs] at hsrc
        cases hsrc
    | some src =>
        have hlisted : b ∈ (s.watches.watch id).buckets[k.val] ↔
            src.watch = id ∧ src.buckets.1 = k := by
          rw [(hi.indexes id).listed, hs]
          simp
        show ((s.watches.set src.watch _).watch id).buckets[k.val] = _
        rw [Watches.watch_set _ _ _ _ (hi.lt_capacity hs)]
        by_cases hid : src.watch = id
        · rw [if_pos hid, Watch.buckets_strike, Watch.unlist, Vector.getElem_set, hid]
          by_cases hk : src.buckets.1 = k
          · subst hk
            rw [if_pos rfl, ((hi.indexes id).nodup _).erase_eq_filter]
            exact List.filter_congr fun x _ => by by_cases hx : x = b <;> simp [hx]
          · rw [if_neg fun he => hk (Fin.ext he), filter_ne_eq_self]
            exact fun hmem => hk (hlisted.mp hmem).2
        · rw [if_neg hid, filter_ne_eq_self]
          exact fun hmem => hid (hlisted.mp hmem).1

namespace Coherent

variable {l : Limits} {s : CodeStore} (h : s.Coherent l)

include h

theorem frees_withoutAll {ids : List BlockId} (hids : ∀ b ∈ ids, b.isTrampoline = false) :
    s.Frees ids (s.withoutAll ids) := by
  induction ids generalizing s with
  | nil => exact .refl s
  | cons b rest ih =>
      have hb := hids b List.mem_cons_self
      exact (frees_without h.indexed h.linked hb).append
        (ih (h.without hb) fun c hc => hids c (List.mem_cons_of_mem _ hc))

/-- **Invalidating a range frees exactly the blocks it meets,** answers with
their number, and tells whether the running block is among them. -/
theorem frees_invalidate {id : WatchId} (hid : id.number < s.watches.capacity)
    {first last : Offset} (hfl : first ≤ last) (running : Option BlockId) :
    ∃ ids : List BlockId, ids.Nodup ∧
      (∀ b, b ∈ ids ↔ ∃ src, s.arena.sourceOf b = some src ∧ src.watch = id ∧
        src.overlaps first last = true) ∧
      (s.invalidate id first last running).1 = ids.length ∧
      (s.invalidate id first last running).2.1 = ids.any (fun b => running = some b) ∧
      s.Frees ids (s.invalidate id first last running).2.2 := by
  obtain ⟨ids, hnodup, hids, f, heq, _⟩ := h.invalidate hid hfl running
  rw [heq]
  refine ⟨ids, hnodup, hids, rfl, rfl, (h.frees_withoutAll fun b hb => ?_).count f⟩
  obtain ⟨src, hs, _⟩ := (hids b).mp hb
  exact h.not_trampoline hs

end Coherent

end CodeStore

end Recompiler
