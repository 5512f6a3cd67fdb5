import Mathlib.Data.List.Dedup
import Recompiler.Proofs.Store.Queue

/-!
# The oldest go first

A log names every block closed, in order of time.  A descriptor is used again
and again, so a name may be there more than once; the age of a block is a matter
of the last time.  The queue of compiled blocks is the log in that order, with
what was torn down left out.  So opening a region, which takes blocks off the
front of the queue, evicts none that is younger than one it leaves.
-/

namespace Recompiler

/-! ## Ages in a log -/

/-- The last time a log names a block is before the last time it names
another. -/
def Older (log : List BlockId) (x y : BlockId) : Prop :=
  ∃ earlier later, log = earlier ++ later ∧ x ∈ earlier ∧ x ∉ later ∧ y ∈ later

theorem Older.cons {log : List BlockId} {x y : BlockId} (h : Older log x y) (z : BlockId) :
    Older (z :: log) x y := by
  obtain ⟨earlier, later, rfl, hx, hlater, hy⟩ := h
  exact ⟨z :: earlier, later, rfl, List.mem_cons_of_mem _ hx, hlater, hy⟩

/-- A log without repetitions, where each name stands at its last place, is in
order of age. -/
theorem pairwise_older (log : List BlockId) : log.dedup.Pairwise (Older log) := by
  induction log with
  | nil => exact .nil
  | cons x log ih =>
      have ih := ih.imp fun h => Older.cons h x
      by_cases hx : x ∈ log
      · rw [List.dedup_cons_of_mem hx]
        exact ih
      · rw [List.dedup_cons_of_notMem hx]
        exact .cons (fun y hy => ⟨[x], log, rfl, List.mem_singleton_self x, hx,
          List.mem_dedup.mp hy⟩) ih

theorem dedup_concat (log : List BlockId) (x : BlockId) :
    (log ++ [x]).dedup = log.dedup.filter (· ≠ x) ++ [x] := by
  induction log with
  | nil => rfl
  | cons y log ih =>
      by_cases hy : y ∈ log
      · rw [List.cons_append, List.dedup_cons_of_mem (List.mem_append_left _ hy), ih,
          List.dedup_cons_of_mem hy]
      · by_cases hxy : y = x
        · subst hxy
          rw [List.cons_append, List.dedup_cons_of_mem List.mem_concat_self, ih,
            List.dedup_cons_of_notMem hy, List.filter_cons_of_neg (by simp)]
        · rw [List.cons_append, List.dedup_cons_of_notMem (by simp [hy, hxy]), ih,
            List.dedup_cons_of_notMem hy, List.filter_cons_of_pos (by simp [hxy])]
          rfl

namespace Arena

def byAge (a : Arena) (log : List BlockId) : List BlockId := log.dedup.filter a.isLive

end Arena

namespace CodeStore

/-! ## Histories -/

def Action.closes (s : CodeStore) : Action → List BlockId
  | .close _ _ => s.arena.opened.toList
  | _ => []

/-- Stores that come of a new one, with the log of what was closed.  Besides
the actions that did not fail compiled blocks are put into the index, and the
watches may change in any way. -/
inductive History (settings : Settings) : List BlockId → CodeStore → Prop
  | new : History settings [] (.new settings)
  | perform {log : List BlockId} {s s' : CodeStore} {a : Action} (h : History settings log s)
      (hp : s.perform a = .ok s') : History settings (log ++ a.closes s) s'
  | index {log : List BlockId} {s : CodeStore} {id : BlockId} (h : History settings log s)
      (hid : s.arena.isLive id = true) (watch : WatchId) (page : Vector UInt8 pageSize)
      (first last : Offset) : History settings log (s.indexBlock id watch page first last)
  | watch {log : List BlockId} {s : CodeStore} (h : History settings log s) (watches : Watches) :
      History settings log { s with watches }

/-- A store whose queue is in order of age. -/
structure Aged (log : List BlockId) (s : CodeStore) : Prop where
  sound : s.Sound
  aligned : s.arena.Aligned
  queue : s.arena.queue = s.arena.byAge log

namespace Aged

variable {log : List BlockId} {s s' : CodeStore} (h : s.Aged log)

include h

/-- The order is kept by whatever leaves the regions and compiles nothing. -/
theorem of_cycle (hs : s'.Sound) (ha : s'.arena.Aligned) (hc : s'.arena.cycle = s.arena.cycle)
    (hl : ∀ x, s'.arena.isLive x = true → s.arena.isLive x = true) : s'.Aged log := by
  refine ⟨hs, ha, ?_⟩
  rw [Arena.queue_of_cycle hc hl, h.queue, Arena.byAge, Arena.filter_isLive_filter hl, Arena.byAge]

/-- **Closing makes a block the youngest.** -/
theorem close {kind : BlockKind} {program : List Operation} {id : BlockId} {a : Arena}
    (hc : s.arena.close kind program = .ok (id, a)) :
    a.queue = a.byAge (log ++ [id]) := by
  have hdead := (h.sound.arranged.opened id (Arena.of_close_ok hc).1).2.1
  have hlive := Arena.field_close h.sound.arranged hc Descriptor.isLive fun _ _ _ => rfl
  rw [h.sound.arranged.queue_close h.aligned hc, h.queue, Arena.byAge, Arena.byAge, dedup_concat,
    List.filter_append, List.filter_append, List.filter_filter, List.filter_filter]
  congr 1
  refine List.filter_congr fun x _ => ?_
  by_cases hx : x = id
  · simp [hx, hdead]
  · have : a.isLive x = s.arena.isLive x := (hlive x).trans (if_neg hx)
    simp [hx, this]

/-- **Every action keeps the queue in order of age.** -/
theorem perform {action : Action} (hp : s.perform action = .ok s') :
    s'.Aged (log ++ action.closes s) := by
  have hs := h.sound.perform hp
  have ha := aligned_perform h.sound.arranged h.aligned hp
  have hp := of_perform_ok hp
  cases action with
  | openRegion =>
      obtain ⟨id, ho⟩ := hp
      obtain ⟨_, hact, _, _, hre⟩ := reopened_of_ok h.sound.arranged ho
      refine ⟨hs, ha, ?_⟩
      rw [show log ++ Action.closes s .openRegion = log from List.append_nil log,
        hre.queue_filter h.sound.arranged hact, h.queue, Arena.byAge,
        Arena.filter_isLive_filter hre.isLive_of_isLive, Arena.byAge]
  | emit _ | fill _ _ | emitProgram _ =>
      obtain ⟨pen, rfl⟩ := hp
      show Aged (log ++ []) _
      rw [List.append_nil]
      exact h.of_cycle hs ha rfl fun _ hx => hx
  | close _ _ =>
      obtain ⟨id, a, hc, rfl⟩ := hp
      rw [Action.closes, (Arena.of_close_ok hc).1]
      exact ⟨hs, ha, h.close hc⟩
  | discard id =>
      show Aged (log ++ []) _
      rw [List.append_nil]
      rcases of_discard_ok hp with ⟨_, rfl⟩ | ⟨_, s₁, _, rfl⟩
      · exact h
      · have hframe := Arena.frame_of_outline (Arena.outline_vacate s.arena id)
        refine h.of_cycle hs ha (Arena.cycle_of_frame hframe) fun x hx => ?_
        rw [Arena.isLive_vacate] at hx
        split at hx
        · cases hx
        · exact hx
  | link _ _ _ =>
      obtain ⟨a, hl, rfl⟩ := hp
      show Aged (log ++ []) _
      rw [List.append_nil]
      have halike := Arena.Alike.link hl
      have hframe := Arena.frame_of_outline halike.outline.symm
      exact h.of_cycle hs ha (Arena.cycle_of_frame hframe) fun x hx => (halike.isLive x).trans hx

theorem index {id : BlockId} (hid : s.arena.isLive id = true) (watch : WatchId)
    (page : Vector UInt8 pageSize) (first last : Offset) :
    (s.indexBlock id watch page first last).Aged log := by
  have hT := h.sound.linked.not_trampoline_of_isLive hid
  have hfield : ∀ {α : Type} (g : Descriptor → α) (_ : ∀ d src, g { d with source := src } = g d) b,
      g ((s.indexBlock id watch page first last).arena.block b) = g (s.arena.block b) :=
    fun g hg b => Arena.field_modify s.arena id b g fun d => hg d _
  have hframe : (s.indexBlock id watch page first last).arena.frame = s.arena.frame :=
    Arena.frame_of_outline (Arena.outline_modify ..)
  have hlive := hfield Descriptor.isLive fun _ _ => rfl
  have hstart := hfield Descriptor.start fun _ _ => rfl
  have hsize := hfield Descriptor.size fun _ _ => rfl
  refine h.of_cycle ⟨?_, ?_⟩ ?_ (Arena.cycle_of_frame hframe) fun x hx => (hlive x).symm.trans hx
  · exact h.sound.arranged.congr hframe.symm (fun _ hx => hx) hstart hsize
      fun x _ hx => (hlive x).trans hx
  · refine h.sound.linked.congr (fun slot => ?_) (hfield _ fun _ _ => rfl)
      (hfield _ fun _ _ => rfl) fun d _ => ⟨hfield _ (fun _ _ => rfl) d, hstart d⟩
    have hne : id ≠ .trampoline slot := fun he => by
      rw [he, BlockId.isTrampoline_trampoline] at hT
      cases hT
    rw [← h.sound.linked.stub slot]
    exact (Arena.block_modify ..).trans (if_neg fun he => hne he.1)
  · exact h.aligned.congr hframe.symm hstart hsize (fun x hx => Or.inl ((hlive x).symm.trans hx))
      h.aligned.cursor

end Aged

theorem aged_new {settings : Settings} (hs : settings.Valid) : (CodeStore.new settings).Aged [] := by
  refine ⟨sound_new hs, aligned_new hs, ?_⟩
  refine List.filter_eq_nil_iff.mpr fun x _ => ?_
  rw [show (CodeStore.new settings).arena.isLive x = false from (Arena.block_new_clean hs x).2.2.1]
  exact Bool.false_ne_true

theorem History.aged {settings : Settings} (hs : settings.Valid) {log : List BlockId}
    {s : CodeStore} (h : History settings log s) : s.Aged log := by
  induction h with
  | new => exact aged_new hs
  | perform _ hp ih => exact ih.perform hp
  | index _ hid watch page first last ih => exact ih.index hid watch page first last
  | watch _ watches ih => exact ⟨⟨ih.sound.arranged, ih.sound.linked⟩, ih.aligned, ih.queue⟩

/-! ## What opening leaves in the index -/

theorem filter_remove {w v : Watch} {id : BlockId} {src : Source} (h : w.remove? id src = some v)
    {p : BlockId → Bool} (hp : p id = false) (k : Bucket) :
    (getElem v.buckets k.val k.isLt).filter p = (getElem w.buckets k.val k.isLt).filter p := by
  have herase : ∀ l : List BlockId, (l.erase id).filter p = l.filter p := by
    intro l
    rw [← List.erase_filter, List.erase_of_not_mem fun hm => by simp [hp] at hm]
  unfold Watch.remove? at h
  simp only at h
  split at h
  · cases h
    show List.filter p ((w.buckets.set src.buckets.1.val _ src.buckets.1.isLt)[k.val]) = _
    rw [Vector.getElem_set]
    split
    · next hk =>
        rw [herase]
        simp only [hk]
    · rfl
  · cases h

theorem filter_unindex {s s' : CodeStore} {id : BlockId} (h : s.unindex id = .ok s')
    {p : BlockId → Bool} (hp : p id = false) (w : WatchId) (k : Bucket) :
    (getElem (s'.watches.watch w).buckets k.val k.isLt).filter p =
      (getElem (s.watches.watch w).buckets k.val k.isLt).filter p := by
  unfold unindex at h
  split at h
  · cases h
    rfl
  · next src _ =>
      split at h
      · cases h
      · next v hv =>
          cases h
          by_cases hlt : src.watch.number < s.watches.capacity
          · rw [Watches.watch_set _ _ _ _ hlt]
            split
            · next hw => exact hw ▸ filter_remove hv hp k
            · rfl
          · rw [Watches.set, Array.setIfInBounds_eq_of_size_le (Nat.le_of_not_lt hlt)]

theorem filter_evict {s s' : CodeStore} {id : BlockId} (hid : id.isTrampoline = false)
    (h : s.evict id = .ok s') (w : WatchId) (k : Bucket) :
    (getElem (s'.watches.watch w).buckets k.val k.isLt).filter s'.arena.isLive =
      (getElem (s.watches.watch w).buckets k.val k.isLt).filter s'.arena.isLive := by
  have hdead : s'.arena.isLive id = false := by rw [isLive_evict hid h, if_pos rfl]
  rcases of_evict_ok h with ⟨_, rfl⟩ | ⟨_, s₁, hd, rfl⟩
  · rfl
  · rcases of_discard_ok hd with ⟨_, rfl⟩ | ⟨_, s₂, hu, rfl⟩
    · rfl
    · exact filter_unindex hu hdead w k

theorem filter_openRegion {s s' : CodeStore} {id : BlockId} (h : s.Sound)
    (ho : s.openRegion = .ok (id, s')) (w : WatchId) (k : Bucket) :
    (getElem (s'.watches.watch w).buckets k.val k.isLt).filter s'.arena.isLive =
      (getElem (s.watches.watch w).buckets k.val k.isLt).filter s'.arena.isLive := by
  refine (openRegion_induction (P := fun t =>
    (getElem (t.watches.watch w).buckets k.val k.isLt).filter t.arena.isLive =
      (getElem (s.watches.watch w).buckets k.val k.isLt).filter t.arena.isLive)
    ?_ ?_ ?_ h.arranged h.linked ho
    rfl).2
  · intro t t' x _ hx he ht
    have hlive : ∀ y, t'.arena.isLive y = true → t.arena.isLive y = true := by
      intro y hy
      rw [isLive_evict hx he] at hy
      split at hy
      · cases hy
      · exact hy
    rw [filter_evict hx he, ← Arena.filter_isLive_filter hlive, ht,
      Arena.filter_isLive_filter hlive]
  · intro t x _ hx hd ht
    have hlive : (t.arena.recycle x).isLive = t.arena.isLive := by
      funext y
      rw [Arena.isLive, Arena.recycle]
      refine (congrArg Descriptor.isLive (Arena.block_modify ..)).trans ?_
      split
      · next hy => exact (hy.1 ▸ hd).symm
      · rfl
    show List.filter (t.arena.recycle x).isLive _ = List.filter (t.arena.recycle x).isLive _
    rw [hlive]
    exact ht
  · intro t x size a _ _ _ hb ht
    have hlive : a.isLive = t.arena.isLive := by
      funext y
      rw [Arena.isLive, hb, ← Arena.isLive, Arena.isLive_resize]
    show List.filter a.isLive _ = List.filter a.isLive _
    rw [hlive]
    exact ht

/-! ## Eviction -/

/-- What goes when a region is opened, and what stays. -/
structure EvictsOldest (log : List BlockId) (s s' : CodeStore) : Prop where
  compiled : ∀ x, s.arena.isLive x = true → x ∈ log
  /-- What goes is what is compiled in the active region and in those joined to
  it, and it is the front of the compiled blocks by age. -/
  front : ∃ joined rest, (s.arena.around s.arena.active).2 = joined ++ rest ∧
    s.arena.byAge log =
      (s.arena.active :: joined).filter s.arena.isLive ++ s'.arena.byAge log
  older : ∀ x y, s.arena.isLive x = true → s'.arena.isLive x = false →
    s'.arena.isLive y = true → Older log x y
  kept : ∀ y, s'.arena.isLive y = true → s.arena.isLive y = true ∧
    (s'.arena.block y).core = (s.arena.block y).core
  /-- What stays is listed where it was, in the same order. -/
  listed : ∀ w (k : Bucket),
    (getElem (s'.watches.watch w).buckets k.val k.isLt).filter s'.arena.isLive =
      (getElem (s.watches.watch w).buckets k.val k.isLt).filter s'.arena.isLive

/-- **The oldest blocks go first,** whatever was opened, written, closed, torn
down, linked and indexed before. -/
theorem evictsOldest_of_history {settings : Settings} (hs : settings.Valid) {log : List BlockId}
    {s s' : CodeStore} {id : BlockId} (h : History settings log s)
    (ho : s.openRegion = .ok (id, s')) : EvictsOldest log s s' := by
  obtain ⟨hsound, _, hqueue⟩ := h.aged hs
  obtain ⟨_, hact, joined, rest, hre⟩ := reopened_of_ok hsound.arranged ho
  have hmem : ∀ x, s.arena.isLive x = true → x ∈ s.arena.byAge log := fun x hx =>
    hqueue ▸ (hsound.arranged.mem_queue hsound.linked).mpr hx
  have hqueue' : s'.arena.queue = s'.arena.byAge log := by
    rw [hre.queue_filter hsound.arranged hact, hqueue, Arena.byAge,
      Arena.filter_isLive_filter hre.isLive_of_isLive, Arena.byAge]
  have hfront := hre.queue_eq hsound.arranged hact
  rw [hqueue, hqueue', hact] at hfront
  refine ⟨fun x hx => ?_, ⟨joined, rest, hact ▸ hre.after, hfront⟩, fun x y hx hx' hy => ?_,
    fun y hy => ⟨hre.isLive_of_isLive y hy, hre.core_of_isLive hy⟩, filter_openRegion hsound ho⟩
  · exact List.mem_dedup.mp (List.mem_of_mem_filter (hmem x hx))
  · have hpairwise := (pairwise_older log).filter s.arena.isLive
    rw [← Arena.byAge, hfront, List.pairwise_append] at hpairwise
    have hy' : y ∈ s'.arena.byAge log := by
      have := hmem y (hre.isLive_of_isLive y hy)
      exact List.mem_filter.mpr ⟨List.mem_of_mem_filter this, hy⟩
    refine hpairwise.2.2 x ?_ y hy'
    refine (List.mem_append.mp (hfront ▸ hmem x hx)).resolve_right fun hm => ?_
    exact Bool.false_ne_true (hx'.symm.trans (List.mem_filter.mp hm).2)

def record (p : List BlockId × CodeStore) (a : Action) :
    Except Fault (List BlockId × CodeStore) := do
  let s ← p.2.perform a
  return (p.1 ++ a.closes p.2, s)

theorem History.foldlM {settings : Settings} {as : List Action} {p q : List BlockId × CodeStore}
    (h : History settings p.1 p.2)
    (hq : as.foldlM record p = .ok q) : History settings q.1 q.2 := by
  induction as generalizing p with
  | nil =>
      cases hq
      exact h
  | cons a rest ih =>
      obtain ⟨r, hr, hq⟩ := bind_eq_ok_iff.mp hq
      obtain ⟨s, hs, hr⟩ := bind_eq_ok_iff.mp hr
      cases hr
      exact ih (h.perform hs) hq

/-- A region was used again, so the block in it is the younger one. -/
theorem evictsOldest_of_reused :
    Settings.small.Valid ∧ ∃ s id s', History .small [⟨2⟩, ⟨3⟩, ⟨4⟩, ⟨2⟩] s ∧
      s.openRegion = .ok (id, s') ∧ s.arena.byAge [⟨2⟩, ⟨3⟩, ⟨4⟩, ⟨2⟩] = [⟨4⟩, ⟨2⟩] ∧
      s'.arena.byAge [⟨2⟩, ⟨3⟩, ⟨4⟩, ⟨2⟩] = [⟨2⟩] ∧
      EvictsOldest [⟨2⟩, ⟨3⟩, ⟨4⟩, ⟨2⟩] s s' := by
  obtain ⟨⟨log, s⟩, hs, hp⟩ := exists_of_succeeds
    (x := [Action.openRegion, .fill 0x90 256, .close .normal [], .openRegion, .fill 0x90 256,
      .close .single [], .openRegion, .fill 0x90 512, .close .dual [], .openRegion, .fill 0x90 512,
      .close .normal []].foldlM record ([], .new .small))
    (p := fun q => q.1 = [⟨2⟩, ⟨3⟩, ⟨4⟩, ⟨2⟩] ∧ q.2.arena.isLive ⟨2⟩ ∧
      succeeds (q.2.indexBlock ⟨2⟩ ⟨0⟩ (Vector.replicate pageSize 0) 0 0).openRegion fun r =>
        (q.2.indexBlock ⟨2⟩ ⟨0⟩ (Vector.replicate pageSize 0) 0 0).arena.byAge q.1 = [⟨4⟩, ⟨2⟩] ∧
          r.2.arena.byAge q.1 = [⟨2⟩])
    (by decide +kernel)
  obtain ⟨rfl, hlive, hopen⟩ := of_decide_eq_true hp
  obtain ⟨⟨id, s'⟩, ho, hage⟩ := exists_of_succeeds hopen
  obtain ⟨hbefore, hafter⟩ := of_decide_eq_true hage
  have h : History .small _ s := History.foldlM (p := ([], .new .small)) .new hs
  have h := h.index hlive ⟨0⟩ (Vector.replicate pageSize 0) 0 0
  exact ⟨Settings.valid_small, _, id, s', h, ho, hbefore, hafter,
    evictsOldest_of_history Settings.valid_small h ho⟩

end CodeStore

end Recompiler
