import Mathlib.Data.List.Nodup
import Recompiler.Proofs.Store.Index

/-!
# The order of a pool

A watch in use is changed, a free one is put up for a page, one in use is taken
down.  A log names every watch that was put up, in order of time; a watch is used
again and again, so what counts is the last time.  In that order the pool keeps
its watches in use, and what is free is as good as new.
-/

namespace Recompiler

namespace Watches

/-! ## Histories -/

/-- Pools that come of a new one, with the log of what was put up.  A watch
that is changed stays that of its page. -/
inductive History (settings : Settings) : List WatchId → Watches → Prop
  | new : History settings [] (.new settings.watches settings.releaseDelay.toNat)
  | change {log : List WatchId} {ws : Watches} {id : WatchId} {w : Watch}
      (h : History settings log ws) (hid : id ∈ ws.used) (hpage : w.page = (ws.watch id).page)
      (hdelay : w.delay = (ws.watch id).delay) : History settings log (ws.set id w)
  | install {log : List WatchId} {ws : Watches} {id : WatchId} (h : History settings log ws)
      (hid : id ∈ ws.free) (page : Nat) : History settings (log ++ [id]) (ws.install id page)
  | release {log : List WatchId} {ws : Watches} {id : WatchId} (h : History settings log ws)
      (hid : id ∈ ws.used) : History settings log (ws.release id)

def Recorded (settings : Settings) (ws : Watches) : Prop := ∃ log, History settings log ws

/-- The last time a log names a watch is before the last time it names
another. -/
def Outlasts (log : List WatchId) (x y : WatchId) : Prop :=
  ∃ earlier later, log = earlier ++ later ∧ x ∈ earlier ∧ x ∉ later ∧ y ∈ later

/-- What is put up now outlasts nothing. -/
theorem outlasts_concat {log : List WatchId} {x y : WatchId} (hx : x ∈ log) (hne : x ≠ y) :
    Outlasts (log ++ [y]) x y :=
  ⟨log, [y], rfl, hx, fun hm => hne (List.mem_singleton.mp hm), List.mem_singleton_self y⟩

theorem Outlasts.concat {log : List WatchId} {x y z : WatchId} (h : Outlasts log x y)
    (hne : x ≠ z) : Outlasts (log ++ [z]) x y := by
  obtain ⟨earlier, later, rfl, hx, hlater, hy⟩ := h
  refine ⟨earlier, later ++ [z], List.append_assoc .., hx, ?_, List.mem_append_left _ hy⟩
  rw [List.mem_append, not_or]
  exact ⟨hlater, fun hm => hne (List.mem_singleton.mp hm)⟩

/-! ## What every history keeps -/

/-- A pool in order. -/
structure Ordered (settings : Settings) (log : List WatchId) (ws : Watches) : Prop where
  nodup : (ws.free ++ ws.used).Nodup
  pooled : ∀ id, id ∈ ws.free ++ ws.used ↔ id.number < ws.capacity
  logged : ∀ id ∈ ws.used, id ∈ log
  /-- Those in use, by the time they were put up. -/
  oldest : ws.used.Pairwise (Outlasts log)
  idle : ∀ id ∈ ws.free, ws.watch id = .fresh 0 settings.releaseDelay.toNat
  delay : ∀ id ∈ ws.used, (ws.watch id).delay = settings.releaseDelay.toNat

theorem ordered_new (settings : Settings) :
    Ordered settings [] (.new settings.watches settings.releaseDelay.toNat) := by
  have hmem : ∀ id, id ∈ (Watches.new settings.watches settings.releaseDelay.toNat).free ↔
      id.number < settings.watches := by
    rintro ⟨n⟩
    simp [Watches.new]
  refine ⟨?_, fun id => ?_, nofun, .nil, fun id hid => ?_, nofun⟩
  · rw [show ((Watches.new _ _).free ++ (Watches.new _ _).used) = (List.range _).map .mk from
      List.append_nil _]
    exact List.nodup_range.map fun _ _ h => by cases h; rfl
  · rw [show ((Watches.new _ _).free ++ (Watches.new _ _).used) = (Watches.new _ _).free from
      List.append_nil _, hmem]
    simp [Watches.new, capacity]
  · have hlt := (hmem id).mp hid
    simp [Watches.new, watch, hlt]

namespace Ordered

variable {settings : Settings} {log : List WatchId} {ws : Watches} (h : Ordered settings log ws)
  {id : WatchId}

include h

theorem not_free (hid : id ∈ ws.used) : id ∉ ws.free := fun hf =>
  List.disjoint_of_nodup_append h.nodup hf hid

theorem lt_of_used (hid : id ∈ ws.used) : id.number < ws.capacity :=
  (h.pooled id).mp (List.mem_append_right _ hid)

theorem lt_of_free (hid : id ∈ ws.free) : id.number < ws.capacity :=
  (h.pooled id).mp (List.mem_append_left _ hid)

theorem change (hid : id ∈ ws.used) {w : Watch} (hdelay : w.delay = (ws.watch id).delay) :
    Ordered settings log (ws.set id w) := by
  have hwatch := fun x => ws.watch_set id x w (h.lt_of_used hid)
  refine ⟨h.nodup, fun x => ?_, h.logged, h.oldest, fun x hx => ?_, fun x hx => ?_⟩
  · rw [capacity_set]
    exact h.pooled x
  · have hne : id ≠ x := fun he => h.not_free hid (he ▸ hx)
    rw [hwatch, if_neg hne]
    exact h.idle x hx
  · rw [hwatch]
    split
    · exact hdelay.trans (h.delay id hid)
    · exact h.delay x hx

theorem install (hid : id ∈ ws.free) (page : Nat) :
    Ordered settings (log ++ [id]) (ws.install id page) := by
  have hperm := perm_install hid page
  have hfresh : (ws.watch id).delay = settings.releaseDelay.toNat := by rw [h.idle id hid]; rfl
  have hwatch := fun x => ws.watch_set id x (.fresh page (ws.watch id).delay) (h.lt_of_free hid)
  have hother : ∀ x ∈ ws.used, x ≠ id := fun x hx he => h.not_free hx (he ▸ hid)
  refine ⟨hperm.nodup_iff.mpr h.nodup, fun x => ?_, fun x hx => ?_, ?_, fun x hx => ?_,
    fun x hx => ?_⟩
  · exact hperm.mem_iff.trans ((h.pooled x).trans (by rw [← capacity_set ws id _]; rfl))
  · rcases List.mem_append.mp hx with hx | hx
    · exact List.mem_append_left _ (h.logged x hx)
    · exact List.mem_append_right _ hx
  · refine List.pairwise_append.mpr ⟨?_, List.pairwise_singleton .., fun x hx y hy => ?_⟩
    · exact h.oldest.imp_of_mem fun hx _ hold => hold.concat (hother _ hx)
    · rw [List.mem_singleton.mp hy]
      exact outlasts_concat (h.logged x hx) (hother x hx)
  · have hne : id ≠ x := by
      rintro rfl
      exact (List.nodup_append.mp h.nodup).1.not_mem_erase hx
    show (ws.set id _).watch x = _
    rw [hwatch, if_neg hne]
    exact h.idle x (List.mem_of_mem_erase hx)
  · show ((ws.set id _).watch x).delay = _
    rw [hwatch]
    split
    · exact hfresh
    · next hne =>
        rcases List.mem_append.mp hx with hx | hx
        · exact h.delay x hx
        · exact absurd (List.mem_singleton.mp hx).symm hne

theorem release (hid : id ∈ ws.used) : Ordered settings log (ws.release id) := by
  have hwatch := fun x => ws.watch_set id x (.fresh 0 (ws.watch id).delay) (h.lt_of_used hid)
  have hsub : List.Sublist (ws.used.filter fun x => decide (x ≠ id)) ws.used :=
    List.filter_sublist
  have hperm := perm_release (List.nodup_append.mp h.nodup).2.1 hid
  refine ⟨hperm.nodup_iff.mpr h.nodup, fun x => ?_, fun x hx => h.logged x (hsub.subset hx),
    h.oldest.sublist hsub, fun x hx => ?_, fun x hx => ?_⟩
  · exact hperm.mem_iff.trans ((h.pooled x).trans (by rw [← capacity_set ws id _]; rfl))
  · show (ws.set id _).watch x = _
    rw [hwatch]
    split
    · rw [h.delay id hid]
    · next hne => exact h.idle x ((List.mem_cons.mp hx).resolve_left (Ne.symm hne))
  · obtain ⟨hused, hne⟩ := List.mem_filter.mp hx
    show ((ws.set id _).watch x).delay = _
    rw [hwatch, if_neg (Ne.symm (of_decide_eq_true hne))]
    exact h.delay x hused

end Ordered

/-- **A pool is in order whatever happened to it.** -/
theorem History.ordered {settings : Settings} {log : List WatchId} {ws : Watches}
    (h : History settings log ws) : Ordered settings log ws := by
  induction h with
  | new => exact ordered_new settings
  | change _ hid _ hdelay ih => exact ih.change hid hdelay
  | install _ hid page ih => exact ih.install hid page
  | release _ hid ih => exact ih.release hid

namespace Recorded

variable {settings : Settings} {ws : Watches}

theorem new : Recorded settings (.new settings.watches settings.releaseDelay.toNat) :=
  ⟨[], .new⟩

theorem change (h : ws.Recorded settings) {id : WatchId} (hid : id ∈ ws.used) {w : Watch}
    (hpage : w.page = (ws.watch id).page) (hdelay : w.delay = (ws.watch id).delay) :
    (ws.set id w).Recorded settings := by
  obtain ⟨log, hlog⟩ := h
  exact ⟨log, hlog.change hid hpage hdelay⟩

theorem install (h : ws.Recorded settings) {id : WatchId} (hid : id ∈ ws.free) (page : Nat) :
    (ws.install id page).Recorded settings := by
  obtain ⟨log, hlog⟩ := h
  exact ⟨log ++ [id], hlog.install hid page⟩

theorem release (h : ws.Recorded settings) {id : WatchId} (hid : id ∈ ws.used) :
    (ws.release id).Recorded settings := by
  obtain ⟨log, hlog⟩ := h
  exact ⟨log, hlog.release hid⟩

end Recorded

end Watches

end Recompiler
