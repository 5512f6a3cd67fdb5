import Recompiler.Proofs.Store.Discard

/-!
# Invalidating a range of bytes

A watch is searched bucket by bucket, downward, and the search stops when the
counts say that nothing is left.  What it comes to is this: exactly the blocks
whose source meets the range are torn down.
-/

namespace Recompiler

theorem Watches.set_set (ws : Watches) (id : WatchId) (v w : Watch) :
    (ws.set id v).set id w = ws.set id w := by
  simp [Watches.set]

theorem Watches.set_watch (ws : Watches) (id : WatchId) :
    ws.set id (ws.watch id) = ws := by
  have : ws.pool.setIfInBounds id.number (ws.watch id) = ws.pool := by
    refine Array.ext (by simp) fun i h1 h2 => ?_
    rw [Array.getElem_setIfInBounds]
    split
    · next he =>
        subst he
        simp [Watches.watch, h2]
    · rfl
  rw [Watches.set, this]

namespace Sweep

/-- The search once some blocks are off the list of their bucket. -/
def delist (w : Sweep) (k : Bucket) (ids : List BlockId) : Sweep :=
  { w with
    watch := { w.watch with
      buckets := w.watch.buckets.set k.val
        ((getElem w.watch.buckets k.val k.isLt).filter fun b => !ids.contains b) k.isLt } }

def tear (w : Sweep) (running : Option BlockId) (b : BlockId) (src : Source) : Sweep :=
  { w with
    watch := w.watch.strike b src
    arena := w.arena.vacate b
    freed := w.freed + 1
    metRunning := w.metRunning || running = some b }

theorem buckets_tear (w : Sweep) (running : Option BlockId) {b : BlockId} {src : Source}
    {k : Bucket} (hk : src.buckets.1 = k) :
    (w.tear running b src).watch.buckets =
      w.watch.buckets.set k.val ((getElem w.watch.buckets k.val k.isLt).erase b) k.isLt := by
  subst hk
  show (w.watch.strike b src).buckets = _
  rw [Watch.buckets_strike, Watch.unlist]

/-- Off the list first or one by one, what is left of it is the same. -/
theorem free_delist (w : Sweep) (running : Option BlockId) {b : BlockId} {src : Source}
    {k : Bucket} (rest : List BlockId) (hs : w.arena.sourceOf b = some src) (hk : src.buckets.1 = k)
    (hnodup : (getElem w.watch.buckets k.val k.isLt).Nodup) :
    free running (w.delist k (b :: rest)) b = (w.tear running b src).delist k rest := by
  have hfilter : (w.watch.buckets[k.val].filter fun x => !(b :: rest).contains x) =
      ((w.watch.buckets[k.val].erase b).filter fun x => !rest.contains x) := by
    rw [hnodup.erase_eq_filter, List.filter_filter]
    refine List.filter_congr fun x _ => ?_
    by_cases hx : x = b <;> simp [hx]
  unfold delist
  rw [hfilter, buckets_tear w running hk, Vector.set_set, Vector.getElem_set_self]
  unfold free
  rw [show (w.arena.block b).source = some src from hs]
  rfl

end Sweep

namespace CodeStore

def withSweep (s : CodeStore) (id : WatchId) (w : Sweep) : CodeStore :=
  ⟨w.arena, s.watches.set id w.watch⟩

def hits (w : Sweep) (first last : Offset) (k : Bucket) : List BlockId :=
  (getElem w.watch.buckets k.val k.isLt).filter fun b =>
    (w.arena.sourceOf b).any (·.overlaps first last)

section Sweep

variable {s : CodeStore} {id : WatchId} (hid : id.number < s.watches.capacity)
  {first last : Offset} {running : Option BlockId}

include hid

theorem watch_withSweep (w : Sweep) : (s.withSweep id w).watches.watch id = w.watch := by
  show (s.watches.set id w.watch).watch id = _
  rw [Watches.watch_set _ _ _ _ hid, if_pos rfl]

theorem without_withSweep {w : Sweep} {b : BlockId} {src : Source}
    (hb : w.arena.sourceOf b = some src) (hw : src.watch = id) :
    (s.withSweep id w).without b =
      s.withSweep id { w with watch := w.watch.strike b src, arena := w.arena.vacate b } := by
  unfold CodeStore.without
  rw [show (s.withSweep id w).arena.sourceOf b = some src from hb]
  simp only
  rw [hw, watch_withSweep hid]
  show CodeStore.mk _ ((s.watches.set id w.watch).set id _) = _
  rw [Watches.set_set]
  rfl

/-- Freeing blocks that were taken off their list is tearing them down one
after the other. -/
theorem foldl_free (k : Bucket) (ids : List BlockId) (w : Sweep) (hids : ids.Nodup)
    (hnodup : w.watch.buckets[k.val].Nodup)
    (hsource : ∀ b ∈ ids, ∃ src, w.arena.sourceOf b = some src ∧ src.watch = id ∧
      src.buckets.1 = k) :
    let r := ids.foldl (Sweep.free running) (w.delist k ids)
    s.withSweep id r = (s.withSweep id w).withoutAll ids ∧ r.freed = w.freed + ids.length ∧
      r.metRunning = (w.metRunning || ids.any fun b => running = some b) := by
  induction ids generalizing w with
  | nil => simp [Sweep.delist]
  | cons b rest ih =>
      obtain ⟨hb, hrest⟩ := List.nodup_cons.mp hids
      obtain ⟨src, hs, hw, hk⟩ := hsource b List.mem_cons_self
      have hnodup' : (w.tear running b src).watch.buckets[k.val].Nodup := by
        rw [Sweep.buckets_tear w running hk, Vector.getElem_set_self]
        exact hnodup.erase b
      have hsource' : ∀ x ∈ rest, ∃ src', (w.tear running b src).arena.sourceOf x = some src' ∧
          src'.watch = id ∧ src'.buckets.1 = k := by
        intro x hx
        have hne : x ≠ b := fun he => hb (he ▸ hx)
        show ∃ src', (w.arena.vacate b).sourceOf x = some src' ∧ _
        rw [Arena.sourceOf_vacate, Watch.setSource, if_neg hne]
        exact hsource x (List.mem_cons_of_mem _ hx)
      obtain ⟨h1, h2, h3⟩ := ih _ hrest hnodup' hsource'
      rw [List.foldl_cons, Sweep.free_delist w running rest hs hk hnodup]
      refine ⟨?_, ?_, ?_⟩
      · rw [h1, withoutAll_cons, without_withSweep hid hs hw]
        rfl
      · rw [h2, List.length_cons]
        show w.freed + 1 + _ = _
        omega
      · rw [h3, List.any_cons, ← Bool.or_assoc]
        rfl

/-- Searching a bucket tears down the blocks in it that are met. -/
theorem bucket_spec (k : Bucket) (w : Sweep) (h : (s.withSweep id w).Indexed) :
    let r := w.bucket first last running k
    s.withSweep id r = (s.withSweep id w).withoutAll (hits w first last k) ∧
      r.freed = w.freed + (hits w first last k).length ∧
      r.metRunning = (w.metRunning || (hits w first last k).any fun b => running = some b) := by
  have hidx := h.indexes id
  rw [watch_withSweep hid] at hidx
  have hnodup := hidx.nodup k
  have hsource : ∀ b ∈ hits w first last k, ∃ src, w.arena.sourceOf b = some src ∧
      src.watch = id ∧ src.buckets.1 = k := fun b hb =>
    (hidx.listed k b).mp (List.mem_of_mem_filter hb)
  unfold Sweep.bucket
  simp only
  split
  · next he =>
      have : hits w first last k = [] := List.isEmpty_iff.mp he
      simp [this]
  · exact foldl_free hid k _ w (hnodup.filter _) hnodup hsource

theorem mem_hits {w : Sweep} (h : (s.withSweep id w).Indexed) {k : Bucket} {b : BlockId} :
    b ∈ hits w first last k ↔ ∃ src, w.arena.sourceOf b = some src ∧ src.watch = id ∧
      src.buckets.1 = k ∧ src.overlaps first last = true := by
  have hidx := h.indexes id
  rw [watch_withSweep hid] at hidx
  rw [hits, List.mem_filter, hidx.listed]
  constructor
  · rintro ⟨⟨src, hs, hw, hk⟩, ho⟩
    rw [show (s.withSweep id w).arena.sourceOf b = w.arena.sourceOf b from rfl] at hs
    rw [hs] at ho
    exact ⟨src, hs, hw, hk, ho⟩
  · rintro ⟨src, hs, hw, hk, ho⟩
    refine ⟨⟨src, hs, hw, hk⟩, ?_⟩
    rw [hs]
    exact ho

theorem sourceOf_bucket (k : Bucket) {w : Sweep} (h : (s.withSweep id w).Indexed) (b : BlockId) :
    (w.bucket first last running k).arena.sourceOf b =
      if b ∈ hits w first last k then none else w.arena.sourceOf b := by
  show (s.withSweep id (w.bucket first last running k)).arena.sourceOf b = _
  rw [(bucket_spec hid k w h).1, sourceOf_withoutAll]
  rfl

theorem indexed_bucket (k : Bucket) {w : Sweep} (h : (s.withSweep id w).Indexed) :
    (s.withSweep id (w.bucket first last running k)).Indexed := by
  rw [(bucket_spec hid k w h).1]
  exact withoutAll_induction (fun _ b _ ht => ht.without b) h

/-- What is to be found is met in the bucket, or there is still to be found. -/
theorem mem_hits_or (k : Bucket) {w : Sweep} (h : (s.withSweep id w).Indexed) (b : BlockId) :
    (b ∈ hits w first last k ∨ ∃ src, (w.bucket first last running k).arena.sourceOf b = some src ∧
        src.watch = id ∧ src.overlaps first last = true) ↔
      ∃ src, w.arena.sourceOf b = some src ∧ src.watch = id ∧ src.overlaps first last = true := by
  rw [sourceOf_bucket hid k h]
  constructor
  · rintro (hb | ⟨src, hs, hw, ho⟩)
    · obtain ⟨src, hs, hw, _, ho⟩ := (mem_hits hid h).mp hb
      exact ⟨src, hs, hw, ho⟩
    · split at hs
      · cases hs
      · exact ⟨src, hs, hw, ho⟩
  · rintro ⟨src, hs, hw, ho⟩
    by_cases hb : b ∈ hits w first last k
    · exact Or.inl hb
    · exact Or.inr ⟨src, by rw [if_neg hb]; exact hs, hw, ho⟩

/-- What is to be found once a bucket is searched starts below it. -/
theorem lt_of_sourceOf_bucket (k : Bucket) {w : Sweep} (h : (s.withSweep id w).Indexed)
    (hpassed : ∀ b src, w.arena.sourceOf b = some src → src.watch = id →
      src.overlaps first last = true → src.buckets.1.val < k.val + 1) {b : BlockId} {src : Source}
    (hs : (w.bucket first last running k).arena.sourceOf b = some src) (hw : src.watch = id)
    (ho : src.overlaps first last = true) : src.buckets.1.val < k.val := by
  rw [sourceOf_bucket hid k h] at hs
  split at hs
  · cases hs
  · next hb =>
      have hle : src.buckets.1.val ≤ k.val := Nat.le_of_lt_succ (hpassed b src hs hw ho)
      refine Nat.lt_of_le_of_ne hle fun he => hb ?_
      exact (mem_hits hid h).mpr ⟨src, hs, hw, Fin.ext he, ho⟩

/-- **The downward search finds every block it is to find,** as long as none of
them starts in a bucket it has passed. -/
theorem below_spec (hfl : first ≤ last) (n : Nat) (hn : n ≤ bucketCount) (w : Sweep)
    (h : (s.withSweep id w).Indexed)
    (hpassed : ∀ b src, w.arena.sourceOf b = some src → src.watch = id →
      src.overlaps first last = true → src.buckets.1.val < n) :
    ∃ ids : List BlockId, ids.Nodup ∧
      (∀ b, b ∈ ids ↔ ∃ src, w.arena.sourceOf b = some src ∧ src.watch = id ∧
        src.overlaps first last = true) ∧
      let r := Sweep.below first last running n w
      s.withSweep id r = (s.withSweep id w).withoutAll ids ∧ r.freed = w.freed + ids.length ∧
        r.metRunning = (w.metRunning || ids.any fun b => running = some b) := by
  induction n generalizing w with
  | zero =>
      refine ⟨[], List.nodup_nil, fun b => ⟨fun hb => absurd hb List.not_mem_nil, ?_⟩,
        by simp [Sweep.below]⟩
      rintro ⟨src, hs, hw, ho⟩
      exact absurd (hpassed b src hs hw ho) (Nat.not_lt_zero _)
  | succ n ih =>
      have hidx := h.indexes id
      rw [watch_withSweep hid] at hidx
      unfold Sweep.below
      split
      · next hc =>
          refine ⟨[], List.nodup_nil, fun b => ⟨fun hb => absurd hb List.not_mem_nil, ?_⟩, by simp⟩
          rintro ⟨src, hs, hw, ho⟩
          obtain ⟨k, h1, h2, ht⟩ := Source.touches_of_overlaps (h.range b src hs) hfl ho
          rw [hidx.not_touches hc hs hw h1 h2] at ht
          cases ht
      · rw [dif_pos (Nat.lt_of_succ_le hn)]
        let k : Bucket := ⟨n, Nat.lt_of_succ_le hn⟩
        obtain ⟨h1, h2, h3⟩ := @bucket_spec s id hid first last running k w h
        have hsource := fun b => @sourceOf_bucket s id hid first last running k w h b
        have hmem := fun b => @mem_hits_or s id hid first last running k w h b
        have hv := @indexed_bucket s id hid first last running k w h
        have hbelow := @lt_of_sourceOf_bucket s id hid first last running k w h hpassed
        generalize w.bucket first last running k = v at h1 h2 h3 hsource hmem hv hbelow
        obtain ⟨ids, hnodup, hids, h4, h5, h6⟩ := ih (Nat.le_of_succ_le hn) v hv
          fun b src => hbelow
        refine ⟨hits w first last k ++ ids, ?_, fun b => ?_, ?_, ?_, ?_⟩
        · refine List.nodup_append.mpr ⟨(hidx.nodup k).filter _, hnodup, ?_⟩
          rintro b hb _ hb' rfl
          obtain ⟨src, hs, _⟩ := (hids b).mp hb'
          rw [hsource, if_pos hb] at hs
          cases hs
        · rw [List.mem_append, hids, hmem]
        · rw [h4, h1, ← withoutAll_append]
        · rw [h5, h2, List.length_append, Nat.add_assoc]
        · rw [h6, h3, List.any_append, Bool.or_assoc]

end Sweep

/-- **Invalidating a range tears down exactly the blocks it meets,** answers
with their number, and tells whether the running block is one of them. -/
theorem Indexed.invalidate_eq {s : CodeStore} (h : s.Indexed) {id : WatchId}
    (hid : id.number < s.watches.capacity) {first last : Offset} (hfl : first ≤ last)
    (running : Option BlockId) :
    ∃ ids : List BlockId, ids.Nodup ∧
      (∀ b, b ∈ ids ↔ ∃ src, s.arena.sourceOf b = some src ∧ src.watch = id ∧
        src.overlaps first last = true) ∧
      ∃ f, s.invalidate id first last running =
        (ids.length, ids.any (fun b => running = some b), (s.withoutAll ids).count f) := by
  let w : Sweep := ⟨s.watches.watch id, s.arena, 0, false⟩
  have hw : s.withSweep id w = s := by
    show CodeStore.mk s.arena (s.watches.set id (s.watches.watch id)) = s
    rw [Watches.set_watch]
  have hpassed : ∀ b src, s.arena.sourceOf b = some src → src.watch = id →
      src.overlaps first last = true → src.buckets.1.val < (bucketOf last).val + 1 := by
    intro b src hs _ ho
    rw [Source.overlaps, Bool.and_eq_true, decide_eq_true_iff, decide_eq_true_iff] at ho
    exact Nat.lt_succ_of_le (bucketOf_mono ho.2)
  obtain ⟨ids, hnodup, hids, h1, h2, h3⟩ := @below_spec s id hid first last running hfl
    ((bucketOf last).val + 1) (bucketOf last).isLt w (by rw [hw]; exact h) hpassed
  rw [hw] at h1
  refine ⟨ids, hnodup, hids, ?_⟩
  unfold CodeStore.invalidate Watch.invalidate
  simp only
  generalize Sweep.below first last running ((bucketOf last).val + 1) w = r at h1 h2 h3
  refine ⟨fun c =>
    { c with
      invalidations := c.invalidations + r.freed
      runningHits := c.runningHits + if r.metRunning then 1 else 0 }, ?_⟩
  rw [← h1, h2, h3]
  simp only [w, Nat.zero_add, Bool.false_or]
  rfl

end CodeStore

end Recompiler
