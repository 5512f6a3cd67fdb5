import Mathlib.Data.List.Nodup
import Mathlib.Data.List.Perm.Basic
import Recompiler.Watch.Basic

/-!
# What a watch lists and counts

A watch lists every block whose source names it, once, in the bucket the source
starts in, and counts for every bucket the listed blocks that touch it.  Listing
a block and taking one out keep that.
-/

namespace Recompiler

namespace Source

def touches (s : Source) (k : Nat) : Bool := s.buckets.1.val ≤ k && k ≤ s.buckets.2.val

theorem touches_of_overlaps {s : Source} {first last : Offset} (hs : s.first ≤ s.last)
    (h : first ≤ last) (ho : s.overlaps first last = true) :
    ∃ k, (bucketOf first).val ≤ k ∧ k ≤ (bucketOf last).val ∧ s.touches k = true := by
  obtain ⟨o, h1, h2, h3, h4⟩ := (overlaps_iff hs h).mp ho
  refine ⟨(bucketOf o).val, bucketOf_mono h1, bucketOf_mono h2, ?_⟩
  rw [touches, Bool.and_eq_true, decide_eq_true_iff, decide_eq_true_iff]
  exact ⟨bucketOf_mono h3, bucketOf_mono h4⟩

end Source

namespace Watch

/-! ## Counts -/

private theorem getD_eq_getElem {α : Type} {size : Nat} (counts : Vector α size) (d : α) {k : Nat}
    (hk : k < size) : counts.getD k d = counts[k] := by
  simp [Vector.getD, Array.getD, hk]

theorem getElem_foldl_range' {α : Type} {size : Nat} (f : α → α) (d : α) (a n : Nat)
    (counts : Vector α size) {k : Nat} (hk : k < size) :
    ((List.range' a n).foldl (fun c i => c.setIfInBounds i (f (c.getD i d))) counts)[k] =
      if a ≤ k ∧ k < a + n then f counts[k] else counts[k] := by
  induction n generalizing a counts with
  | zero =>
      have : ¬(a ≤ k ∧ k < a + 0) := by omega
      rw [if_neg this]
      rfl
  | succ n ih =>
      rw [List.range'_succ, List.foldl_cons, ih]
      by_cases hak : a = k
      · have h1 : ¬(a + 1 ≤ k ∧ k < a + 1 + n) := by omega
        have h2 : a ≤ k ∧ k < a + (n + 1) := by omega
        rw [if_neg h1, if_pos h2]
        subst hak
        rw [getD_eq_getElem _ _ hk, Vector.getElem_setIfInBounds_self]
      · have hiff : (a + 1 ≤ k ∧ k < a + 1 + n) ↔ (a ≤ k ∧ k < a + (n + 1)) := by omega
        simp only [hiff]
        rw [Vector.getElem_setIfInBounds_ne hk hak]

theorem coverage_mapCoverage (w : Watch) {first last : Bucket} (h : first ≤ last) (f : Nat → Nat)
    {k : Nat} (hk : k < bucketCount) :
    (w.mapCoverage first last f).coverage[k] =
      if first.val ≤ k ∧ k ≤ last.val then f w.coverage[k] else w.coverage[k] := by
  rw [mapCoverage, getElem_foldl_range' _ _ _ _ _ hk]
  have : (first.val ≤ k ∧ k < first.val + (last.val + 1 - first.val)) ↔
      (first.val ≤ k ∧ k ≤ last.val) := by
    have : first.val ≤ last.val := h
    omega
  simp only [this]

theorem coverageBetween_eq_zero_iff (w : Watch) (first last : Bucket) :
    w.coverageBetween first last = 0 ↔
      ∀ k : Bucket, first ≤ k → k ≤ last → getElem w.coverage k.val k.isLt = 0 := by
  have hsum : ∀ is : List Nat, is.foldr (fun i n => w.coverage.getD i 0 + n) 0 = 0 ↔
      ∀ i ∈ is, w.coverage.getD i 0 = 0 := by
    intro is
    induction is with
    | nil => simp
    | cons i rest ih => simp [ih]
  rw [coverageBetween, hsum]
  constructor
  · intro h k h1 h2
    have hmem : k.val ∈ List.range' first.val (last.val + 1 - first.val) := by
      rw [List.mem_range'_1]
      simp only [Fin.le_def] at h1 h2
      omega
    rw [← getD_eq_getElem _ _ k.isLt]
    exact h k.val hmem
  · intro h i hi
    rw [List.mem_range'_1] at hi
    have hlt : i < bucketCount := by omega
    rw [getD_eq_getElem w.coverage _ hlt]
    exact h ⟨i, hlt⟩ (by simp only [Fin.le_def]; omega) (by simp only [Fin.le_def]; omega)

/-! ## Lists -/

theorem mem_blocks {w : Watch} {b : BlockId} :
    b ∈ w.blocks ↔ ∃ k : Bucket, b ∈ getElem w.buckets k.val k.isLt := by
  rw [blocks, List.mem_flatten]
  constructor
  · rintro ⟨l, hl, hb⟩
    rw [Vector.mem_toList_iff, Vector.mem_iff_getElem] at hl
    obtain ⟨k, hk, rfl⟩ := hl
    exact ⟨⟨k, hk⟩, hb⟩
  · rintro ⟨k, hb⟩
    exact ⟨_, Vector.mem_toList_iff.mpr (Vector.getElem_mem k.isLt), hb⟩

/-- All blocks of a watch, those of one bucket first. -/
theorem perm_flatten_set (v : Vector (List BlockId) bucketCount) {k : Nat}
    (hlt : k < bucketCount) :
    ∃ others, v.toList.flatten.Perm (v[k] ++ others) ∧
      ∀ l, (v.set k l).toList.flatten.Perm (l ++ others) := by
  have hk : k < v.toList.length := by simpa using hlt
  refine ⟨(v.toList.take k).flatten ++ (v.toList.drop (k + 1)).flatten, ?_, fun l => ?_⟩
  · have hsplit : v.toList = v.toList.take k ++ v[k] :: v.toList.drop (k + 1) := by
      rw [← Vector.getElem_toList (h := hk), List.getElem_cons_drop, List.take_append_drop]
    conv_lhs => rw [hsplit]
    rw [List.flatten_append, List.flatten_cons]
    exact List.perm_append_comm_assoc ..
  · rw [Vector.toList_set, List.set_eq_take_append_cons_drop, if_pos hk, List.flatten_append,
      List.flatten_cons]
    exact List.perm_append_comm_assoc ..

/-! ## The invariant -/

/-- The watch lists and counts the blocks whose source names it. -/
structure Indexes (w : Watch) (id : WatchId) (sourceOf : BlockId → Option Source) : Prop where
  listed : ∀ (k : Bucket) b, b ∈ getElem w.buckets k.val k.isLt ↔
    ∃ s, sourceOf b = some s ∧ s.watch = id ∧ s.buckets.1 = k
  nodup : ∀ k : Bucket, (getElem w.buckets k.val k.isLt).Nodup
  coverage : ∀ k : Bucket, getElem w.coverage k.val k.isLt =
    w.blocks.countP fun b => (sourceOf b).any (·.touches k.val)
  active : w.active = w.blocks.length

namespace Indexes

variable {w : Watch} {id : WatchId} {sourceOf : BlockId → Option Source}
  (h : w.Indexes id sourceOf)

include h

theorem mem_blocks_iff {b : BlockId} :
    b ∈ w.blocks ↔ ∃ s, sourceOf b = some s ∧ s.watch = id := by
  rw [mem_blocks]
  constructor
  · rintro ⟨k, hb⟩
    obtain ⟨s, hs, hw, _⟩ := (h.listed k b).mp hb
    exact ⟨s, hs, hw⟩
  · rintro ⟨s, hs, hw⟩
    exact ⟨s.buckets.1, (h.listed _ b).mpr ⟨s, hs, hw, rfl⟩⟩

theorem nodup_blocks : w.blocks.Nodup := by
  rw [blocks, List.nodup_flatten]
  constructor
  · intro l hl
    rw [Vector.mem_toList_iff, Vector.mem_iff_getElem] at hl
    obtain ⟨k, hk, rfl⟩ := hl
    exact h.nodup ⟨k, hk⟩
  · rw [List.pairwise_iff_getElem]
    intro i j hi hj hij b hbi hbj
    simp only [Vector.length_toList] at hi hj
    rw [Vector.getElem_toList] at hbi hbj
    obtain ⟨s, hs, _, hsi⟩ := (h.listed ⟨i, hi⟩ b).mp hbi
    obtain ⟨t, ht, _, htj⟩ := (h.listed ⟨j, hj⟩ b).mp hbj
    rw [hs, Option.some.injEq] at ht
    rw [ht, htj, Fin.mk.injEq] at hsi
    omega

/-- A watch whose counts are nothing between two buckets lists nothing that
touches them. -/
theorem not_touches {first last : Bucket} (hc : w.coverageBetween first last = 0) {b : BlockId}
    {s : Source} (hs : sourceOf b = some s) (hw : s.watch = id) {k : Nat}
    (h1 : first.val ≤ k) (h2 : k ≤ last.val) : s.touches k = false := by
  have hk : k < bucketCount := Nat.lt_of_le_of_lt h2 last.isLt
  have := (coverageBetween_eq_zero_iff w first last).mp hc ⟨k, hk⟩ h1 h2
  rw [h.coverage, List.countP_eq_zero] at this
  have := this b (h.mem_blocks_iff.mpr ⟨s, hs, hw⟩)
  rw [hs, Option.any_some] at this
  exact eq_false_of_ne_true this

theorem congr {sourceOf' : BlockId → Option Source}
    (hsame : ∀ b s, s.watch = id → (sourceOf' b = some s ↔ sourceOf b = some s)) :
    w.Indexes id sourceOf' := by
  refine ⟨fun k b => (h.listed k b).trans ?_, h.nodup, fun k => ?_, h.active⟩
  · constructor
    · rintro ⟨s, hs, hw, hk⟩
      exact ⟨s, (hsame b s hw).mpr hs, hw, hk⟩
    · rintro ⟨s, hs, hw, hk⟩
      exact ⟨s, (hsame b s hw).mp hs, hw, hk⟩
  · rw [h.coverage]
    refine List.countP_congr fun b hb => ?_
    obtain ⟨s, hs, hw⟩ := h.mem_blocks_iff.mp hb
    rw [hs, (hsame b s hw).mpr hs]

end Indexes

/-! ## Listing and taking out -/

def setSource (sourceOf : BlockId → Option Source) (b : BlockId) (s : Option Source) :
    BlockId → Option Source :=
  fun x => if x = b then s else sourceOf x

theorem of_setSource_none {sourceOf : BlockId → Option Source} {b x : BlockId} {s : Source}
    (h : setSource sourceOf b none x = some s) : sourceOf x = some s := by
  rw [setSource] at h
  split at h
  · cases h
  · exact h

theorem of_setSource_some {sourceOf : BlockId → Option Source} {b x : BlockId} {s t : Source}
    (h : setSource sourceOf b (some s) x = some t) :
    (x = b ∧ t = s) ∨ (x ≠ b ∧ sourceOf x = some t) := by
  rw [setSource] at h
  split at h
  · next hx => exact Or.inl ⟨hx, (Option.some.inj h).symm⟩
  · next hx => exact Or.inr ⟨hx, h⟩

/-- A source that never named the watch, and does not now. -/
theorem Indexes.setSource_of_ne {w : Watch} {id : WatchId} {sourceOf : BlockId → Option Source}
    (h : w.Indexes id sourceOf) {b : BlockId} {new : Option Source}
    (hold : ∀ s, sourceOf b = some s → s.watch ≠ id) (hnew : ∀ s, new = some s → s.watch ≠ id) :
    w.Indexes id (setSource sourceOf b new) := by
  refine h.congr fun x t ht => ?_
  rw [setSource]
  split
  · next hx =>
      rw [hx]
      exact ⟨fun hs => absurd ht (hnew t hs), fun hs => absurd ht (hold t hs)⟩
  · rfl

def unlist (w : Watch) (b : BlockId) (k : Bucket) : Watch :=
  { w with
    buckets := w.buckets.set k.val ((getElem w.buckets k.val k.isLt).erase b) k.isLt }

/-- The watch without a block that it lists where the source starts. -/
def strike (w : Watch) (b : BlockId) (s : Source) : Watch :=
  (w.unlist b s.buckets.1).discount s

theorem buckets_strike (w : Watch) (b : BlockId) (s : Source) :
    (w.strike b s).buckets = (w.unlist b s.buckets.1).buckets := rfl

theorem bucket_strike (w : Watch) (b : BlockId) (s : Source) (k : Bucket) :
    getElem (w.strike b s).buckets k.val k.isLt =
      if s.buckets.1 = k then (getElem w.buckets k.val k.isLt).erase b
      else getElem w.buckets k.val k.isLt := by
  rw [buckets_strike, unlist, Vector.getElem_set]
  by_cases hk : s.buckets.1 = k
  · subst hk
    simp
  · rw [if_neg hk, if_neg fun he => hk (Fin.ext he)]

theorem coverage_strike (w : Watch) (b : BlockId) {src : Source} (h : src.first ≤ src.last)
    (k : Bucket) :
    getElem (w.strike b src).coverage k.val k.isLt =
      getElem w.coverage k.val k.isLt - if src.touches k.val then 1 else 0 := by
  show getElem (mapCoverage _ src.buckets.1 src.buckets.2 (· - 1)).coverage k.val k.isLt = _
  rw [coverage_mapCoverage _ (show src.buckets.1 ≤ src.buckets.2 from bucketOf_mono h) _ k.isLt]
  simp only [Source.touches, Bool.and_eq_true, decide_eq_true_eq]
  split
  · rfl
  · rfl

theorem bucket_index (w : Watch) (b : BlockId) (s : Source) (k : Bucket) :
    getElem (w.index b s.first s.last).buckets k.val k.isLt =
      if s.buckets.1 = k then getElem w.buckets k.val k.isLt ++ [b]
      else getElem w.buckets k.val k.isLt := by
  show (w.buckets.set s.buckets.1.val (w.buckets[s.buckets.1.val] ++ [b]))[k.val] = _
  rw [Vector.getElem_set]
  by_cases hk : s.buckets.1 = k
  · subst hk
    simp
  · rw [if_neg hk, if_neg fun he => hk (Fin.ext he)]

theorem perm_blocks_index (w : Watch) (b : BlockId) (s : Source) :
    (w.index b s.first s.last).blocks.Perm (b :: w.blocks) := by
  obtain ⟨others, hperm, hset⟩ := perm_flatten_set w.buckets s.buckets.1.isLt
  refine (hset _).trans ((List.Perm.append_right _ List.perm_append_comm).trans ?_)
  exact List.Perm.cons b hperm.symm

theorem perm_blocks_strike (w : Watch) {b : BlockId} {s : Source}
    (hb : b ∈ getElem w.buckets s.buckets.1.val s.buckets.1.isLt) :
    w.blocks.Perm (b :: (w.strike b s).blocks) := by
  obtain ⟨others, hperm, hset⟩ := perm_flatten_set w.buckets s.buckets.1.isLt
  refine hperm.trans ((List.Perm.append_right _ (List.perm_cons_erase hb)).trans ?_)
  exact List.Perm.cons b (hset _).symm

theorem countP_setSource {ids : List BlockId} {sourceOf : BlockId → Option Source} {b : BlockId}
    (hb : b ∉ ids) (s : Option Source) (p : Source → Bool) :
    ids.countP (fun x => (setSource sourceOf b s x).any p) =
      ids.countP fun x => (sourceOf x).any p := by
  refine List.countP_congr fun x hx => ?_
  have hne : x ≠ b := fun he => hb (he ▸ hx)
  rw [setSource, if_neg hne]

theorem Indexes.index {w : Watch} {id : WatchId} {sourceOf : BlockId → Option Source}
    (h : w.Indexes id sourceOf) {b : BlockId} {s : Source} (hb : sourceOf b = none)
    (hw : s.watch = id) (hs : s.first ≤ s.last) :
    (w.index b s.first s.last).Indexes id (setSource sourceOf b (some s)) := by
  have hblocks := perm_blocks_index w b s
  have hnew : b ∉ w.blocks := by
    rw [h.mem_blocks_iff]
    rintro ⟨t, ht, _⟩
    rw [hb] at ht
    cases ht
  refine ⟨fun k x => ?_, fun k => ?_, fun k => ?_, ?_⟩
  · rw [bucket_index]
    by_cases hx : x = b
    · subst hx
      have hnot : x ∉ w.buckets[k.val] := fun hm => hnew (mem_blocks.mpr ⟨k, hm⟩)
      simp only [setSource, if_true, Option.some.injEq]
      constructor
      · intro hm
        split at hm
        · next hk => exact ⟨s, rfl, hw, hk⟩
        · exact absurd hm hnot
      · rintro ⟨t, rfl, _, hk⟩
        rw [if_pos hk]
        exact List.mem_append_right _ List.mem_cons_self
    · simp only [setSource, if_neg hx]
      rw [← h.listed]
      split
      · simp [hx]
      · rfl
  · rw [bucket_index]
    split
    · rw [List.nodup_append]
      refine ⟨h.nodup k, List.nodup_singleton b, fun x hx y hy => ?_⟩
      rw [List.mem_singleton] at hy
      subst hy
      rintro rfl
      exact hnew (mem_blocks.mpr ⟨k, hx⟩)
    · exact h.nodup k
  · rw [hblocks.countP_eq, List.countP_cons, countP_setSource hnew, ← h.coverage]
    show (w.mapCoverage s.buckets.1 s.buckets.2 (· + 1)).coverage[k.val] = _
    rw [coverage_mapCoverage _ (show s.buckets.1 ≤ s.buckets.2 from bucketOf_mono hs) _ k.isLt]
    simp only [setSource, if_true, Option.any_some, Source.touches, Bool.and_eq_true,
      decide_eq_true_eq]
    split
    · rfl
    · rfl
  · rw [hblocks.length_eq, List.length_cons, ← h.active]
    rfl

theorem Indexes.remove?_eq {w : Watch} {id : WatchId} {sourceOf : BlockId → Option Source}
    (h : w.Indexes id sourceOf) {b : BlockId} {s : Source} (hb : sourceOf b = some s)
    (hw : s.watch = id) : w.remove? b s = some (w.strike b s) := by
  have hmem : b ∈ w.buckets[s.buckets.1.val] := (h.listed _ b).mpr ⟨s, hb, hw, rfl⟩
  exact if_pos hmem

theorem Indexes.strike {w : Watch} {id : WatchId} {sourceOf : BlockId → Option Source}
    (h : w.Indexes id sourceOf) {b : BlockId} {s : Source} (hb : sourceOf b = some s)
    (hw : s.watch = id) (hs : s.first ≤ s.last) :
    (w.strike b s).Indexes id (setSource sourceOf b none) := by
  have hmem : b ∈ w.buckets[s.buckets.1.val] := (h.listed _ b).mpr ⟨s, hb, hw, rfl⟩
  have hblocks := perm_blocks_strike w hmem
  have hgone : b ∉ (w.strike b s).blocks :=
    (List.nodup_cons.mp (hblocks.nodup_iff.mp h.nodup_blocks)).1
  refine ⟨fun k x => ?_, fun k => ?_, fun k => ?_, ?_⟩
  · by_cases hx : x = b
    · subst hx
      simp only [setSource, if_true]
      constructor
      · exact fun hm => absurd (mem_blocks.mpr ⟨k, hm⟩) hgone
      · rintro ⟨_, h0, _⟩
        cases h0
    · simp only [setSource, if_neg hx]
      rw [← h.listed, bucket_strike]
      split
      · rw [List.mem_erase_of_ne hx]
      · rfl
  · rw [bucket_strike]
    split
    · exact (h.nodup k).erase b
    · exact h.nodup k
  · have hold := h.coverage k
    rw [hblocks.countP_eq, List.countP_cons, hb, Option.any_some] at hold
    rw [countP_setSource hgone]
    rw [coverage_strike _ _ hs]
    exact Nat.sub_eq_of_eq_add hold
  · have := hblocks.length_eq
    rw [List.length_cons] at this
    show w.active - 1 = _
    rw [h.active]
    omega

theorem Indexes.fresh {id : WatchId} {sourceOf : BlockId → Option Source}
    (h : ∀ b s, sourceOf b = some s → s.watch ≠ id) (page delay : Nat) :
    (Watch.fresh page delay).Indexes id sourceOf := by
  have hbucket : ∀ k : Bucket, (Watch.fresh page delay).buckets[k.val] = [] := by
    intro k
    simp [Watch.fresh]
  have hblocks : (Watch.fresh page delay).blocks = [] := by
    rw [List.eq_nil_iff_forall_not_mem]
    intro b hb
    obtain ⟨k, hk⟩ := mem_blocks.mp hb
    rw [hbucket] at hk
    cases hk
  refine ⟨fun k b => ?_, fun k => ?_, fun k => ?_, ?_⟩
  · rw [hbucket]
    constructor
    · intro hb
      cases hb
    · rintro ⟨s, hs, hw, _⟩
      exact absurd hw (h b s hs)
  · rw [hbucket]
    exact List.nodup_nil
  · rw [hblocks]
    simp [Watch.fresh]
  · rw [hblocks]
    rfl

end Watch

end Recompiler
