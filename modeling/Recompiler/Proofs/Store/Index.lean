import Recompiler.Proofs.Store.Open
import Recompiler.Proofs.Watch.Index

/-!
# The index of a store

Every compiled block has a source and every watch indexes the blocks whose
source names it.  Tearing down a block, opening a region and indexing a new
block keep that.
-/

namespace Recompiler

namespace Watches

@[simp] theorem capacity_set (ws : Watches) (id : WatchId) (w : Watch) :
    (ws.set id w).capacity = ws.capacity :=
  Array.size_setIfInBounds ..

/-- Watches that are in use for the same pages. -/
structure SameUse (ws ws' : Watches) : Prop where
  capacity : ws'.capacity = ws.capacity
  free : ws'.free = ws.free
  used : ws'.used = ws.used
  page : ∀ id, (ws'.watch id).page = (ws.watch id).page
  broken : ws'.broken = ws.broken

namespace SameUse

theorem refl (ws : Watches) : ws.SameUse ws := ⟨rfl, rfl, rfl, fun _ => rfl, rfl⟩

theorem trans {a b c : Watches} (h : a.SameUse b) (h' : b.SameUse c) : a.SameUse c :=
  ⟨h'.capacity.trans h.capacity, h'.free.trans h.free, h'.used.trans h.used,
    fun id => (h'.page id).trans (h.page id), h'.broken.trans h.broken⟩

theorem set (ws : Watches) {id : WatchId} {w : Watch} (hp : w.page = (ws.watch id).page) :
    ws.SameUse (ws.set id w) := by
  refine ⟨capacity_set ws id w, rfl, rfl, fun x => ?_, rfl⟩
  by_cases hid : id.number < ws.capacity
  · rw [watch_set ws id x w hid]
    split
    · next he => rw [hp, he]
    · rfl
  · have : ws.pool.setIfInBounds id.number w = ws.pool :=
      Array.setIfInBounds_eq_of_size_le (Nat.le_of_not_lt hid)
    rw [watch, watch, Watches.set, this]

end SameUse

/-! Which watches there are does not change by putting one up or taking it down. -/

theorem perm_install {ws : Watches} {id : WatchId} (hid : id ∈ ws.free) (page : Nat) :
    ((ws.install id page).free ++ (ws.install id page).used).Perm (ws.free ++ ws.used) := by
  show (ws.free.erase id ++ (ws.used ++ [id])).Perm _
  rw [← List.append_assoc]
  refine List.perm_append_comm.trans ?_
  exact List.Perm.append_right ws.used (List.perm_cons_erase hid).symm

theorem perm_release {ws : Watches} {id : WatchId} (hnodup : ws.used.Nodup)
    (hid : id ∈ ws.used) :
    ((ws.release id).free ++ (ws.release id).used).Perm (ws.free ++ ws.used) := by
  have hfilter : ws.used.filter (fun x => decide (x ≠ id)) = ws.used.erase id := by
    rw [hnodup.erase_eq_filter]
    exact List.filter_congr fun x _ => by by_cases hx : x = id <;> simp [hx]
  show (id :: ws.free ++ ws.used.filter fun x => decide (x ≠ id)).Perm _
  rw [hfilter]
  refine List.perm_middle.symm.trans ?_
  exact List.Perm.append_left ws.free (List.perm_cons_erase hid).symm

end Watches

def Arena.sourceOf (a : Arena) (b : BlockId) : Option Source := (a.block b).source

namespace CodeStore

open Watch (setSource)

/-- A store whose watches list what has a source.  A block may be compiled without
one, as long as nothing has indexed it. -/
structure Filed (s : CodeStore) : Prop where
  indexes : ∀ id, (s.watches.watch id).Indexes id s.arena.sourceOf
  pooled : ∀ b src, s.arena.sourceOf b = some src → src.watch.number < s.watches.capacity
  range : ∀ b src, s.arena.sourceOf b = some src → src.first ≤ src.last
  dead : ∀ b, s.arena.isLive b = false → s.arena.sourceOf b = none

namespace Filed

variable {s : CodeStore} (h : s.Filed)

include h

theorem congr {a : Arena} (hs : ∀ b, a.sourceOf b = s.arena.sourceOf b)
    (hl : ∀ b, a.isLive b = false → s.arena.isLive b = false ∨ s.arena.sourceOf b = none) :
    ({ s with arena := a } : CodeStore).Filed := by
  have hs' : ({ s with arena := a } : CodeStore).arena.sourceOf = s.arena.sourceOf := funext hs
  refine ⟨fun id => ?_, fun b src hb => h.pooled b src (hs b ▸ hb),
    fun b src hb => h.range b src (hs b ▸ hb), fun b hb => ?_⟩
  · rw [hs']
    exact h.indexes id
  · rw [hs']
    exact (hl b hb).elim (h.dead b) fun hnone => hnone

theorem remove {b : BlockId} {src : Source} (hb : s.arena.sourceOf b = some src) {a : Arena}
    (hs : ∀ x, a.sourceOf x = setSource s.arena.sourceOf b none x)
    (hl : ∀ x, a.isLive x = if x = b then false else s.arena.isLive x) :
    (CodeStore.mk a
      (s.watches.set src.watch ((s.watches.watch src.watch).strike b src))).Filed := by
  have hs' : a.sourceOf = setSource s.arena.sourceOf b none := funext hs
  have hwatch := s.watches.watch_set src.watch
  have hlt := h.pooled b src hb
  have hother : ∀ x t, a.sourceOf x = some t → s.arena.sourceOf x = some t :=
    fun x t hx => Watch.of_setSource_none ((hs x).symm.trans hx)
  refine ⟨fun id => ?_, fun x t hx => ?_, fun x t hx => h.range x t (hother x t hx),
    fun x hx => ?_⟩
  · show ((s.watches.set _ _).watch id).Indexes id a.sourceOf
    rw [hs', hwatch _ _ hlt]
    split
    · next he => exact he ▸ (h.indexes src.watch).strike hb rfl (h.range b src hb)
    · next hne =>
        refine (h.indexes id).setSource_of_ne (fun t ht => ?_) (fun _ ht => by cases ht)
        rw [← Option.some.inj (hb.symm.trans ht)]
        exact hne
  · show t.watch.number < (s.watches.set _ _).capacity
    rw [Watches.capacity_set]
    exact h.pooled x t (hother x t hx)
  · show a.sourceOf x = none
    have hx : a.isLive x = false := hx
    rw [hl] at hx
    rw [hs, setSource]
    split
    · rfl
    · next hne => exact h.dead x ((if_neg hne).symm.trans hx)

end Filed

/-- What the watches of a store index. -/
structure Indexed (s : CodeStore) : Prop where
  /-- A watch is in use or free. -/
  nodup : (s.watches.free ++ s.watches.used).Nodup
  pooled : ∀ id, id ∈ s.watches.free ++ s.watches.used ↔ id.number < s.watches.capacity
  indexes : ∀ id, (s.watches.watch id).Indexes id s.arena.sourceOf
  live : ∀ b, s.arena.isLive b = (s.arena.sourceOf b).isSome
  used : ∀ b src, s.arena.sourceOf b = some src → src.watch ∈ s.watches.used
  page : ∀ b src, s.arena.sourceOf b = some src →
    src.page = (s.watches.watch src.watch).page
  range : ∀ b src, s.arena.sourceOf b = some src → src.first ≤ src.last
  /-- No two blocks start at the same byte. -/
  unique : ∀ b c src src', s.arena.sourceOf b = some src → s.arena.sourceOf c = some src' →
    src.watch = src'.watch → src.first = src'.first → b = c
  /-- No watch was taken down that had blocks. -/
  unbroken : s.watches.broken = none

namespace Indexed

variable {s : CodeStore} (h : s.Indexed)

include h

theorem lt_capacity {b : BlockId} {src : Source} (hb : s.arena.sourceOf b = some src) :
    src.watch.number < s.watches.capacity :=
  (h.pooled _).mp (List.mem_append_right _ (h.used b src hb))

theorem sourceOf_eq_none {b : BlockId} (hb : s.arena.isLive b = false) :
    s.arena.sourceOf b = none := by
  rw [h.live] at hb
  exact Option.isSome_eq_false_iff.mp hb |> Option.isNone_iff_eq_none.mp

theorem filed : s.Filed :=
  ⟨h.indexes, fun _ _ hb => h.lt_capacity hb, h.range, fun _ hb => h.sourceOf_eq_none hb⟩

/-- A store where sources were lost and none was won. -/
theorem shrink {s' : CodeStore} (hf : s'.Filed) (huse : s.watches.SameUse s'.watches)
    (hl : ∀ b, s'.arena.isLive b = (s'.arena.sourceOf b).isSome)
    (hs : ∀ b src, s'.arena.sourceOf b = some src → s.arena.sourceOf b = some src) :
    s'.Indexed := by
  constructor
  case nodup =>
    rw [huse.free, huse.used]
    exact h.nodup
  case pooled =>
    intro id
    rw [huse.free, huse.used, huse.capacity]
    exact h.pooled id
  case indexes => exact hf.indexes
  case live => exact hl
  case used =>
    intro b src hb
    rw [huse.used]
    exact h.used b src (hs b src hb)
  case page =>
    intro b src hb
    rw [huse.page]
    exact h.page b src (hs b src hb)
  case range => exact hf.range
  case unique =>
    intro b c src src' hb hc
    exact h.unique b c src src' (hs b src hb) (hs c src' hc)
  case unbroken => exact huse.broken.trans h.unbroken

theorem congr {a : Arena} (hs : ∀ b, a.sourceOf b = s.arena.sourceOf b)
    (hl : ∀ b, a.isLive b = s.arena.isLive b) : ({ s with arena := a } : CodeStore).Indexed := by
  apply h.shrink (h.filed.congr hs fun b hb => Or.inl ((hl b).symm.trans hb)) (.refl _)
  · intro b
    show a.isLive b = (a.sourceOf b).isSome
    rw [hl, hs]
    exact h.live b
  · intro b src hb
    exact (hs b).symm.trans hb

theorem insert {b : BlockId} (hb : s.arena.isLive b = false) {src : Source}
    (hused : src.watch ∈ s.watches.used) (hpage : src.page = (s.watches.watch src.watch).page)
    (hrange : src.first ≤ src.last)
    (hfresh : ∀ x t, s.arena.sourceOf x = some t → t.watch = src.watch → t.first ≠ src.first)
    {a : Arena} (hs : ∀ x, a.sourceOf x = setSource s.arena.sourceOf b (some src) x)
    (hl : ∀ x, a.isLive x = if x = b then true else s.arena.isLive x) :
    (CodeStore.mk a
      (s.watches.set src.watch
        ((s.watches.watch src.watch).index b src.first src.last))).Indexed := by
  have hnone := h.sourceOf_eq_none hb
  have hlt : src.watch.number < s.watches.capacity :=
    (h.pooled _).mp (List.mem_append_right _ hused)
  have huse : s.watches.SameUse (s.watches.set src.watch
      ((s.watches.watch src.watch).index b src.first src.last)) := .set s.watches rfl
  have hcases : ∀ {x t}, a.sourceOf x = some t →
      (x = b ∧ t = src) ∨ (x ≠ b ∧ s.arena.sourceOf x = some t) := fun {x t} hx =>
    Watch.of_setSource_some ((hs x).symm.trans hx)
  constructor
  case nodup => exact h.nodup
  case pooled =>
    intro id
    rw [huse.capacity]
    exact h.pooled id
  case indexes =>
    intro id
    show ((s.watches.set _ _).watch id).Indexes id a.sourceOf
    rw [funext hs, s.watches.watch_set src.watch _ _ hlt]
    split
    · next he => exact he ▸ (h.indexes src.watch).index hnone rfl hrange
    · next hne =>
        refine (h.indexes id).setSource_of_ne (fun t ht => ?_) fun t ht => ?_
        · rw [hnone] at ht
          cases ht
        · rw [← Option.some.inj ht]
          exact hne
  case live =>
    intro x
    show a.isLive x = (a.sourceOf x).isSome
    rw [hl, hs, setSource]
    split
    · rfl
    · exact h.live x
  case used =>
    intro x t hx
    rcases hcases hx with ⟨_, rfl⟩ | ⟨_, hx⟩
    · exact hused
    · exact h.used x t hx
  case page =>
    intro x t hx
    rw [huse.page]
    rcases hcases hx with ⟨_, rfl⟩ | ⟨_, hx⟩
    · exact hpage
    · exact h.page x t hx
  case range =>
    intro x t hx
    rcases hcases hx with ⟨_, rfl⟩ | ⟨_, hx⟩
    · exact hrange
    · exact h.range x t hx
  case unique =>
    intro x y t t' hx hy hw hf
    rcases hcases hx with ⟨hxb, rfl⟩ | ⟨_, hxold⟩
    · rcases hcases hy with ⟨hyb, _⟩ | ⟨_, hyold⟩
      · rw [hxb, hyb]
      · exact absurd hf.symm (hfresh y t' hyold hw.symm)
    · rcases hcases hy with ⟨_, rfl⟩ | ⟨_, hyold⟩
      · exact absurd hf (hfresh x t hxold hw)
      · exact h.unique x y t t' hxold hyold hw hf
  case unbroken => exact h.unbroken

/-! ## Watches -/

theorem setWatch {id : WatchId} (hid : id.number < s.watches.capacity) {w : Watch}
    (hw : w.Indexes id s.arena.sourceOf) (hp : w.page = (s.watches.watch id).page) :
    ({ s with watches := s.watches.set id w } : CodeStore).Indexed := by
  have huse : s.watches.SameUse (s.watches.set id w) := .set s.watches hp
  refine ⟨h.nodup, fun x => ?_, fun x => ?_, h.live, h.used, fun b src hb => ?_, h.range,
    h.unique, h.unbroken⟩
  · rw [huse.capacity]
    exact h.pooled x
  · show ((s.watches.set _ _).watch x).Indexes x s.arena.sourceOf
    rw [s.watches.watch_set id x w hid]
    split
    · next he => exact he ▸ hw
    · exact h.indexes x
  · rw [huse.page]
    exact h.page b src hb

theorem watch_ne_of_free {id : WatchId} (hid : id ∈ s.watches.free) {b : BlockId} {src : Source}
    (hb : s.arena.sourceOf b = some src) : src.watch ≠ id := by
  rintro rfl
  exact List.disjoint_of_nodup_append h.nodup hid (h.used b src hb)

/-- The watches of a store changed in which are in use, and in one that
indexes nothing. -/
theorem reassign {id : WatchId} (hid : id.number < s.watches.capacity) {free used : List WatchId}
    (hperm : (free ++ used).Perm (s.watches.free ++ s.watches.used))
    (hnone : ∀ b src, s.arena.sourceOf b = some src → src.watch ≠ id)
    (hused : ∀ x ∈ s.watches.used, x ≠ id → x ∈ used) {broken : Option Corruption}
    (hbroken : broken = none) (page delay : Nat) :
    ({ s with
      watches := { s.watches.set id (.fresh page delay) with
        free, used, broken } } : CodeStore).Indexed := by
  have hwatch := fun x => s.watches.watch_set id x (.fresh page delay) hid
  refine ⟨hperm.nodup_iff.mpr h.nodup, fun x => ?_, fun x => ?_, h.live, fun b src hb => ?_,
    fun b src hb => ?_, h.range, h.unique, hbroken⟩
  · show x ∈ free ++ used ↔ x.number < (s.watches.set _ _).capacity
    rw [Watches.capacity_set, hperm.mem_iff]
    exact h.pooled x
  · show ((s.watches.set _ _).watch x).Indexes x s.arena.sourceOf
    rw [hwatch]
    split
    · next he => exact he ▸ Watch.Indexes.fresh hnone page delay
    · exact h.indexes x
  · exact hused _ (h.used b src hb) (hnone b src hb)
  · show src.page = ((s.watches.set _ _).watch src.watch).page
    rw [hwatch, if_neg (hnone b src hb).symm]
    exact h.page b src hb

theorem install {id : WatchId} (hid : id ∈ s.watches.free) (page : Nat) :
    ({ s with watches := s.watches.install id page } : CodeStore).Indexed :=
  h.reassign ((h.pooled id).mp (List.mem_append_left _ hid)) (Watches.perm_install hid page)
    (fun _ _ hb => h.watch_ne_of_free hid hb) (fun _ hx _ => List.mem_append_left _ hx)
    h.unbroken _ _

/-- A watch that is no source's has no blocks. -/
theorem active_eq_zero {id : WatchId}
    (hnone : ∀ b src, s.arena.sourceOf b = some src → src.watch ≠ id) :
    (s.watches.watch id).active = 0 := by
  rw [(h.indexes id).active, List.length_eq_zero_iff, List.eq_nil_iff_forall_not_mem]
  intro b hb
  obtain ⟨src, hs, hw⟩ := (h.indexes id).mem_blocks_iff.mp hb
  exact hnone b src hs hw

theorem release {id : WatchId} (hid : id ∈ s.watches.used)
    (hnone : ∀ b src, s.arena.sourceOf b = some src → src.watch ≠ id) :
    ({ s with watches := s.watches.release id } : CodeStore).Indexed :=
  h.reassign ((h.pooled id).mp (List.mem_append_right _ hid))
    (Watches.perm_release (List.nodup_append.mp h.nodup).2.1 hid) hnone
    (fun _ hx hne => List.mem_filter.mpr ⟨hx, decide_eq_true hne⟩)
    ((if_pos (h.active_eq_zero hnone)).trans h.unbroken) _ _

/-! ## Looking up -/

/-- The block at a byte of a watched page is found, and no other is. -/
theorem find?_eq_some_iff {id : WatchId} {start : Offset} {b : BlockId} :
    (s.watches.watch id).find? s.arena start = some b ↔
      ∃ src, s.arena.sourceOf b = some src ∧ src.watch = id ∧ src.first = start := by
  let starts (x : BlockId) : Bool := (s.arena.sourceOf x).any fun src => src.first = start
  have hstarts : ∀ x, starts x = true ↔
      ∃ src, s.arena.sourceOf x = some src ∧ src.first = start := by
    intro x
    show (s.arena.sourceOf x).any _ = true ↔ _
    cases s.arena.sourceOf x <;> simp
  have hlisted : ∀ x, x ∈ (s.watches.watch id).buckets[(bucketOf start).val].reverse ↔
      ∃ src, s.arena.sourceOf x = some src ∧ src.watch = id ∧ src.buckets.1 = bucketOf start :=
    fun x => List.mem_reverse.trans ((h.indexes id).listed (bucketOf start) x)
  constructor
  · intro hf
    obtain ⟨src, hs, hfirst⟩ := (hstarts b).mp (List.find?_some (p := starts) hf)
    obtain ⟨src', hs', hw, _⟩ := (hlisted b).mp (List.mem_of_find?_eq_some hf)
    rw [hs, Option.some.injEq] at hs'
    exact ⟨src, hs, hs' ▸ hw, hfirst⟩
  · rintro ⟨src, hs, hw, hfirst⟩
    have hmem := (hlisted b).mpr ⟨src, hs, hw, by rw [Source.buckets, hfirst]⟩
    cases hf : (s.watches.watch id).find? s.arena start with
    | none =>
        have := List.find?_eq_none.mp hf b hmem
        exact absurd ((hstarts b).mpr ⟨src, hs, hfirst⟩) this
    | some c =>
        obtain ⟨t, ht, htf⟩ := (hstarts c).mp (List.find?_some (p := starts) hf)
        obtain ⟨t', ht', htw, _⟩ := (hlisted c).mp (List.mem_of_find?_eq_some hf)
        rw [ht, Option.some.injEq] at ht'
        rw [h.unique b c src t hs ht (hw.trans (ht' ▸ htw).symm) (hfirst.trans htf.symm)]

end Indexed

end CodeStore

end Recompiler
