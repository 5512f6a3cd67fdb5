import Mathlib.Algebra.GroupWithZero.Nat
import Mathlib.Data.List.Nodup
import Mathlib.Data.List.Perm.Basic
import Recompiler.Proofs.Arena.Records

/-!
# The layout of the arena

Regions lie one after the other without gaps, every descriptor of the pool is
either a region's or free, and the active region starts early enough for the
scratch space of a block.  Layout is a matter of outline and cores, so links
have no part in it.
-/

namespace Recompiler

namespace Arena

/-! ## Tilings -/

/-- Some regions follow each other without gaps from `lo` up to `hi`, and none
of them is empty. -/
def Tiles (a : Arena) : (lo : Nat) → List BlockId → (hi : Nat) → Prop
  | lo, [], hi => lo = hi
  | lo, id :: rest, hi =>
      (a.block id).start = lo ∧ 0 < (a.block id).size ∧
        a.Tiles (lo + (a.block id).size) rest hi

def span (a : Arena) (ids : List BlockId) : Nat :=
  (ids.map fun id => (a.block id).size).sum

@[simp] theorem span_nil (a : Arena) : a.span [] = 0 := rfl

@[simp] theorem span_cons (a : Arena) (id : BlockId) (ids : List BlockId) :
    a.span (id :: ids) = (a.block id).size + a.span ids := by
  simp [span]

theorem span_congr {a b : Arena} {ids : List BlockId}
    (h : ∀ id ∈ ids, (a.block id).size = (b.block id).size) : a.span ids = b.span ids := by
  rw [span, span, List.map_congr_left h]

theorem Tiles.congr {a b : Arena} {ids : List BlockId} {lo hi : Nat}
    (h : ∀ id ∈ ids, (a.block id).start = (b.block id).start ∧
      (a.block id).size = (b.block id).size)
    (ht : a.Tiles lo ids hi) : b.Tiles lo ids hi := by
  induction ids generalizing lo with
  | nil => exact ht
  | cons id rest ih =>
      obtain ⟨hstart, hsize⟩ := h id List.mem_cons_self
      obtain ⟨h1, h2, h3⟩ := ht
      rw [hsize] at h2 h3
      exact ⟨hstart ▸ h1, h2, ih (fun x hx => h x (List.mem_cons_of_mem _ hx)) h3⟩

theorem tiles_append {a : Arena} {xs ys : List BlockId} {lo hi : Nat} :
    a.Tiles lo (xs ++ ys) hi ↔ ∃ mid, a.Tiles lo xs mid ∧ a.Tiles mid ys hi := by
  induction xs generalizing lo with
  | nil =>
      constructor
      · exact fun h => ⟨lo, rfl, h⟩
      · rintro ⟨mid, rfl, h⟩
        exact h
  | cons id rest ih =>
      constructor
      · rintro ⟨h1, h2, h3⟩
        obtain ⟨mid, h4, h5⟩ := ih.mp h3
        exact ⟨mid, ⟨h1, h2, h4⟩, h5⟩
      · rintro ⟨mid, ⟨h1, h2, h3⟩, h4⟩
        exact ⟨h1, h2, ih.mpr ⟨mid, h3, h4⟩⟩

theorem Tiles.eq_add_span {a : Arena} {ids : List BlockId} {lo hi : Nat}
    (h : a.Tiles lo ids hi) : hi = lo + a.span ids := by
  induction ids generalizing lo with
  | nil => exact h.symm
  | cons id rest ih =>
      have := ih h.2.2
      rw [span_cons]
      omega

theorem Tiles.bounds {a : Arena} {ids : List BlockId} {lo hi : Nat} (h : a.Tiles lo ids hi)
    {id : BlockId} (hid : id ∈ ids) :
    lo ≤ (a.block id).start ∧ 0 < (a.block id).size ∧
      (a.block id).start + (a.block id).size ≤ hi := by
  induction ids generalizing lo with
  | nil => cases hid
  | cons x rest ih =>
      obtain ⟨h1, h2, h3⟩ := h
      rcases List.mem_cons.mp hid with rfl | hid
      · have := h3.eq_add_span
        omega
      · have := ih h3 hid
        omega

theorem Tiles.disjoint {a : Arena} {ids : List BlockId} {lo hi : Nat} (h : a.Tiles lo ids hi)
    {x y : BlockId} (hx : x ∈ ids) (hy : y ∈ ids) (hxy : x ≠ y) :
    (a.block x).start + (a.block x).size ≤ (a.block y).start ∨
      (a.block y).start + (a.block y).size ≤ (a.block x).start := by
  induction ids generalizing lo with
  | nil => cases hx
  | cons z rest ih =>
      obtain ⟨h1, _, h3⟩ := h
      rcases List.mem_cons.mp hx with rfl | hx'
      · rcases List.mem_cons.mp hy with rfl | hy'
        · exact absurd rfl hxy
        · have := h3.bounds hy'
          omega
      · rcases List.mem_cons.mp hy with rfl | hy'
        · have := h3.bounds hx'
          omega
        · exact ih h3 hx' hy'

/-- Regions within a tiling may be exchanged for others that tile the same
stretch. -/
theorem Tiles.replace {a b : Arena} {before old new after : List BlockId} {lo hi : Nat}
    (h : a.Tiles lo (before ++ old ++ after) hi)
    (hout : ∀ x ∈ before ++ after, (a.block x).start = (b.block x).start ∧
      (a.block x).size = (b.block x).size)
    (hin : ∀ l r, a.Tiles l old r → b.Tiles l new r) :
    b.Tiles lo (before ++ new ++ after) hi := by
  rw [tiles_append] at h ⊢
  obtain ⟨right, h, hafter⟩ := h
  rw [tiles_append] at h
  obtain ⟨left, hbefore, hold⟩ := h
  refine ⟨right, tiles_append.mpr ⟨left, ?_, hin left right hold⟩, ?_⟩
  · exact hbefore.congr fun x hx => hout x (List.mem_append_left _ hx)
  · exact hafter.congr fun x hx => hout x (List.mem_append_right _ hx)

/-! ## The regions around one -/

theorem around_append {a : Arena} {id : BlockId} {before after : List BlockId}
    (h : a.regions = before ++ id :: after) (hid : id ∉ before) :
    a.around id = (before, after) := by
  have htake : ∀ x ∈ before, decide (x ≠ id) = true := by
    intro x hx
    rw [decide_eq_true_iff]
    rintro rfl
    exact hid hx
  rw [around, h, List.takeWhile_append_of_pos htake, List.dropWhile_append_of_pos htake]
  simp

theorem regions_eq_around {a : Arena} {id : BlockId} (h : id ∈ a.regions) :
    a.regions = (a.around id).1 ++ id :: (a.around id).2 := by
  obtain ⟨before, after, hsplit, hid⟩ := List.eq_append_cons_of_mem h
  rw [around_append hsplit hid]
  exact hsplit

theorem mem_regions_of_around {a : Arena} {id x : BlockId} (hid : id ∈ a.regions)
    (hx : x ∈ (a.around id).1 ++ (a.around id).2) : x ∈ a.regions := by
  rw [regions_eq_around hid]
  simp only [List.mem_append, List.mem_cons] at hx ⊢
  tauto

/-! ## The invariant -/

/-- The arena is laid out as it should be. -/
structure Arranged (a : Arena) : Prop where
  /-- A descriptor of the pool is one region's or free. -/
  nodup : (a.regions ++ a.free).Nodup
  pooled : ∀ id, id ∈ a.regions ++ a.free ↔ a.Pooled id
  tiles : ∃ hi, a.Tiles stubBytes a.regions hi ∧ stubBytes + a.arenaBytes ≤ hi
  first : a.regions.head? = some firstRegion
  fits : a.blockBytes ≤ a.arenaBytes
  active : a.active ∈ a.regions
  /-- From the active region on there is scratch space for a block. -/
  early : (a.block a.active).start ≤ a.lastStart
  free : ∀ id ∈ a.free, a.isLive id = false
  opened : ∀ id, a.opened = some id →
    id = a.active ∧ a.isLive id = false ∧ a.blockBytes ≤ (a.block id).size

namespace Arranged

variable {a : Arena} (h : a.Arranged)

include h

theorem not_trampoline {id : BlockId} (hid : id ∈ a.regions ++ a.free) :
    id.isTrampoline = false := by
  have := ((h.pooled id).mp hid).1
  rw [BlockId.isTrampoline, decide_eq_false_iff_not]
  exact Nat.not_lt.mpr this

theorem not_trampoline_of_region {id : BlockId} (hid : id ∈ a.regions) :
    id.isTrampoline = false :=
  h.not_trampoline (List.mem_append_left _ hid)

theorem lt_capacity {id : BlockId} (hid : id ∈ a.regions ++ a.free) :
    id.number < a.capacity :=
  ((h.pooled id).mp hid).2

theorem not_free_of_region {id : BlockId} (hid : id ∈ a.regions) : id ∉ a.free :=
  fun hf => List.disjoint_of_nodup_append h.nodup hid hf

/-- Layout is a matter of the frame, of where regions lie, and of nothing being
compiled where code may be written. -/
theorem congr {b : Arena} (hab : a.frame = b.frame)
    (hopened : ∀ id, b.opened = some id → a.opened = some id)
    (hstart : ∀ id, (b.block id).start = (a.block id).start)
    (hsize : ∀ id, (b.block id).size = (a.block id).size)
    (hlive : ∀ id, id ∈ a.free ∨ b.opened = some id → a.isLive id = false →
      b.isLive id = false) : b.Arranged := by
  have hr := regions_of_frame hab
  have hf := free_of_frame hab
  have hact := active_of_frame hab
  have hbytes := arenaBytes_of_frame hab
  have hblock := blockBytes_of_frame hab
  refine ⟨?_, ?_, ?_, ?_, ?_, ?_, ?_, ?_, ?_⟩
  · rw [← hr, ← hf]; exact h.nodup
  · intro id
    rw [← hr, ← hf, Pooled, ← capacity_of_frame hab]
    exact h.pooled id
  · obtain ⟨hi, ht, hle⟩ := h.tiles
    rw [← hr, ← hbytes]
    exact ⟨hi, ht.congr fun id _ => ⟨(hstart id).symm, (hsize id).symm⟩, hle⟩
  · rw [← hr]; exact h.first
  · rw [← hblock, ← hbytes]; exact h.fits
  · rw [← hact, ← hr]; exact h.active
  · rw [lastStart, ← hact, ← hblock, ← hbytes, hstart]; exact h.early
  · intro id hid
    exact hlive id (Or.inl (hf ▸ hid)) (h.free id (hf ▸ hid))
  · intro id hid
    obtain ⟨h1, h2, h3⟩ := h.opened id (hopened id hid)
    rw [← hact, ← hblock, hsize]
    exact ⟨h1, hlive id (Or.inr hid) h2, h3⟩

theorem of_alike {b : Arena} (hab : a.Alike b) : b.Arranged :=
  h.congr (frame_of_outline hab.outline)
    (fun _ hid => (opened_of_outline hab.outline).trans hid)
    (fun id => (hab.start id).symm) (fun id => (hab.size id).symm)
    fun id _ hid => (hab.isLive id).symm.trans hid

theorem vacate (id : BlockId) : (a.vacate id).Arranged := by
  refine of_alike ?_ (Alike.vacate a id)
  refine h.congr (frame_of_outline (outline_modify ..).symm) (fun _ hb => hb) (fun b => ?_)
    (fun b => ?_) fun b _ hb => ?_
  · exact field_modify a id b Descriptor.start fun _ => rfl
  · exact field_modify a id b Descriptor.size fun _ => rfl
  · rw [isLive, block_modify]
    split
    · rfl
    · exact hb

theorem count (f : Counters → Counters) : (a.count f).Arranged :=
  h.of_alike (Alike.count a f)

theorem link {a' : Arena} {source target : BlockId} {slot : Slot}
    (hl : a.link source slot target = .ok a') : a'.Arranged :=
  h.of_alike (Alike.link hl)

theorem setPen (pen : Pen) : ({ a with pen } : Arena).Arranged :=
  h.congr rfl (fun _ hb => hb) (fun _ => rfl) (fun _ => rfl) fun _ _ hb => hb

end Arranged

/-! ## Closing a block -/

theorem le_trimmed (written : Nat) : written ≤ trimmed written := by
  simp only [trimmed, codeAlign]
  omega

theorem trimmed_pos (written : Nat) : 0 < trimmed written := by
  simp only [trimmed, codeAlign]
  omega

theorem trimmed_lt (written : Nat) : trimmed written < written + codeAlign + 1 := by
  simp only [trimmed, codeAlign]
  omega

def resize (a : Arena) (id : BlockId) (size : Nat) : Arena :=
  a.modify id fun d => { d with size }

/-- The arena with a region cut to a length and the remainder made a region of
a descriptor that was free. -/
def carve (a : Arena) (id rest : BlockId) (free : List BlockId) (size : Nat) : Arena :=
  let tail := a.modify rest fun r =>
    { r with start := (a.block id).start + size, size := (a.block id).size - size }
  { tail.resize id size with
    free, regions := (a.around id).1 ++ id :: rest :: (a.around id).2 }

theorem block_resize {a : Arena} {id : BlockId} (h : id.number < a.capacity) (size : Nat)
    (b : BlockId) :
    (a.resize id size).block b = if b = id then { a.block b with size } else a.block b :=
  block_modify_of_lt h _ b

theorem start_resize (a : Arena) (id : BlockId) (size : Nat) (b : BlockId) :
    ((a.resize id size).block b).start = (a.block b).start :=
  field_modify a id b Descriptor.start fun _ => rfl

theorem isLive_resize (a : Arena) (id : BlockId) (size : Nat) (b : BlockId) :
    (a.resize id size).isLive b = a.isLive b :=
  field_modify a id b Descriptor.isLive fun _ => rfl

theorem block_carve {a : Arena} {id rest : BlockId} (hid : id.number < a.capacity)
    (hrest : rest.number < a.capacity) (hne : rest ≠ id) (free : List BlockId) (size : Nat)
    (b : BlockId) :
    (a.carve id rest free size).block b =
      if b = id then { a.block b with size }
      else if b = rest then
        { a.block b with
          start := (a.block id).start + size, size := (a.block id).size - size }
      else a.block b := by
  show ((a.modify rest _).resize id size).block b = _
  rw [block_resize (by rw [capacity_modify]; exact hid), block_modify_of_lt hrest]
  by_cases hb : b = id
  · simp [hb, Ne.symm hne]
  · simp [hb]

@[simp] theorem capacity_carve (a : Arena) (id rest : BlockId) (free : List BlockId) (size : Nat) :
    (a.carve id rest free size).capacity = a.capacity := by
  show ((a.modify rest _).modify id _).capacity = _
  rw [capacity_modify, capacity_modify]

/-- The ways in which a region is trimmed: it stays, the last region grows, or
what is left over becomes a region. -/
inductive Trimmed (a : Arena) (id : BlockId) (written : Nat) : Arena → Prop
  | stays (h : written ≤ (a.block id).size) : Trimmed a id written a
  | grows (h : (a.block id).size < written) (hlast : (a.around id).2 = [])
      (hroom : written ≤ (a.block id).size + a.blockBytes) :
      Trimmed a id written (a.resize id written)
  | splits (rest : BlockId) (free : List BlockId) (hfree : a.free = rest :: free)
      (h : trimmed written < (a.block id).size) :
      Trimmed a id written (a.carve id rest free (trimmed written))

namespace Trimmed

variable {a a' : Arena} {id : BlockId} {written : Nat} (h : Trimmed a id written a')

include h

theorem opened : a'.opened = a.opened := by
  cases h with
  | stays _ | grows _ _ _ | splits _ _ _ _ => rfl

theorem pen : a'.pen = a.pen := by
  cases h with
  | stays _ | grows _ _ _ | splits _ _ _ _ => rfl

theorem arenaBytes : a'.arenaBytes = a.arenaBytes := by
  cases h with
  | stays _ | grows _ _ _ | splits _ _ _ _ => rfl

theorem blockBytes : a'.blockBytes = a.blockBytes := by
  cases h with
  | stays _ | grows _ _ _ | splits _ _ _ _ => rfl

theorem capacity : a'.capacity = a.capacity := by
  cases h with
  | stays _ => rfl
  | grows _ _ _ => exact capacity_modify ..
  | splits _ _ _ _ => exact capacity_carve ..

/-- Trimming concerns only where regions lie and how long they are. -/
theorem field {α : Type} (g : Descriptor → α)
    (hg : ∀ d start size, g { d with start, size } = g d) (b : BlockId) :
    g (a'.block b) = g (a.block b) := by
  cases h with
  | stays _ => rfl
  | grows _ _ _ => exact field_modify a id b g fun d => hg d d.start written
  | splits rest _ _ _ =>
      refine (field_modify _ id b g fun d => hg d d.start (trimmed written)).trans ?_
      exact field_modify a rest b g fun d => hg d _ _

theorem mem_regions (hid : id ∈ a.regions) : id ∈ a'.regions := by
  cases h with
  | stays _ | grows _ _ _ => exact hid
  | splits _ _ _ _ => exact List.mem_append_right _ List.mem_cons_self

end Trimmed

theorem trimmed_of_ok {a a' : Arena} {id : BlockId} {written : Nat}
    (h : a.trim id written = .ok a') : Trimmed a id written a' := by
  unfold trim at h
  simp only at h
  split at h
  · next hlt =>
      split at h
      · cases h
      · next hspill =>
          rw [not_or, not_not, Nat.not_lt] at hspill
          cases h
          exact .grows hlt hspill.1 hspill.2
  · next hle =>
      split at h
      · next hleft =>
          simp only [take] at h
          split at h
          · cases h
          · next rest free hfree =>
              cases h
              refine .splits rest free hfree ?_
              have := trimmed_lt written
              omega
      · cases h
        exact .stays (Nat.le_of_not_lt hle)

namespace Arranged

variable {a : Arena} (h : a.Arranged)

include h

theorem region_lt_capacity {id : BlockId} (hid : id ∈ a.regions) : id.number < a.capacity :=
  h.lt_capacity (List.mem_append_left _ hid)

theorem not_mem_around {id : BlockId} (hid : id ∈ a.regions) :
    id ∉ (a.around id).1 ++ (a.around id).2 := by
  have hnodup := List.Nodup.of_append_left h.nodup
  rw [regions_eq_around hid] at hnodup
  exact (List.nodup_cons.mp (List.nodup_middle.mp hnodup)).1

theorem nodup_after {id : BlockId} (hid : id ∈ a.regions) : (a.around id).2.Nodup := by
  have hnodup := List.Nodup.of_append_left h.nodup
  rw [regions_eq_around hid, List.nodup_append] at hnodup
  exact (List.nodup_cons.mp hnodup.2.1).2

theorem bounds_of_mem_after {id x : BlockId} (hid : id ∈ a.regions) (hx : x ∈ (a.around id).2) :
    x.isTrampoline = false ∧ x.number < a.capacity := by
  have hregion := mem_regions_of_around hid (List.mem_append_right _ hx)
  exact ⟨h.not_trampoline_of_region hregion, h.region_lt_capacity hregion⟩

/-- The last region may grow. -/
theorem resize {id : BlockId} (ho : a.opened = none) (hid : id ∈ a.regions)
    (hlast : (a.around id).2 = []) {size : Nat} (hsize : (a.block id).size < size) :
    (a.resize id size).Arranged := by
  have hblock := block_resize (h.region_lt_capacity hid) size
  have hsplit := regions_eq_around hid
  have hbefore := h.not_mem_around hid
  rw [hlast] at hsplit
  rw [hlast, List.append_nil] at hbefore
  obtain ⟨hi, htiles, hreach⟩ := h.tiles
  rw [hsplit, tiles_append] at htiles
  obtain ⟨mid, hfirst, hstart, hpos, rfl⟩ := htiles
  refine ⟨h.nodup, fun b => ?_, ?_, h.first, h.fits, h.active, ?_, fun b hb => ?_,
    fun b hb => ?_⟩
  · rw [Pooled, Arena.resize, capacity_modify]
    exact h.pooled b
  · refine ⟨mid + size, ?_, Nat.le_trans hreach (Nat.add_le_add_left (Nat.le_of_lt hsize) _)⟩
    show Arena.Tiles _ _ a.regions _
    rw [hsplit, tiles_append]
    refine ⟨mid, hfirst.congr fun b hb => ?_, ?_, ?_, ?_⟩
    · have hne : b ≠ id := fun he => hbefore (he ▸ hb)
      rw [hblock, if_neg hne]
      exact ⟨rfl, rfl⟩
    · rw [hblock, if_pos rfl]; exact hstart
    · rw [hblock, if_pos rfl]; exact Nat.zero_lt_of_lt hsize
    · rw [hblock, if_pos rfl]; rfl
  · show ((a.resize id size).block a.active).start ≤ _
    rw [start_resize]
    exact h.early
  · rw [isLive_resize]
    exact h.free b hb
  · rw [show (a.resize id size).opened = a.opened from rfl, ho] at hb
    cases hb

theorem block_carve {id rest : BlockId} {free : List BlockId} (hid : id ∈ a.regions)
    (hfree : a.free = rest :: free) (size : Nat) :
    rest ≠ id ∧ ∀ b, (a.carve id rest free size).block b =
      if b = id then { a.block b with size }
      else if b = rest then
        { a.block b with
          start := (a.block id).start + size, size := (a.block id).size - size }
      else a.block b := by
  have hrest : rest ∈ a.free := hfree ▸ List.mem_cons_self
  have hne : rest ≠ id := fun he => h.not_free_of_region hid (he ▸ hrest)
  exact ⟨hne, Arena.block_carve (h.region_lt_capacity hid)
    (h.lt_capacity (List.mem_append_right _ hrest)) hne free size⟩

theorem block_carve_of_ne {id rest : BlockId} {free : List BlockId} (hid : id ∈ a.regions)
    (hfree : a.free = rest :: free) (size : Nat) {x : BlockId} (hx : x ∈ a.regions)
    (hne : x ≠ id) : (a.carve id rest free size).block x = a.block x := by
  rw [(h.block_carve hid hfree size).2, if_neg hne, if_neg]
  rintro rfl
  exact h.not_free_of_region hx (hfree ▸ List.mem_cons_self)

theorem tiles_carve {id rest : BlockId} {free : List BlockId} (hid : id ∈ a.regions)
    (hfree : a.free = rest :: free) {size : Nat} (hpos : 0 < size)
    (hsize : size < (a.block id).size) {hi : Nat} (htiles : a.Tiles stubBytes a.regions hi) :
    (a.carve id rest free size).Tiles stubBytes (a.carve id rest free size).regions hi := by
  obtain ⟨hne, hblock⟩ := h.block_carve hid hfree size
  rw [regions_eq_around hid] at htiles
  have := @Tiles.replace a (a.carve id rest free size) (a.around id).1 [id] [id, rest]
    (a.around id).2 stubBytes hi (by simpa using htiles) (fun x hx => ?_) ?_
  · simpa [Arena.carve] using this
  · rw [h.block_carve_of_ne hid hfree size (mem_regions_of_around hid hx)
      fun he => h.not_mem_around hid (he ▸ hx)]
    exact ⟨rfl, rfl⟩
  · rintro l r ⟨rfl, _, rfl⟩
    simp only [Tiles, hblock, if_true, hne, if_false, true_and]
    omega

/-- A region may be cut in two. -/
theorem carve {id rest : BlockId} {free : List BlockId} (ho : a.opened = none)
    (hid : id ∈ a.regions) (hfree : a.free = rest :: free) {size : Nat} (hpos : 0 < size)
    (hsize : size < (a.block id).size) : (a.carve id rest free size).Arranged := by
  have hrest : rest ∈ a.free := hfree ▸ List.mem_cons_self
  obtain ⟨hne, hblock⟩ := h.block_carve hid hfree size
  have hsplit := regions_eq_around hid
  have hperm : ((a.around id).1 ++ id :: rest :: (a.around id).2 ++ free).Perm
      (a.regions ++ a.free) := by
    rw [hsplit, hfree]
    simp only [List.append_assoc, List.cons_append]
    exact List.Perm.append_left _ (List.Perm.cons _ List.perm_middle.symm)
  refine ⟨hperm.nodup_iff.mpr h.nodup, fun x => ?_, ?_, ?_, h.fits, ?_, ?_, fun x hx => ?_,
    fun x hx => ?_⟩
  · rw [Pooled, capacity_carve]
    exact hperm.mem_iff.trans (h.pooled x)
  · obtain ⟨hi, htiles, hreach⟩ := h.tiles
    exact ⟨hi, h.tiles_carve hid hfree hpos hsize htiles, hreach⟩
  · show ((a.around id).1 ++ id :: rest :: (a.around id).2).head? = _
    have hfirst := h.first
    rw [hsplit] at hfirst
    cases hb : (a.around id).1 with
    | nil => rw [hb] at hfirst; exact hfirst
    | cons x xs => rw [hb] at hfirst; exact hfirst
  · show a.active ∈ (a.around id).1 ++ id :: rest :: (a.around id).2
    have hact := h.active
    rw [hsplit] at hact
    simp only [List.mem_append, List.mem_cons] at hact ⊢
    tauto
  · show ((a.carve id rest free size).block a.active).start ≤ _
    refine Nat.le_trans (Nat.le_of_eq ?_) h.early
    by_cases hact : a.active = id
    · rw [hblock, if_pos hact]
    · rw [h.block_carve_of_ne hid hfree size h.active hact]
  · have hxf : x ∈ a.free := hfree ▸ List.mem_cons_of_mem _ hx
    have hxr : x ≠ rest := by
      rintro rfl
      have := (List.nodup_append.mp h.nodup).2.1
      rw [hfree] at this
      exact (List.nodup_cons.mp this).1 hx
    have hxid : x ≠ id := fun he => h.not_free_of_region hid (he ▸ hxf)
    rw [isLive, hblock, if_neg hxid, if_neg hxr]
    exact h.free x hxf
  · rw [show (a.carve id rest free size).opened = a.opened from rfl, ho] at hx
    cases hx

/-- Of a record in use trimming changes at most the length of the region. -/
theorem block_of_trimmed {a' : Arena} {id : BlockId} {written : Nat} (hid : id ∈ a.regions)
    (ht : Trimmed a id written a') {b : BlockId} (hb : b ∉ a.free) :
    ∃ size, (b ≠ id → size = (a.block b).size) ∧ (b = id → written ≤ size) ∧
      a'.block b = { a.block b with size } := by
  have hlt := h.region_lt_capacity hid
  cases ht with
  | stays hle => exact ⟨(a.block b).size, fun _ => rfl, fun he => he ▸ hle, rfl⟩
  | grows _ _ _ =>
      rw [block_resize hlt]
      split
      · next he => exact ⟨written, fun hne => absurd he hne, fun _ => Nat.le_refl _, rfl⟩
      · next he => exact ⟨(a.block b).size, fun _ => rfl, fun hb => absurd hb he, rfl⟩
  | splits rest free hfree _ =>
      have hbr : b ≠ rest := fun he => hb (hfree ▸ he ▸ List.mem_cons_self)
      rw [(h.block_carve hid hfree _).2]
      split
      · next he =>
          exact ⟨trimmed written, fun hne => absurd he hne, fun _ => le_trimmed written, rfl⟩
      · next he => exact ⟨(a.block b).size, fun _ => rfl, fun hb => absurd hb he, rfl⟩

theorem of_trimmed {a' : Arena} (ho : a.opened = none) {id : BlockId} {written : Nat}
    (hid : id ∈ a.regions) (ht : Trimmed a id written a') : a'.Arranged := by
  cases ht with
  | stays _ => exact h
  | grows hgrow hlast _ => exact h.resize ho hid hlast hgrow
  | splits rest free hfree hlt => exact h.carve ho hid hfree (trimmed_pos _) hlt

end Arranged

end Arena

end Recompiler
