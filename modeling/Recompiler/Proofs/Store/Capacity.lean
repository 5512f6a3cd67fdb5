import Recompiler.Proofs.Guarded.Teardown
import Recompiler.Proofs.Store.Alignment

/-!
# There is always a descriptor

Blocks that are compiled never outgrow their regions, so regions are cut at
multiples of the alignment only, and together they are as long as the block
region.  Compiling takes a descriptor where it cuts a region in two, and a pool
that is large enough has one then.  How large that is can be told in two ways.
Regions are never shorter than the alignment; and those that a block was
compiled in are longer than that, and all others lie at the end or are the next
to be opened.
-/

namespace Recompiler

namespace Arena

/-! ## Regions and descriptors -/

/-- Regions of such sizes that are not empty are at least as long as the
alignment. -/
theorem Multiples.mul_length_le {a : Arena} {ids : List BlockId} (h : a.Multiples ids)
    (hpos : ∀ id ∈ ids, 0 < (a.block id).size) : codeAlign * ids.length ≤ a.span ids := by
  induction ids with
  | nil => exact Nat.le_refl _
  | cons id rest ih =>
      have hsize := h id List.mem_cons_self
      have hid := hpos id List.mem_cons_self
      have hrest := ih (fun x hx => h x (List.mem_cons_of_mem _ hx))
        fun x hx => hpos x (List.mem_cons_of_mem _ hx)
      rw [span_cons, List.length_cons]
      simp only [codeAlign] at hsize hrest ⊢
      omega

/-- Every descriptor but the trampolines' is a region's or free. -/
theorem Arranged.length_eq {a : Arena} (h : a.Arranged) :
    a.regions.length + a.free.length + BlockId.lowest.number = a.capacity := by
  have hperm : (a.regions ++ a.free).Perm
      ((List.range' BlockId.lowest.number (a.capacity - BlockId.lowest.number)).map .mk) := by
    refine (List.perm_ext_iff_of_nodup h.nodup ?_).mpr fun id => ?_
    · exact List.Nodup.map (fun _ _ he => BlockId.mk.inj he) List.nodup_range'
    · obtain ⟨n⟩ := id
      rw [h.pooled]
      simp only [Pooled, List.mem_map, List.mem_range'_1, BlockId.mk.injEq, exists_eq_right]
      omega
  have hlength := hperm.length_eq
  obtain ⟨hlow, hhigh⟩ := (h.pooled a.active).mp (List.mem_append_left _ h.active)
  rw [List.length_append, List.length_map, List.length_range'] at hlength
  omega

/-- A region is closed without a descriptor only where none is free. -/
theorem free_of_close_exhausted {a : Arena} {kind : BlockKind} {program : List Operation} {n : Nat}
    (hc : a.close kind program = .error (.descriptorsExhausted n)) : a.free = [] := by
  cases ho : a.opened with
  | none =>
      unfold Arena.close at hc
      rw [ho] at hc
      cases hc
  | some id =>
      rw [close_eq ho] at hc
      cases ht : (a.sealed id kind program).trim id (a.pen.cursor - (a.block id).start) with
      | ok b =>
          rw [ht] at hc
          cases hc
      | error f =>
          rw [ht] at hc
          cases hc
          unfold trim at ht
          simp only at ht
          split at ht
          · split at ht
            · cases ht
            · cases ht
          · split at ht
            · cases hfree : a.free with
              | nil => rfl
              | cons rest free =>
                  rw [take, show (a.sealed id kind program).free = a.free from rfl, hfree] at ht
                  cases ht
            · cases ht

theorem regions_advance (a : Arena) (id : BlockId) : (a.advance id).regions = a.regions := by
  unfold advance
  split
  · split
    · rfl
    · rfl
  · rfl

/-- The region after a block is the next to be opened, unless it starts too
late. -/
theorem active_advance {a : Arena} {id next : BlockId} {rest : List BlockId}
    (h : (a.around id).2 = next :: rest) :
    next = (a.advance id).active ∨ a.lastStart < (a.block next).start := by
  unfold advance
  rw [h]
  simp only
  split
  · exact Or.inl rfl
  · next hlate => exact Or.inr (Nat.lt_of_not_le hlate)

/-! ## Regions that are whole -/

/-- An arena cut into multiples of the alignment, in which no block spilled. -/
structure Packed (a : Arena) : Prop where
  sizes : a.Multiples a.regions
  whole : a.span a.regions = a.arenaBytes

namespace Packed

variable {a : Arena} (h : a.Packed)

include h

theorem congr {b : Arena} (hregions : b.regions = a.regions) (hbytes : b.arenaBytes = a.arenaBytes)
    (hsize : ∀ id, (b.block id).size = (a.block id).size) : b.Packed := by
  refine ⟨?_, ?_⟩
  · rw [hregions]
    exact h.sizes.congr fun id _ => hsize id
  · rw [hregions, hbytes, span_congr fun id _ => hsize id]
    exact h.whole

theorem carve (harr : a.Arranged) {id rest : BlockId} {free : List BlockId} (hid : id ∈ a.regions)
    (hfree : a.free = rest :: free) {size : Nat} (hmod : size % codeAlign = 0)
    (hsize : size < (a.block id).size) : (a.carve id rest free size).Packed := by
  obtain ⟨_, hblock⟩ := harr.block_carve hid hfree size
  refine ⟨fun x hx => ?_, (harr.span_carve hid hfree hsize).trans h.whole⟩
  have hx : x ∈ (a.around id).1 ++ id :: rest :: (a.around id).2 := hx
  by_cases hxid : x = id
  · rw [hblock, if_pos hxid]
    exact hmod
  · by_cases hxr : x = rest
    · have hid := h.sizes id hid
      rw [hblock, if_neg hxid, if_pos hxr]
      show ((a.block id).size - size) % codeAlign = 0
      simp only [codeAlign] at hid hmod ⊢
      omega
    · have hx : x ∈ (a.around id).1 ++ (a.around id).2 := by
        simp only [List.mem_append, List.mem_cons] at hx ⊢
        tauto
      rw [harr.size_carve hid hfree size x hx]
      exact h.sizes x (mem_regions_of_around hid hx)

theorem sealed {id : BlockId} (hid : id.number < a.capacity) (kind : BlockKind)
    (program : List Operation) : (a.sealed id kind program).Packed := by
  refine h.congr rfl rfl fun x => ?_
  rw [block_sealed kind program hid]
  split
  · rfl
  · rfl

/-- **A block that fits its region is closed in it.** -/
theorem close (harr : a.Arranged) {a' : Arena} {kind : BlockKind} {program : List Operation}
    {id : BlockId} (hfit : a.pen.cursor - (a.block id).start ≤ (a.block id).size)
    (hc : a.close kind program = .ok (id, a')) : a'.Packed := by
  obtain ⟨ho, b, ht, rfl⟩ := of_close_ok hc
  have hid : id ∈ a.regions := (harr.opened id ho).1 ▸ harr.active
  have hlt := harr.region_lt_capacity hid
  have hsealed := h.sealed hlt kind program
  have hb : b.Packed := by
    cases ht with
    | stays _ => exact hsealed
    | grows hgrow _ _ =>
        rw [block_sealed kind program hlt, if_pos rfl] at hgrow
        exact absurd hfit (Nat.not_le.mpr hgrow)
    | splits rest free hfree hcut =>
        exact hsealed.carve (harr.sealed kind program ho) hid hfree (by simp [trimmed, codeAlign])
          hcut
  exact hb.congr (regions_advance b id) (arenaBytes_advance b id) fun x => by
    rw [block_count, block_advance]

end Packed

end Arena

namespace CodeStore

open Arena

theorem Reopened.packed {a a' : Arena} {id : BlockId} {taken rest : List BlockId}
    (h : Reopened a a' id taken rest) (harr : a.Arranged) (hid : id = a.active) (ha : a.Packed) :
    a'.Packed := by
  have hmem : id ∈ a.regions := hid ▸ harr.active
  have hsplit := regions_eq_around hmem
  rw [h.after] at hsplit
  refine ⟨fun x hx => ?_, by rw [h.span_eq harr hid, ha.whole, h.arenaBytes]⟩
  rw [h.regions] at hx
  by_cases hxid : x = id
  · have hself := ha.sizes id hmem
    have htaken : a.Multiples taken := fun y hy => ha.sizes y (by simp [hsplit, hy])
    rw [hxid, h.size_self harr hid, Nat.add_mod, hself, htaken.span]
    rfl
  · have hx : x ∈ (a.around id).1 ++ rest := by
      simp only [List.mem_append, List.mem_cons] at hx ⊢
      tauto
    rw [h.size_of_kept harr hid x hx]
    exact ha.sizes x (h.kept harr hid x hx).1

end CodeStore

/-! ## Compiling succeeds -/

namespace Arena

/-- A property of the arena that compiling keeps, and that leaves a descriptor
free where a region is open. -/
structure Provident (P : Arena → Prop) : Prop where
  /-- It is a matter of the frame and of where regions lie. -/
  congr : ∀ {a b : Arena}, P a → a.frame = b.frame →
    (∀ id, (b.block id).start = (a.block id).start) →
      (∀ id, (b.block id).size = (a.block id).size) → P b
  reopened : ∀ {a a' : Arena} {id : BlockId} {taken rest : List BlockId}, P a → a.Arranged →
    id = a.active → CodeStore.Reopened a a' id taken rest → P a'
  free : ∀ {a : Arena} {id : BlockId}, P a → a.Arranged → a.opened = some id →
    leastBlockBytes ≤ a.blockBytes → a.free ≠ []
  close : ∀ {a a' : Arena} {kind : BlockKind} {program : List Operation} {id : BlockId}, P a →
    a.Arranged → leastCode ≤ a.pen.cursor - (a.block id).start →
      a.pen.cursor - (a.block id).start ≤ (a.block id).size →
        a.close kind program = .ok (id, a') → P a'

namespace Provident

variable {P : Arena → Prop} (hP : Provident P)

include hP

theorem of_alike {a b : Arena} (h : P a) (hab : a.Alike b) : P b :=
  hP.congr h (frame_of_outline hab.outline) (fun id => (hab.start id).symm)
    fun id => (hab.size id).symm

theorem lasting : Lasting P where
  count f h := hP.of_alike h (.count _ f)
  vacate {a} id h := hP.congr h (frame_of_outline (outline_vacate _ id).symm) (start_vacate a id)
    fun b => by
      rw [← Descriptor.size_core, core_vacate]
      split
      · rfl
      · rfl

end Provident

end Arena

namespace CodeStore

open Arena

section Compile

variable {l : Limits} {s s' : CodeStore} {watch : WatchId} {page : Vector UInt8 pageSize}
  {eip : UInt32} {id : BlockId} (h : s.Coherent l)

include h

/-- Compiling finds no descriptor only where opening leaves none. -/
theorem of_compile_exhausted {n : Nat}
    (hc : s.compile l watch page eip = .error (.descriptorsExhausted n)) :
    ∃ id code, s.openRegion = .ok (id, code) ∧ code.arena.free = [] := by
  obtain ⟨id, code, ho⟩ := h.openRegion_ok
  refine ⟨id, code, ho, ?_⟩
  set program := (Sequence.at page l eip).operations id with hprogram
  have hc : (s.openRegion >>= fun r => r.2.arena.emitProgram
      ((Sequence.at page l eip).operations r.1) >>= _) = _ := hc
  rw [ho] at hc
  have hc : (code.arena.emitProgram program >>= _) = _ := hc
  cases he : code.arena.emitProgram program with
  | error f =>
      rw [he] at hc
      cases hc
      unfold Arena.emitProgram Arena.checked at he
      split at he
      · unfold overrunFault at he
        split at he
        · cases he
        · cases he
      · cases he
  | ok a =>
      rw [he] at hc
      have hc : (a.close (Sequence.at page l eip).exit.kind program >>= _) = _ := hc
      cases hclose : a.close (Sequence.at page l eip).exit.kind program with
      | error f =>
          rw [hclose] at hc
          cases hc
          rw [← free_of_close_exhausted hclose, of_checked_ok he]
      | ok r =>
          rw [hclose] at hc
          cases hc

variable {P : Arena → Prop} (hP : Provident P) (ha : P s.arena) (hl : l.Sufficient)

include hP ha hl

/-- **Where descriptors are provided, compiling succeeds.** -/
theorem compile_ok (watch : WatchId) (page : Vector UInt8 pageSize) (eip : UInt32) :
    ∃ r, s.compile l watch page eip = .ok r := by
  refine (h.compile_ok_or hl watch page eip).resolve_right fun hc => ?_
  obtain ⟨id, code, ho, hfree⟩ := of_compile_exhausted h hc
  obtain ⟨_, hact, _, _, hre⟩ := reopened_of_ok h.arranged ho
  refine hP.free (hP.reopened ha h.arranged hact hre) (hre.arranged h.arranged hact) hre.opened ?_
    hfree
  rw [hre.blockBytes, h.room]
  exact hl.codeBytes

/-- **Compiling provides for the next block.** -/
theorem provided_of_compile (hc : s.compile l watch page eip = .ok (id, s')) : P s'.arena := by
  obtain ⟨code, a₁, a₂, ho, he, hcl, rfl⟩ := of_compile_ok hc
  obtain ⟨_, hact, _, _, hre⟩ := reopened_of_ok h.arranged ho
  have hportable := Sequence.portable_operations (Sequence.at page l eip) id
  have hopen : P a₁ := by
    rw [of_checked_ok he]
    exact hP.congr (hP.reopened ha h.arranged hact hre) rfl (fun _ => rfl) fun _ => rfl
  have hwritten : leastCode ≤ a₁.pen.cursor - (a₁.block id).start := by
    have hstart : (a₁.block id).start = code.arena.pen.cursor := by
      rw [of_checked_ok he, hre.pen]
      show (code.arena.block id).start = (s.arena.block id).start
      rw [← Descriptor.start_core, hre.core, if_pos rfl]
      exact Descriptor.start_cleared _
    rw [cursor_emitProgram hportable he, hstart, Nat.add_sub_cancel_left]
    exact leastCode_le _ id
  have hclosed := hP.close hopen (sound_emitProgram h ho he).arranged hwritten
    (h.written_le hl ho he) hcl
  exact hP.congr hclosed (frame_of_outline (outline_modify ..).symm)
    (fun b => field_modify a₂ id b Descriptor.start fun _ => rfl)
    fun b => field_modify a₂ id b Descriptor.size fun _ => rfl

end Compile

end CodeStore

/-! ## As many descriptors as regions could ever be -/

namespace Arena

/-- An arena with a descriptor for every region of the shortest length. -/
structure Ample (a : Arena) : Prop extends a.Packed where
  enough : a.arenaBytes / codeAlign + BlockId.lowest.number ≤ a.capacity

/-- **A region that can be cut in two leaves a descriptor free.** -/
theorem Ample.free_ne_nil {a : Arena} (h : a.Ample) (harr : a.Arranged) {id : BlockId}
    (hid : id ∈ a.regions) (hsize : codeAlign < (a.block id).size) : a.free ≠ [] := by
  intro hfree
  obtain ⟨hi, htiles, _⟩ := harr.tiles
  have hsplit := regions_eq_around hid
  have hpos : ∀ x ∈ (a.around id).1 ++ (a.around id).2, 0 < (a.block x).size := fun x hx =>
    (htiles.bounds (mem_regions_of_around hid hx)).2.1
  have hmod : a.Multiples ((a.around id).1 ++ (a.around id).2) := fun x hx =>
    h.sizes x (mem_regions_of_around hid hx)
  have hothers := hmod.mul_length_le hpos
  have hself := h.sizes id hid
  have hwhole := h.whole
  have henough := h.enough
  have hlength := harr.length_eq
  rw [hfree, hsplit, List.length_nil, List.length_append, List.length_cons] at hlength
  rw [hsplit, span_append, span_cons] at hwhole
  rw [span_append, List.length_append] at hothers
  simp only [codeAlign] at *
  omega

theorem Provident.ample : Provident Ample where
  congr h hab _ hsize :=
    ⟨h.congr (regions_of_frame hab).symm (arenaBytes_of_frame hab).symm hsize,
      arenaBytes_of_frame hab ▸ capacity_of_frame hab ▸ h.enough⟩
  reopened h harr hid hre :=
    ⟨hre.packed harr hid h.toPacked, hre.arenaBytes ▸ hre.capacity ▸ h.enough⟩
  free h harr ho hleast := by
    obtain ⟨hact, _, hroom⟩ := harr.opened _ ho
    refine h.free_ne_nil harr (hact ▸ harr.active) ?_
    simp only [leastBlockBytes, codeAlign] at *
    omega
  close h harr _ hfit hc :=
    ⟨h.toPacked.close harr hfit hc, arenaBytes_close hc ▸ capacity_close hc ▸ h.enough⟩

/-! ## As many descriptors as blocks of the shortest code -/

/-- The length of the region that the shortest block is trimmed to. -/
def leastRegion : Nat := 48

theorem leastRegion_le {written : Nat} (h : leastCode ≤ written) : leastRegion ≤ trimmed written := by
  simp only [leastCode, leastRegion, trimmed, codeAlign] at *
  omega

/-- An arena whose regions have room for a block, but for the one that is opened
next and for those in which no block starts, and which has a descriptor for each. -/
structure Coarse (a : Arena) : Prop extends a.Packed where
  coarse : ∀ id ∈ a.regions, leastRegion ≤ (a.block id).size ∨ id = a.active ∨
    a.lastStart < (a.block id).start
  enough : (a.arenaBytes - a.blockBytes) / leastRegion + a.blockBytes / codeAlign + 2 +
    BlockId.lowest.number ≤ a.capacity

/-- **Regions with room for a block take up their length,** up to the last that
starts below a bound, and those beyond it the alignment at least. -/
theorem Tiles.length_le {a : Arena} {ids : List BlockId} {lo hi bound : Nat} (ht : a.Tiles lo ids hi)
    (hm : a.Multiples ids)
    (hlong : ∀ id ∈ ids, leastRegion ≤ (a.block id).size ∨ bound < (a.block id).start) :
    ids.length ≤ (bound - lo) / leastRegion + (hi - bound) / codeAlign + 1 := by
  induction ids generalizing lo with
  | nil => exact Nat.zero_le _
  | cons id rest ih =>
      have hall : codeAlign * (rest.length + 1) ≤ a.span (id :: rest) :=
        hm.mul_length_le fun x hx => (ht.bounds hx).2.1
      have hend := ht.eq_add_span
      have hshort := hlong id List.mem_cons_self
      obtain ⟨hstart, hpos, htail⟩ := ht
      have hrest := ih htail (fun x hx => hm x (List.mem_cons_of_mem _ hx))
        fun x hx => hlong x (List.mem_cons_of_mem _ hx)
      have hothers : codeAlign * rest.length ≤ a.span rest :=
        Multiples.mul_length_le (fun x hx => hm x (List.mem_cons_of_mem _ hx))
          fun x hx => (htail.bounds hx).2.1
      rw [span_cons] at hend hall
      rw [List.length_cons]
      rw [hstart] at hshort
      simp only [codeAlign, leastRegion] at *
      omega

/-- Of the regions once a block was trimmed, the block's has room for it, one
may be left over right behind it, and the others are as they were. -/
theorem Packed.of_trimmed {a b : Arena} (h : a.Packed) (harr : a.Arranged) {id : BlockId}
    (hid : id ∈ a.regions) {written : Nat} (hwritten : leastCode ≤ written)
    (hfit : written ≤ (a.block id).size) (ht : Trimmed a id written b) :
    ∀ x ∈ b.regions, leastRegion ≤ (b.block x).size ∨ (∃ more, (b.around id).2 = x :: more) ∨
      x ≠ id ∧ x ∈ a.regions ∧ b.block x = a.block x := by
  intro x hx
  by_cases hxid : x = id
  · refine Or.inl ?_
    subst hxid
    have hlong := leastRegion_le hwritten
    cases ht with
    | stays _ =>
        have hmod := h.sizes x hid
        simp only [leastRegion, leastCode, codeAlign] at *
        omega
    | grows hgrow _ _ => exact absurd hfit (Nat.not_le.mpr hgrow)
    | splits rest free hfree _ =>
        rw [(harr.block_carve hid hfree _).2, if_pos rfl]
        exact hlong
  · cases ht with
    | stays _ => exact Or.inr (Or.inr ⟨hxid, hx, rfl⟩)
    | grows hgrow _ _ => exact absurd hfit (Nat.not_le.mpr hgrow)
    | splits rest free hfree _ =>
        obtain ⟨_, hblock⟩ := harr.block_carve hid hfree (trimmed written)
        refine Or.inr ?_
        by_cases hxr : x = rest
        · refine Or.inl ⟨(a.around id).2, ?_⟩
          have hnot : id ∉ (a.around id).1 := fun hm =>
            harr.not_mem_around hid (List.mem_append_left _ hm)
          rw [around_append rfl hnot, hxr]
        · have hx : x ∈ (a.around id).1 ++ id :: rest :: (a.around id).2 := hx
          refine Or.inr ⟨hxid, mem_regions_of_around hid ?_, ?_⟩
          · simp only [List.mem_append, List.mem_cons] at hx ⊢
            tauto
          · rw [hblock, if_neg hxid, if_neg hxr]

namespace Coarse

variable {a : Arena} (h : a.Coarse)

include h

/-- **Where a region is open, a descriptor is free.** -/
theorem free_ne_nil (harr : a.Arranged) {id : BlockId} (ho : a.opened = some id)
    (hleast : leastBlockBytes ≤ a.blockBytes) : a.free ≠ [] := by
  intro hfree
  obtain ⟨hact, _, hroom⟩ := harr.opened id ho
  obtain ⟨hi, htiles, _⟩ := harr.tiles
  have hlong : ∀ x ∈ a.regions, leastRegion ≤ (a.block x).size ∨ a.lastStart < (a.block x).start := by
    intro x hx
    rcases h.coarse x hx with hsize | rfl | hlate
    · exact Or.inl hsize
    · rw [hact] at hroom
      refine Or.inl ?_
      simp only [leastRegion, leastBlockBytes] at *
      omega
    · exact Or.inr hlate
  have hcount := htiles.length_le h.sizes hlong
  have hlength := harr.length_eq
  have henough := h.enough
  have hfits := harr.fits
  rw [htiles.eq_add_span, h.whole] at hcount
  rw [hfree, List.length_nil] at hlength
  simp only [lastStart, leastRegion, codeAlign] at *
  omega

/-- The block that is closed has room, and what is left over is opened next. -/
theorem close (harr : a.Arranged) {a' : Arena} {kind : BlockKind} {program : List Operation}
    {id : BlockId} (hwritten : leastCode ≤ a.pen.cursor - (a.block id).start)
    (hfit : a.pen.cursor - (a.block id).start ≤ (a.block id).size)
    (hc : a.close kind program = .ok (id, a')) : a'.Coarse := by
  have hpacked := h.toPacked.close harr hfit hc
  have hlast : a'.lastStart = a.lastStart := by
    rw [lastStart, lastStart, arenaBytes_close hc, blockBytes_close hc]
  refine ⟨hpacked, fun x hx => ?_, ?_⟩
  · rw [hlast]
    obtain ⟨ho, b, ht, rfl⟩ := of_close_ok hc
    have hact := (harr.opened id ho).1
    have hid : id ∈ a.regions := hact ▸ harr.active
    have hsealed := block_sealed kind program (harr.region_lt_capacity hid)
    have hx : x ∈ (b.advance id).regions := hx
    rw [regions_advance] at hx
    rw [block_count, block_advance]
    have hsize : ((a.sealed id kind program).block id).size = (a.block id).size := by
      rw [hsealed, if_pos rfl]
      rfl
    rcases (h.toPacked.sealed (harr.region_lt_capacity hid) kind program).of_trimmed
      (harr.sealed kind program ho) hid hwritten (hsize ▸ hfit) ht x hx with
      hlong | ⟨more, hnext⟩ | ⟨hne, hmem, hsame⟩
    · exact Or.inl hlong
    · refine Or.inr ?_
      have hlate := active_advance hnext
      rw [lastStart, ht.arenaBytes, ht.blockBytes] at hlate
      exact hlate
    · rw [hsame, hsealed, if_neg hne]
      rcases h.coarse x hmem with hlong | hactive | hlate
      · exact Or.inl hlong
      · exact absurd (hactive.trans hact.symm) hne
      · exact Or.inr (Or.inr hlate)
  · rw [arenaBytes_close hc, blockBytes_close hc, capacity_close hc]
    exact h.enough

end Coarse

theorem Provident.coarse : Provident Coarse where
  congr {a b} h hab hstart hsize := by
    have hregions := regions_of_frame hab
    have hbytes := arenaBytes_of_frame hab
    have hblock := blockBytes_of_frame hab
    refine ⟨h.congr hregions.symm hbytes.symm hsize, fun x hx => ?_, ?_⟩
    · rw [hsize, hstart, ← active_of_frame hab, lastStart, ← hbytes, ← hblock]
      exact h.coarse x (hregions ▸ hx)
    · rw [← hbytes, ← hblock, ← capacity_of_frame hab]
      exact h.enough
  reopened {a a' id taken rest} h harr hid hre := by
    refine ⟨hre.packed harr hid h.toPacked, fun x hx => ?_, ?_⟩
    · by_cases hxid : x = id
      · exact Or.inr (Or.inl (hxid.trans (hid.trans hre.active.symm)))
      · rw [hre.regions] at hx
        have hx : x ∈ (a.around id).1 ++ rest := by
          simp only [List.mem_append, List.mem_cons] at hx ⊢
          tauto
        obtain ⟨hmem, _, hxt⟩ := hre.kept harr hid x hx
        rw [hre.size_of_kept harr hid x hx, hre.start_eq hxt, hre.active, lastStart, hre.arenaBytes,
          hre.blockBytes]
        exact h.coarse x hmem
    · rw [hre.arenaBytes, hre.blockBytes, hre.capacity]
      exact h.enough
  free h harr ho hleast := h.free_ne_nil harr ho hleast
  close h harr hwritten hfit hc := h.close harr hwritten hfit hc

end Arena

/-! ## New arenas -/

namespace CodeStore

open Arena

section New

variable {settings : Settings} (hs : settings.Valid)

include hs

theorem packed_new : (CodeStore.new settings).arena.Packed := by
  have hsize : ((Arena.new settings).block firstRegion).size = settings.arenaBytes := by
    rw [block_new hs]
    rfl
  refine ⟨fun id hid => ?_, hsize⟩
  have hid : id ∈ [firstRegion] := hid
  rw [List.mem_singleton.mp hid, show (CodeStore.new settings).arena = Arena.new settings from rfl,
    hsize]
  exact hs.aligned

theorem ample_new
    (hd : settings.arenaBytes / codeAlign + BlockId.lowest.number ≤ settings.descriptors) :
    (CodeStore.new settings).arena.Ample :=
  ⟨packed_new hs, (capacity_new settings).symm ▸ hd⟩

theorem coarse_new
    (hd : (settings.arenaBytes - settings.blockBytes) / leastRegion +
      settings.blockBytes / codeAlign + 2 + BlockId.lowest.number ≤ settings.descriptors) :
    (CodeStore.new settings).arena.Coarse := by
  refine ⟨packed_new hs, fun id hid => ?_, (capacity_new settings).symm ▸ hd⟩
  exact Or.inr (Or.inl (List.mem_singleton.mp hid))

end New

end CodeStore

end Recompiler
