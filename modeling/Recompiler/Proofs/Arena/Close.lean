import Recompiler.Proofs.Arena.Layout
import Recompiler.Proofs.Arena.Links

/-!
# Closing a block

A block is closed in three steps: its record is written, its region trimmed,
and the next region made active.  Each keeps layout and link graph, and none
touches the code of another block.
-/

namespace Recompiler

namespace Arena

theorem Arranged.activate {a : Arena} (h : a.Arranged) (ho : a.opened = none) {id : BlockId}
    (hid : id ∈ a.regions) (hs : (a.block id).start ≤ a.lastStart) :
    ({ a with active := id } : Arena).Arranged := by
  refine ⟨h.nodup, h.pooled, ?_, h.first, h.fits, hid, hs, h.free, fun x hx => ?_⟩
  · obtain ⟨hi, ht, hle⟩ := h.tiles
    exact ⟨hi, Tiles.congr (a := a) (fun _ _ => ⟨rfl, rfl⟩) ht, hle⟩
  · rw [show ({ a with active := id } : Arena).opened = a.opened from rfl, ho] at hx
    cases hx

theorem Arranged.firstRegion_mem {a : Arena} (h : a.Arranged) : firstRegion ∈ a.regions :=
  List.mem_of_mem_head? (h.first ▸ rfl)

theorem Arranged.start_firstRegion {a : Arena} (h : a.Arranged) :
    (a.block firstRegion).start = stubBytes := by
  obtain ⟨hi, ht, _⟩ := h.tiles
  have hf := h.first
  cases hr : a.regions with
  | nil => rw [hr] at hf; cases hf
  | cons x rest =>
      rw [hr, List.head?_cons, Option.some.injEq] at hf
      rw [hr] at ht
      exact hf ▸ ht.1

theorem Arranged.advance {a : Arena} (h : a.Arranged) (ho : a.opened = none) {id : BlockId}
    (hid : id ∈ a.regions) : (a.advance id).Arranged := by
  have hwrap : (advance.wrap a).Arranged := by
    refine count (h.activate ho h.firstRegion_mem ?_) _
    have := h.fits
    rw [h.start_firstRegion, lastStart]
    omega
  unfold Arena.advance
  split
  · next next rest hafter =>
      split
      · next hs =>
          refine h.activate ho (mem_regions_of_around hid ?_) hs
          rw [hafter]
          exact List.mem_append_right _ List.mem_cons_self
      · exact hwrap
  · exact hwrap

theorem block_advance (a : Arena) (id b : BlockId) : (a.advance id).block b = a.block b := by
  unfold advance
  split
  · split
    · rfl
    · rfl
  · rfl

theorem opened_advance (a : Arena) (id : BlockId) : (a.advance id).opened = a.opened := by
  unfold advance
  split
  · split
    · rfl
    · rfl
  · rfl

theorem pen_advance (a : Arena) (id : BlockId) : (a.advance id).pen = a.pen := by
  unfold advance
  split
  · split
    · rfl
    · rfl
  · rfl

theorem blockBytes_advance (a : Arena) (id : BlockId) :
    (a.advance id).blockBytes = a.blockBytes := by
  unfold advance
  split
  · split
    · rfl
    · rfl
  · rfl

theorem arenaBytes_advance (a : Arena) (id : BlockId) :
    (a.advance id).arenaBytes = a.arenaBytes := by
  unfold advance
  split
  · split
    · rfl
    · rfl
  · rfl

theorem capacity_advance (a : Arena) (id : BlockId) : (a.advance id).capacity = a.capacity := by
  unfold advance
  split
  · split
    · rfl
    · rfl
  · rfl

def sealed (a : Arena) (id : BlockId) (kind : BlockKind) (program : List Operation) : Arena :=
  { a with opened := none }.modify id (·.closed kind program)

/-- Closing is writing the record, trimming, and advancing. -/
theorem close_eq {a : Arena} {id : BlockId} (ho : a.opened = some id) (kind : BlockKind)
    (program : List Operation) :
    a.close kind program =
      ((a.sealed id kind program).trim id (a.pen.cursor - (a.block id).start)).map fun b =>
        (id, (b.advance id).count fun c => { c with compiled := c.compiled + 1 }) := by
  unfold close
  rw [ho]
  show (a.sealed id kind program).trim id (a.pen.cursor - (a.block id).start) >>= _ = _
  cases (a.sealed id kind program).trim id (a.pen.cursor - (a.block id).start) with
  | error f => rfl
  | ok b => rfl

theorem of_close_ok {a a' : Arena} {kind : BlockKind} {program : List Operation} {id : BlockId}
    (hc : a.close kind program = .ok (id, a')) :
    a.opened = some id ∧ ∃ b,
      Trimmed (a.sealed id kind program) id (a.pen.cursor - (a.block id).start) b ∧
        a' = (b.advance id).count fun c => { c with compiled := c.compiled + 1 } := by
  cases ho : a.opened with
  | none =>
      unfold close at hc
      rw [ho] at hc
      cases hc
  | some x =>
      rw [close_eq ho] at hc
      cases ht : (a.sealed x kind program).trim x (a.pen.cursor - (a.block x).start) with
      | error f =>
          rw [ht] at hc
          cases hc
      | ok b =>
          rw [ht] at hc
          cases hc
          exact ⟨rfl, b, trimmed_of_ok ht, rfl⟩

section Sealed

variable {a : Arena} {id : BlockId} (kind : BlockKind) (program : List Operation)

theorem block_sealed (hid : id.number < a.capacity) (b : BlockId) :
    (a.sealed id kind program).block b =
      if b = id then (a.block b).closed kind program else a.block b := by
  rw [sealed, block_modify_of_lt (show id.number < ({ a with opened := none } : Arena).capacity
    from hid)]
  rfl

theorem Arranged.sealed (h : a.Arranged) (ho : a.opened = some id) :
    (a.sealed id kind program).Arranged := by
  have hid : id ∈ a.regions := (h.opened id ho).1 ▸ h.active
  have hblock := block_sealed kind program (h.region_lt_capacity hid)
  refine h.congr ?_ (fun _ hx => ?_) (fun b => ?_) (fun b => ?_) fun b hb hd => ?_
  · rw [frame, frame, Arena.sealed, outline_modify]
    rfl
  · cases hx
  · rw [hblock]
    split
    · rfl
    · rfl
  · rw [hblock]
    split
    · rfl
    · rfl
  · rcases hb with hb | hb
    · have hne : b ≠ id := fun he => h.not_free_of_region hid (he ▸ hb)
      rw [isLive, hblock, if_neg hne]
      exact hd
    · cases hb

theorem Linked.sealed (h : a.Linked) (hid : id.isTrampoline = false) (hd : a.isLive id = false) :
    (a.sealed id kind program).Linked :=
  (h.of_block (b := { a with opened := none }) fun _ => rfl).modify hid hd rfl rfl

end Sealed

theorem Linked.of_trimmed {a a' : Arena} (h : a.Linked) (harr : a.Arranged) {id : BlockId}
    {written : Nat} (hid : id ∈ a.regions) (ht : Trimmed a id written a') : a'.Linked := by
  have hfree : ∀ b, b.isTrampoline = true ∨ a.isLive b = true → b ∉ a.free := by
    rintro b (hT | hl) hb
    · rw [harr.not_trampoline (List.mem_append_right _ hb)] at hT
      cases hT
    · rw [harr.free b hb] at hl
      cases hl
  refine h.congr (fun s => ?_) (ht.field Descriptor.links fun _ _ _ => rfl)
    (ht.field Descriptor.ring fun _ _ _ => rfl) fun d hd => ?_
  · have hT := BlockId.isTrampoline_trampoline s
    obtain ⟨size, hsize, _, heq⟩ := harr.block_of_trimmed hid ht (hfree _ (Or.inl hT))
    have hne : BlockId.trampoline s ≠ id := by
      rintro rfl
      rw [harr.not_trampoline_of_region hid] at hT
      cases hT
    rw [heq, hsize hne, h.stub]
  · obtain ⟨size, _, _, heq⟩ := harr.block_of_trimmed hid ht (hfree d (Or.inr hd))
    rw [heq]
    exact ⟨rfl, rfl⟩

theorem pen_close {a a' : Arena} {kind : BlockKind} {program : List Operation} {id : BlockId}
    (hc : a.close kind program = .ok (id, a')) : a'.pen = a.pen := by
  obtain ⟨_, b, ht, rfl⟩ := of_close_ok hc
  exact (pen_advance b id).trans ht.pen

theorem blockBytes_close {a a' : Arena} {kind : BlockKind} {program : List Operation}
    {id : BlockId} (hc : a.close kind program = .ok (id, a')) : a'.blockBytes = a.blockBytes := by
  obtain ⟨_, b, ht, rfl⟩ := of_close_ok hc
  exact (blockBytes_advance b id).trans ht.blockBytes

theorem arenaBytes_close {a a' : Arena} {kind : BlockKind} {program : List Operation}
    {id : BlockId} (hc : a.close kind program = .ok (id, a')) : a'.arenaBytes = a.arenaBytes := by
  obtain ⟨_, b, ht, rfl⟩ := of_close_ok hc
  exact (arenaBytes_advance b id).trans ht.arenaBytes

theorem capacity_close {a a' : Arena} {kind : BlockKind} {program : List Operation}
    {id : BlockId} (hc : a.close kind program = .ok (id, a')) : a'.capacity = a.capacity := by
  obtain ⟨_, b, ht, rfl⟩ := of_close_ok hc
  refine (capacity_advance b id).trans (ht.capacity.trans ?_)
  exact capacity_modify ..

theorem opened_close {a a' : Arena} {kind : BlockKind} {program : List Operation} {id : BlockId}
    (hc : a.close kind program = .ok (id, a')) : a'.opened = none := by
  obtain ⟨_, b, ht, rfl⟩ := of_close_ok hc
  exact (opened_advance b id).trans ht.opened

section Close

variable {a a' : Arena} (h : a.Arranged) {kind : BlockKind} {program : List Operation}
  {id : BlockId} (hc : a.close kind program = .ok (id, a'))

include h hc

theorem Arranged.close : a'.Arranged := by
  obtain ⟨ho, b, ht, rfl⟩ := of_close_ok hc
  have hid : id ∈ a.regions := (h.opened id ho).1 ▸ h.active
  have hb := (h.sealed kind program ho).of_trimmed rfl hid ht
  have hmem : id ∈ b.regions := ht.mem_regions hid
  exact (hb.advance (ht.opened.trans rfl) hmem).count _

/-- What is compiled, apart from the block closed, is not touched by closing;
and of the block closed everything but the length of its region is known. -/
theorem block_close {b : BlockId} (hb : b ∉ a.free) :
    ∃ size, (b ≠ id → size = (a.block b).size) ∧
      (b = id → a.pen.cursor - (a.block id).start ≤ size) ∧
      a'.block b =
        { (if b = id then (a.block b).closed kind program else a.block b) with size } := by
  obtain ⟨ho, c, ht, rfl⟩ := of_close_ok hc
  have hid : id ∈ a.regions := (h.opened id ho).1 ▸ h.active
  have hblock := block_sealed kind program (h.region_lt_capacity hid)
  obtain ⟨size, hother, hself, heq⟩ := (h.sealed kind program ho).block_of_trimmed hid ht hb
  refine ⟨size, fun hne => ?_, hself, ?_⟩
  · rw [hother hne, hblock, if_neg hne]
  · rw [block_count, block_advance, heq, hblock]

/-- Of every record closing changes only what it writes and where the region
lies. -/
theorem field_close {α : Type} (g : Descriptor → α)
    (hg : ∀ d start size, g { d with start, size } = g d) (b : BlockId) :
    g (a'.block b) = if b = id then g ((a.block b).closed kind program) else g (a.block b) := by
  obtain ⟨ho, c, ht, rfl⟩ := of_close_ok hc
  have hid : id ∈ a.regions := (h.opened id ho).1 ▸ h.active
  rw [block_count, block_advance, ht.field g hg, block_sealed _ _ (h.region_lt_capacity hid)]
  split
  · rfl
  · rfl

theorem Linked.close (hl : a.Linked) : a'.Linked := by
  obtain ⟨ho, b, ht, rfl⟩ := of_close_ok hc
  obtain ⟨hact, hd, _⟩ := h.opened id ho
  have hid : id ∈ a.regions := hact ▸ h.active
  have hsealed := hl.sealed kind program (h.not_trampoline_of_region hid) hd
  have hb := hsealed.of_trimmed (h.sealed kind program ho) hid ht
  exact hb.of_block fun d => block_advance b id d

theorem Homed.close (hl : a.Linked) (hh : a.Homed) : a'.Homed := by
  obtain ⟨ho, b, ht, rfl⟩ := of_close_ok hc
  obtain ⟨hact, hd, _⟩ := h.opened id ho
  have hblock := block_sealed kind program (h.region_lt_capacity (hact ▸ h.active))
  refine hh.of_links fun d => ?_
  rw [block_count, block_advance, ht.field Descriptor.links fun _ _ _ => rfl, hblock]
  split
  · next hdi => rw [hdi, (hl.clean id hd).1]; rfl
  · rfl

end Close

end Arena

end Recompiler
