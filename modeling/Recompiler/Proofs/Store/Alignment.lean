import Recompiler.Proofs.Store.Compile

/-!
# Where regions are cut

Regions are cut at multiples of the code alignment, and only the end of the last
one may lie elsewhere: a block closed there may have spilled past the block
region, though not past the arena.  Blocks are compiled in regions that were
active, so each of them starts where there was scratch space.
-/

namespace Recompiler

namespace Arena

theorem span_append (a : Arena) (xs ys : List BlockId) :
    a.span (xs ++ ys) = a.span xs + a.span ys := by
  simp [span]

theorem mem_dropLast_around {before after : List BlockId} {id x : BlockId} :
    x ∈ (before ++ id :: after).dropLast ↔
      x ∈ before ∨ after ≠ [] ∧ (x = id ∨ x ∈ after.dropLast) := by
  cases after with
  | nil => simp
  | cons y ys => simp

def Multiples (a : Arena) (ids : List BlockId) : Prop :=
  ∀ id ∈ ids, (a.block id).size % codeAlign = 0

theorem Multiples.congr {a b : Arena} {ids : List BlockId} (h : a.Multiples ids)
    (hs : ∀ id ∈ ids, (b.block id).size = (a.block id).size) : b.Multiples ids :=
  fun id hid => hs id hid ▸ h id hid

theorem Multiples.span {a : Arena} {ids : List BlockId} (h : a.Multiples ids) :
    a.span ids % codeAlign = 0 := by
  induction ids with
  | nil => rfl
  | cons id rest ih =>
      have hid := h id List.mem_cons_self
      have hrest := ih fun x hx => h x (List.mem_cons_of_mem _ hx)
      rw [span_cons, Nat.add_mod, hid, hrest]
      rfl

/-- Every region but the last starts at a multiple of the alignment from where
the first does, and so does the last. -/
theorem Tiles.start_mod {a : Arena} {ids : List BlockId} {lo hi : Nat} (ht : a.Tiles lo ids hi)
    (hlo : lo % codeAlign = 0) (hm : a.Multiples ids.dropLast) {id : BlockId} (hid : id ∈ ids) :
    (a.block id).start % codeAlign = 0 := by
  obtain ⟨before, after, rfl⟩ := List.append_of_mem hid
  obtain ⟨mid, hbefore, hstart, _⟩ := tiles_append.mp ht
  have hspan : Multiples a before := fun x hx => hm x (mem_dropLast_around.mpr (Or.inl hx))
  rw [hstart, hbefore.eq_add_span, Nat.add_mod, hlo, hspan.span]
  rfl

namespace Arranged

variable {a : Arena} (harr : a.Arranged) {id rest : BlockId} {free : List BlockId}
  (hid : id ∈ a.regions) (hfree : a.free = rest :: free)

include harr hid hfree

theorem size_carve (size : Nat) :
    ∀ x ∈ (a.around id).1 ++ (a.around id).2,
      ((a.carve id rest free size).block x).size = (a.block x).size := by
  intro x hx
  have hrest : rest ∈ a.free := hfree ▸ List.mem_cons_self
  have hxid : x ≠ id := fun he => harr.not_mem_around hid (he ▸ hx)
  have hxr : x ≠ rest := fun he =>
    harr.not_free_of_region (mem_regions_of_around hid hx) (he ▸ hrest)
  rw [(harr.block_carve hid hfree size).2, if_neg hxid, if_neg hxr]

theorem span_carve {size : Nat} (hsize : size < (a.block id).size) :
    (a.carve id rest free size).span (a.carve id rest free size).regions = a.span a.regions := by
  obtain ⟨hne, hblock⟩ := harr.block_carve hid hfree size
  have hother := harr.size_carve hid hfree size
  have hself : ((a.carve id rest free size).block id).size = size := by
    rw [hblock, if_pos rfl]
  have htail : ((a.carve id rest free size).block rest).size = (a.block id).size - size := by
    rw [hblock, if_neg hne, if_pos rfl]
  rw [show (a.carve id rest free size).regions = (a.around id).1 ++ id :: rest :: (a.around id).2
    from rfl]
  conv_rhs => rw [regions_eq_around hid]
  rw [span_append, span_append, span_cons, span_cons, span_cons,
    span_congr fun x hx => hother x (List.mem_append_left _ hx),
    span_congr fun x hx => hother x (List.mem_append_right _ hx), hself, htail]
  omega

end Arranged

/-- An arena whose regions are cut where they should be. -/
structure Aligned (a : Arena) : Prop where
  total : a.arenaBytes % codeAlign = 0
  sizes : a.Multiples a.regions.dropLast
  /-- What spills does not pass the end of the arena. -/
  ends : stubBytes + a.span a.regions ≤ a.length
  cursor : a.pen.cursor ≤ a.length
  /-- Nothing is compiled where there was no scratch space. -/
  early : ∀ id, a.isLive id = true → (a.block id).start ≤ a.lastStart

namespace Aligned

variable {a : Arena} (h : a.Aligned)

include h

/-- Where regions are cut is a matter of their places and of what is
compiled. -/
theorem congr {b : Arena} (hab : a.frame = b.frame)
    (hstart : ∀ id, (b.block id).start = (a.block id).start)
    (hsize : ∀ id, (b.block id).size = (a.block id).size)
    (hlive : ∀ id, b.isLive id = true → a.isLive id = true ∨ (a.block id).start ≤ a.lastStart)
    (hcursor : b.pen.cursor ≤ a.length) : b.Aligned := by
  have hr := regions_of_frame hab
  have hbytes := arenaBytes_of_frame hab
  have hblock := blockBytes_of_frame hab
  have hlength : b.length = a.length := by rw [length, length, hbytes, hblock]
  refine ⟨hbytes ▸ h.total, ?_, ?_, hlength ▸ hcursor, fun id hid => ?_⟩
  · rw [← hr]
    exact h.sizes.congr fun id _ => hsize id
  · rw [← hr, span_congr fun id _ => hsize id, hlength]
    exact h.ends
  · rw [hstart, lastStart, ← hbytes, ← hblock]
    exact (hlive id hid).elim (h.early id) fun hs => hs

theorem of_alike {b : Arena} (hab : a.Alike b) : b.Aligned :=
  h.congr (frame_of_outline hab.outline) (fun id => (hab.start id).symm)
    (fun id => (hab.size id).symm) (fun id hid => Or.inl ((hab.isLive id).trans hid))
    (pen_of_outline hab.outline ▸ h.cursor)

theorem vacate (id : BlockId) : (a.vacate id).Aligned := by
  have hcore := core_vacate a id
  refine h.congr (frame_of_outline (outline_vacate a id).symm) (fun b => ?_) (fun b => ?_)
    (fun b hb => ?_) (pen_of_outline (outline_vacate a id) ▸ h.cursor)
  · exact start_vacate a id b
  · rw [← Descriptor.size_core, hcore]
    split
    · rfl
    · rfl
  · rw [isLive_vacate] at hb
    split at hb
    · cases hb
    · exact Or.inl hb

theorem count (f : Counters → Counters) : (a.count f).Aligned :=
  h.of_alike (.count a f)

theorem setPen {pen : Pen} (hp : pen.cursor ≤ a.length) : ({ a with pen } : Arena).Aligned :=
  h.congr rfl (fun _ => rfl) (fun _ => rfl) (fun _ hb => Or.inl hb) hp

/-! ## Closing a block -/

theorem sealed (harr : a.Arranged) {id : BlockId} (ho : a.opened = some id) (kind : BlockKind)
    (program : List Operation) : (a.sealed id kind program).Aligned := by
  obtain ⟨hact, _, _⟩ := harr.opened id ho
  have hblock := block_sealed kind program (harr.region_lt_capacity (hact ▸ harr.active))
  have hfield : ∀ {α : Type} (g : Descriptor → α) (_ : ∀ d, g (d.closed kind program) = g d) b,
      g ((a.sealed id kind program).block b) = g (a.block b) := by
    intro α g hg b
    rw [hblock]
    split
    · exact hg _
    · rfl
  refine h.congr ?_ (hfield _ fun _ => rfl) (hfield _ fun _ => rfl) (fun b hb => ?_) h.cursor
  · rw [frame, frame, Arena.sealed, outline_modify]
    rfl
  · by_cases he : b = id
    · exact Or.inr (he ▸ hact ▸ harr.early)
    · rw [isLive, hblock, if_neg he] at hb
      exact Or.inl hb

/-- The last region may grow up to the end of the arena. -/
theorem resize (harr : a.Arranged) {id : BlockId} (hid : id ∈ a.regions)
    (hlast : (a.around id).2 = []) {size : Nat} (hsize : (a.block id).start + size ≤ a.length) :
    (a.resize id size).Aligned := by
  have hblock := block_resize (harr.region_lt_capacity hid) size
  have hsplit := regions_eq_around hid
  have hnot := harr.not_mem_around hid
  rw [hlast] at hsplit
  rw [hlast, List.append_nil] at hnot
  have hother : ∀ x ∈ (a.around id).1, ((a.resize id size).block x).size = (a.block x).size := by
    intro x hx
    have hne : x ≠ id := fun he => hnot (he ▸ hx)
    rw [hblock, if_neg hne]
  obtain ⟨hi, htiles, _⟩ := harr.tiles
  rw [hsplit] at htiles
  obtain ⟨mid, hbefore, hstart, _⟩ := tiles_append.mp htiles
  refine ⟨h.total, ?_, ?_, h.cursor, fun b hb => ?_⟩
  · show Multiples _ a.regions.dropLast
    rw [hsplit]
    refine Multiples.congr (a := a) (fun x hx => h.sizes x (hsplit ▸ hx)) fun x hx => ?_
    exact hother x ((mem_dropLast_around.mp hx).resolve_right fun hr => hr.1 rfl)
  · show stubBytes + (a.resize id size).span a.regions ≤ a.length
    have hmid := hbefore.eq_add_span
    rw [hsplit, span_append, span_congr hother, span_cons, span_nil, hblock, if_pos rfl]
    show stubBytes + (a.span _ + (size + 0)) ≤ _
    omega
  · rw [isLive_resize] at hb
    rw [start_resize]
    exact h.early b hb

theorem carve (harr : a.Arranged) {id rest : BlockId} {free : List BlockId} (hid : id ∈ a.regions)
    (hfree : a.free = rest :: free) {size : Nat} (hmod : size % codeAlign = 0)
    (hsize : size < (a.block id).size) : (a.carve id rest free size).Aligned := by
  obtain ⟨hne, hblock⟩ := harr.block_carve hid hfree size
  have hother := harr.size_carve hid hfree size
  have htail : ((a.carve id rest free size).block rest).size = (a.block id).size - size := by
    rw [hblock, if_neg hne, if_pos rfl]
  have hold := h.sizes
  rw [regions_eq_around hid] at hold
  refine ⟨h.total, ?_, ?_, h.cursor, fun b hb => ?_⟩
  · show Multiples _ ((a.around id).1 ++ id :: rest :: (a.around id).2).dropLast
    intro x hx
    rcases mem_dropLast_around.mp hx with hx | ⟨_, rfl | hx⟩
    · rw [hother x (List.mem_append_left _ hx)]
      exact hold x (mem_dropLast_around.mpr (Or.inl hx))
    · rw [hblock, if_pos rfl]
      exact hmod
    · rcases (@mem_dropLast_around [] _ _ _).mp hx with hx | ⟨hlast, rfl | hx⟩
      · cases hx
      · have := hold id (mem_dropLast_around.mpr (Or.inr ⟨hlast, Or.inl rfl⟩))
        rw [htail]
        simp only [codeAlign] at this hmod ⊢
        omega
      · rw [hother x (List.mem_append_right _ ((List.dropLast_sublist _).mem hx))]
        exact hold x (mem_dropLast_around.mpr (Or.inr ⟨hlast, Or.inr hx⟩))
  · rw [harr.span_carve hid hfree hsize]
    exact h.ends
  · show ((a.carve id rest free size).block b).start ≤ a.lastStart
    rw [isLive, hblock] at hb
    rw [hblock]
    split
    · next he =>
        rw [if_pos he] at hb
        exact h.early b hb
    · next he =>
        rw [if_neg he] at hb
        split
        · next hr =>
            rw [if_pos hr] at hb
            have hdead := harr.free rest (hfree ▸ List.mem_cons_self)
            rw [← hr] at hdead
            exact absurd (hdead.symm.trans hb) Bool.false_ne_true
        · next hr =>
            rw [if_neg hr] at hb
            exact h.early b hb

theorem of_trimmed (harr : a.Arranged) {a' : Arena} {id : BlockId} {written : Nat}
    (hid : id ∈ a.regions) (ht : Trimmed a id written a')
    (hend : (a.block id).size < written → (a.block id).start + written ≤ a.length) :
    a'.Aligned := by
  cases ht with
  | stays _ => exact h
  | grows hgrow hlast _ => exact h.resize harr hid hlast (hend hgrow)
  | splits rest free hfree hlt =>
      exact h.carve harr hid hfree (by simp [trimmed, codeAlign]) hlt

theorem advance (id : BlockId) : (a.advance id).Aligned := by
  have hactive : ∀ active, ({ a with active } : Arena).Aligned := fun active =>
    ⟨h.total, h.sizes, h.ends, h.cursor, h.early⟩
  unfold Arena.advance
  split
  · split
    · exact hactive _
    · exact (hactive _).count _
  · exact (hactive _).count _

/-- **Closing cuts regions at multiples of the alignment.** -/
theorem close (harr : a.Arranged) {a' : Arena} {kind : BlockKind} {program : List Operation}
    {id : BlockId} (hc : a.close kind program = .ok (id, a')) : a'.Aligned := by
  obtain ⟨ho, b, ht, rfl⟩ := of_close_ok hc
  have hid : id ∈ a.regions := (harr.opened id ho).1 ▸ harr.active
  have hstart : ((a.sealed id kind program).block id).start = (a.block id).start := by
    rw [block_sealed kind program (harr.region_lt_capacity hid), if_pos rfl]
    rfl
  have hcursor := h.cursor
  refine (((h.sealed harr ho kind program).of_trimmed (harr.sealed kind program ho) hid ht
    fun hgrow => ?_).advance id).count _
  show _ ≤ a.length
  rw [hstart]
  omega

end Aligned

end Arena

/-! ## Opening a region -/

namespace CodeStore

open Arena

namespace Reopened

variable {a a' : Arena} {id : BlockId} {taken rest : List BlockId}
  (h : Reopened a a' id taken rest)

include h

theorem kept (harr : a.Arranged) (hid : id = a.active) :
    ∀ x ∈ (a.around id).1 ++ rest, x ∈ a.regions ∧ x ≠ id ∧ x ∉ taken := by
  intro x hx
  have hmem : id ∈ a.regions := hid ▸ harr.active
  have hnot := harr.not_mem_around hmem
  have hnodup := List.Nodup.of_append_left harr.nodup
  rw [regions_eq_around hmem, h.after] at hnodup ⊢
  rw [h.after] at hnot
  refine ⟨?_, ?_, fun hxt => ?_⟩
  · simp only [List.mem_append, List.mem_cons] at hx ⊢
    tauto
  · rintro rfl
    simp only [List.mem_append] at hx hnot
    tauto
  · rw [List.nodup_append, List.nodup_cons, List.nodup_append] at hnodup
    obtain ⟨_, ⟨_, _, _, hdisj⟩, hdisj'⟩ := hnodup
    rcases List.mem_append.mp hx with hx | hx
    · exact hdisj' x hx x (List.mem_cons_of_mem _ (List.mem_append_left _ hxt)) rfl
    · exact hdisj x hxt x hx rfl

theorem size_of_kept (harr : a.Arranged) (hid : id = a.active) :
    ∀ x ∈ (a.around id).1 ++ rest, (a'.block x).size = (a.block x).size := by
  intro x hx
  obtain ⟨_, hxid, hxt⟩ := h.kept harr hid x hx
  rw [h.size_eq hxt, if_neg hxid, Nat.add_zero]

theorem size_self (harr : a.Arranged) (hid : id = a.active) :
    (a'.block id).size = (a.block id).size + a.span taken := by
  have hnot := harr.not_mem_around (hid ▸ harr.active)
  rw [h.after] at hnot
  have hidt : id ∉ taken := fun hm =>
    hnot (List.mem_append_right _ (List.mem_append_left _ hm))
  rw [h.size_eq hidt, if_pos rfl]

theorem span_eq (harr : a.Arranged) (hid : id = a.active) :
    a'.span a'.regions = a.span a.regions := by
  have hother := h.size_of_kept harr hid
  rw [h.regions]
  conv_rhs => rw [regions_eq_around (hid ▸ harr.active : id ∈ a.regions), h.after]
  rw [span_append, span_append, span_cons, span_cons, span_append,
    span_congr fun x hx => hother x (List.mem_append_left _ hx),
    span_congr fun x hx => hother x (List.mem_append_right _ hx), h.size_self harr hid]
  omega

/-- **Opening joins regions whole.** -/
theorem aligned (harr : a.Arranged) (hid : id = a.active) (ha : a.Aligned) : a'.Aligned := by
  have hother := h.size_of_kept harr hid
  have hlength : a'.length = a.length := by rw [length, length, h.arenaBytes, h.blockBytes]
  have hlast : a'.lastStart = a.lastStart := by
    rw [lastStart, lastStart, h.arenaBytes, h.blockBytes]
  have hold := ha.sizes
  rw [regions_eq_around (hid ▸ harr.active : id ∈ a.regions), h.after] at hold
  refine ⟨h.arenaBytes ▸ ha.total, ?_, ?_, ?_, fun b hb => ?_⟩
  · rw [h.regions]
    intro x hx
    rcases mem_dropLast_around.mp hx with hx | ⟨hne, hx⟩
    · rw [hother x (List.mem_append_left _ hx)]
      exact hold x (mem_dropLast_around.mpr (Or.inl hx))
    · have hne' : taken ++ rest ≠ [] := by simp [hne]
      have hdrop : (taken ++ rest).dropLast = taken ++ rest.dropLast :=
        List.dropLast_append_of_ne_nil hne
      rcases hx with rfl | hx
      · have hx := hold x (mem_dropLast_around.mpr (Or.inr ⟨hne', Or.inl rfl⟩))
        have ht : a.Multiples taken := fun y hy => hold y (mem_dropLast_around.mpr
          (Or.inr ⟨hne', Or.inr (hdrop ▸ List.mem_append_left _ hy)⟩))
        rw [h.size_self harr hid, Nat.add_mod, hx, ht.span]
        rfl
      · rw [hother x (List.mem_append_right _ ((List.dropLast_sublist _).mem hx))]
        exact hold x (mem_dropLast_around.mpr
          (Or.inr ⟨hne', Or.inr (hdrop ▸ List.mem_append_right _ hx)⟩))
  · rw [hlength, h.span_eq harr hid]
    exact ha.ends
  · have hearly := harr.early
    rw [hlength, h.pen]
    show (a.block id).start ≤ _
    rw [hid, length]
    rw [lastStart] at hearly
    omega
  · have hcore := congrArg Descriptor.start (h.core_of_isLive hb)
    rw [Descriptor.start_core, Descriptor.start_core] at hcore
    rw [hcore, hlast]
    refine ha.early b ?_
    rw [h.isLive_eq] at hb
    split at hb
    · cases hb
    · exact hb

end Reopened

/-! ## The arena over any history -/

structure OfSizes (settings : Settings) (a : Arena) : Prop where
  arenaBytes : a.arenaBytes = settings.arenaBytes
  blockBytes : a.blockBytes = settings.blockBytes
  capacity : a.capacity = settings.descriptors

theorem OfSizes.of_frame {settings : Settings} {a b : Arena} (h : OfSizes settings a)
    (hab : a.frame = b.frame) : OfSizes settings b :=
  ⟨arenaBytes_of_frame hab ▸ h.arenaBytes, blockBytes_of_frame hab ▸ h.blockBytes,
    capacity_of_frame hab ▸ h.capacity⟩

theorem OfSizes.perform {settings : Settings} {s s' : CodeStore} {action : Action}
    (harr : s.arena.Arranged) (h : OfSizes settings s.arena) (hp : s.perform action = .ok s') :
    OfSizes settings s'.arena := by
  have hp := of_perform_ok hp
  cases action with
  | openRegion =>
      obtain ⟨id, ho⟩ := hp
      obtain ⟨_, _, _, _, hre⟩ := reopened_of_ok harr ho
      exact ⟨hre.arenaBytes.trans h.arenaBytes, hre.blockBytes.trans h.blockBytes,
        hre.capacity.trans h.capacity⟩
  | emit _ | fill _ _ | emitProgram _ =>
      obtain ⟨pen, rfl⟩ := hp
      exact h.of_frame rfl
  | close _ _ =>
      obtain ⟨id, a, hc, rfl⟩ := hp
      exact ⟨(arenaBytes_close hc).trans h.arenaBytes, (blockBytes_close hc).trans h.blockBytes,
        (capacity_close hc).trans h.capacity⟩
  | discard id =>
      rcases of_discard_ok hp with ⟨_, rfl⟩ | ⟨_, s₁, _, rfl⟩
      · exact h
      · exact h.of_frame (frame_of_outline (outline_vacate s.arena id).symm)
  | link _ _ _ =>
      obtain ⟨a, hl, rfl⟩ := hp
      exact h.of_frame (frame_of_outline (Alike.link hl).outline)

theorem cursor_le_of_checked {a a' : Arena} {pen : Pen} (h : a.checked pen = .ok a') :
    a'.pen.cursor ≤ a'.length := by
  unfold checked at h
  split at h
  · cases h
  · next hle =>
      cases h
      exact Nat.le_of_not_lt hle

theorem cursor_le_of_fill {a a' : Arena} {byte : UInt8} {n : Nat} (h : a.fill byte n = .ok a') :
    a'.pen.cursor ≤ a'.length := by
  unfold fill at h
  split at h
  · cases h
  · next hle =>
      cases h
      show a.pen.cursor + (List.replicate n (CodeByte.literal byte)).length ≤ a.length
      rw [List.length_replicate]
      exact Nat.le_of_not_lt hle

/-- **Every action keeps regions cut at multiples of the alignment.** -/
theorem aligned_perform {s s' : CodeStore} {action : Action} (harr : s.arena.Arranged)
    (h : s.arena.Aligned) (hp : s.perform action = .ok s') : s'.arena.Aligned := by
  cases action with
  | openRegion =>
      obtain ⟨id, ho⟩ := of_perform_ok hp
      obtain ⟨_, hact, _, _, hre⟩ := reopened_of_ok harr ho
      exact hre.aligned harr hact h
  | emit _ | emitProgram _ =>
      obtain ⟨a, he, hp⟩ := bind_eq_ok_iff.mp hp
      cases hp
      have hcursor := cursor_le_of_checked he
      rw [of_checked_ok he] at hcursor ⊢
      exact h.setPen hcursor
  | fill byte n =>
      obtain ⟨a, he, hp⟩ := bind_eq_ok_iff.mp hp
      cases hp
      have hcursor := cursor_le_of_fill he
      rw [of_fill_ok he] at hcursor ⊢
      exact h.setPen hcursor
  | close _ _ =>
      obtain ⟨id, a, hc, rfl⟩ := of_perform_ok hp
      exact h.close harr hc
  | discard id =>
      rcases of_discard_ok hp with ⟨_, rfl⟩ | ⟨_, s₁, _, rfl⟩
      · exact h
      · exact h.vacate id
  | link _ _ _ =>
      obtain ⟨a, hl, rfl⟩ := of_perform_ok hp
      exact h.of_alike (Alike.link hl)

theorem ofSizes_new (settings : Settings) : OfSizes settings (CodeStore.new settings).arena :=
  ⟨rfl, rfl, capacity_new settings⟩

theorem Reached.foldlM {settings : Settings} {as : List Action} {s s' : CodeStore}
    (h : Reached settings (fun _ _ => True) s) (hp : as.foldlM CodeStore.perform s = .ok s') :
    Reached settings (fun _ _ => True) s' := by
  induction as generalizing s with
  | nil =>
      cases hp
      exact h
  | cons a rest ih =>
      obtain ⟨s₁, h₁, hp⟩ := bind_eq_ok_iff.mp hp
      exact ih (h.perform trivial h₁) hp

section New

variable {settings : Settings} (hs : settings.Valid)

include hs

theorem aligned_new : (CodeStore.new settings).arena.Aligned := by
  have hsize : ((Arena.new settings).block firstRegion).size = settings.arenaBytes := by
    rw [block_new hs]
    rfl
  have hlength : (Arena.new settings).length =
      stubBytes + settings.arenaBytes + settings.blockBytes := rfl
  refine ⟨hs.aligned, fun _ hid => absurd hid List.not_mem_nil, ?_, ?_, fun id hid => ?_⟩
  · show stubBytes + (Arena.new settings).span [firstRegion] ≤ (Arena.new settings).length
    rw [span_cons, span_nil, hsize, hlength]
    omega
  · show stubBytes ≤ (Arena.new settings).length
    rw [hlength]
    omega
  · rw [show (CodeStore.new settings).arena.isLive id = false from
      (block_new_clean hs id).2.2.1] at hid
    cases hid

/-- Every store there ever is has its regions cut at multiples of the
alignment. -/
theorem Reached.aligned {allowed : CodeStore → Action → Prop} {s : CodeStore}
    (h : Reached settings allowed s) : s.arena.Aligned ∧ OfSizes settings s.arena := by
  induction h with
  | new => exact ⟨aligned_new hs, ofSizes_new settings⟩
  | perform h _ hp ih =>
      have harr := (h.sound hs).arranged
      exact ⟨aligned_perform harr ih.1 hp, ih.2.perform harr hp⟩

end New

/-- How an arena of some settings is divided. -/
structure Divided (settings : Settings) (a : Arena) : Prop where
  first : a.regions.head? = some firstRegion
  /-- The regions follow each other without gaps, and what spills past the last
  is no more than the scratch space of a block. -/
  tiles : ∃ hi, a.Tiles stubBytes a.regions hi ∧ stubBytes + settings.arenaBytes ≤ hi ∧
    hi ≤ stubBytes + settings.arenaBytes + settings.blockBytes
  region : ∀ id ∈ a.regions, 0 < (a.block id).size ∧ (a.block id).start % codeAlign = 0
  size : ∀ id ∈ a.regions.dropLast, (a.block id).size % codeAlign = 0
  /-- A descriptor is one region's, or free. -/
  pooled : ∀ id, a.regions.count id + a.free.count id =
    if BlockId.lowest.number ≤ id.number ∧ id.number < settings.descriptors then 1 else 0
  live : ∀ id, a.isLive id = true → id ∈ a.regions ∧
    (a.block id).start ≤ stubBytes + settings.arenaBytes - settings.blockBytes
  active : a.active ∈ a.regions ∧
    (a.block a.active).start ≤ stubBytes + settings.arenaBytes - settings.blockBytes

/-- **The arena stays divided as it should be,** whatever regions were opened,
filled, closed, torn down and linked. -/
theorem divided_of_reached {settings : Settings} (hs : settings.Valid)
    {allowed : CodeStore → Action → Prop} {s : CodeStore} (h : Reached settings allowed s) :
    Divided settings s.arena := by
  obtain ⟨harr, hl⟩ := h.sound hs
  obtain ⟨ha, hsizes⟩ := h.aligned hs
  obtain ⟨hi, htiles, hreach⟩ := harr.tiles
  have hlast : s.arena.lastStart = stubBytes + settings.arenaBytes - settings.blockBytes := by
    rw [lastStart, hsizes.arenaBytes, hsizes.blockBytes]
  have hends := ha.ends
  rw [length, hsizes.arenaBytes, hsizes.blockBytes] at hends
  rw [hsizes.arenaBytes] at hreach
  refine ⟨harr.first, ⟨hi, htiles, hreach, htiles.eq_add_span ▸ hends⟩, fun id hid => ?_,
    ha.sizes, fun id => ?_, fun id hid => ?_, harr.active, hlast ▸ harr.early⟩
  · exact ⟨(htiles.bounds hid).2.1, htiles.start_mod rfl ha.sizes hid⟩
  · rw [← List.count_append, ← hsizes.capacity]
    split
    · next hp => exact List.count_eq_one_of_mem harr.nodup ((harr.pooled id).mpr hp)
    · next hp => exact List.count_eq_zero.mpr fun hm => hp ((harr.pooled id).mp hm)
  · exact ⟨harr.mem_regions_of_isLive hl hid, hlast ▸ ha.early id hid⟩

/-- The last block spilled, and its region was divided again. -/
theorem divided_of_spilled :
    Settings.small.Valid ∧ ∃ s, Reached .small (fun _ _ => True) s ∧
      s.arena.regions = [⟨2⟩, ⟨3⟩, ⟨4⟩] ∧ (s.arena.block ⟨4⟩).size = 684 ∧
      Divided .small s.arena := by
  obtain ⟨s, hs, hregions⟩ := exists_of_succeeds
    (p := fun s => s.arena.regions = [⟨2⟩, ⟨3⟩, ⟨4⟩] ∧ (s.arena.block ⟨4⟩).size = 684)
    (x := [Action.openRegion, .fill 0x90 512, .close .normal [], .openRegion, .fill 0x90 700,
      .close .single [], .openRegion, .fill 0x90 512, .close .dual [], .openRegion, .fill 0x90 16,
      .close .normal []].foldlM CodeStore.perform (.new .small)) (by decide +kernel)
  obtain ⟨hr, hsize⟩ := of_decide_eq_true hregions
  have h := Reached.foldlM .new hs
  exact ⟨Settings.valid_small, s, h, hr, hsize, divided_of_reached Settings.valid_small h⟩

end CodeStore

end Recompiler
