import Recompiler.CodeStore
import Recompiler.Proofs.Arena.Close

/-!
# Opening a region

Opening tears down the code in the active region and in the regions after it,
one by one, and joins them until there is scratch space for a block.  The
regions joined give their descriptors back; no other record changes but for
links.
-/

namespace Recompiler

namespace Arena

theorem block_recycle {a : Arena} {id : BlockId} (hid : id.number < a.capacity) (b : BlockId) :
    (a.recycle id).block b = if b = id then (a.block b).recycled else a.block b := by
  show (a.modify id _).block b = _
  rw [block_modify_of_lt hid]
  rfl

theorem outline_recycle (a : Arena) (id : BlockId) :
    (a.recycle id).outline = { a.outline with free := id :: a.free } := by
  simp [outline, recycle, modify, capacity]

theorem Linked.recycle {a : Arena} (h : a.Linked) {id : BlockId} (hid : id.isTrampoline = false)
    (hd : a.isLive id = false) : (a.recycle id).Linked :=
  (h.modify hid hd (f := Descriptor.recycled) rfl rfl).of_block fun _ => rfl

end Arena

namespace CodeStore

/-! ## Tearing down -/

theorem arena_unindex {s s' : CodeStore} {id : BlockId} (h : s.unindex id = .ok s') :
    s'.arena = s.arena := by
  unfold unindex at h
  split at h
  · cases h; rfl
  · split at h
    · cases h
    · cases h; rfl

theorem of_discard_ok {s s' : CodeStore} {id : BlockId} (h : s.discard id = .ok s') :
    (id.isTrampoline = true ∧ s' = s) ∨
      (id.isTrampoline = false ∧ ∃ s₁, s.unindex id = .ok s₁ ∧
        s' = { s₁ with arena := s.arena.vacate id }) := by
  unfold discard at h
  split at h
  · next ht => cases h; exact Or.inl ⟨ht, rfl⟩
  · next ht =>
      obtain ⟨s₁, hu, h⟩ := bind_eq_ok_iff.mp h
      cases h
      exact Or.inr ⟨eq_false_of_ne_true ht, s₁, hu, by rw [arena_unindex hu]⟩

theorem arena_discard {s s' : CodeStore} {id : BlockId} (hid : id.isTrampoline = false)
    (h : s.discard id = .ok s') : s'.arena = s.arena.vacate id := by
  rcases of_discard_ok h with ⟨ht, _⟩ | ⟨_, s₁, _, rfl⟩
  · rw [hid] at ht
    cases ht
  · rfl

theorem of_evict_ok {s s' : CodeStore} {id : BlockId} (h : s.evict id = .ok s') :
    (s.arena.isLive id = false ∧ s' = s) ∨
      (s.arena.isLive id = true ∧ ∃ s₁, s.discard id = .ok s₁ ∧
        s' = { s₁ with
          arena := s₁.arena.count fun c => { c with evictions := c.evictions + 1 } }) := by
  unfold evict at h
  split at h
  · next hl =>
      obtain ⟨s₁, hd, h⟩ := bind_eq_ok_iff.mp h
      cases h
      exact Or.inr ⟨hl, s₁, hd, rfl⟩
  · next hl =>
      cases h
      exact Or.inl ⟨eq_false_of_ne_true hl, rfl⟩

theorem core_evict {s s' : CodeStore} {id : BlockId} (hid : id.isTrampoline = false)
    (h : s.evict id = .ok s') (b : BlockId) :
    (s'.arena.block b).core =
      if b = id then (s.arena.block b).cleared else (s.arena.block b).core := by
  rcases of_evict_ok h with ⟨hl, rfl⟩ | ⟨hl, s₁, hd, rfl⟩
  · split
    · next hb =>
        subst hb
        rw [Descriptor.cleared, if_neg]
        rw [show (s'.arena.block b).isLive = s'.arena.isLive b from rfl, hl]
        exact Bool.false_ne_true
    · rfl
  · rw [Arena.block_count, arena_discard hid hd, Arena.core_vacate]
    split
    · next hb =>
        subst hb
        rw [Descriptor.cleared, if_pos (show (s.arena.block b).isLive = true from hl)]
    · rfl

theorem outline_evict {s s' : CodeStore} {id : BlockId} (hid : id.isTrampoline = false)
    (h : s.evict id = .ok s') : s'.arena.outline = s.arena.outline := by
  rcases of_evict_ok h with ⟨_, rfl⟩ | ⟨_, s₁, hd, rfl⟩
  · rfl
  · rw [Arena.outline_count, arena_discard hid hd, Arena.outline_vacate]

theorem isLive_evict {s s' : CodeStore} {id : BlockId} (hid : id.isTrampoline = false)
    (h : s.evict id = .ok s') (b : BlockId) :
    s'.arena.isLive b = if b = id then false else s.arena.isLive b := by
  rw [Arena.isLive, ← Descriptor.isLive_core, core_evict hid h]
  split
  · exact Descriptor.isLive_cleared _
  · rfl

theorem capacity_evict {s s' : CodeStore} {id : BlockId} (hid : id.isTrampoline = false)
    (h : s.evict id = .ok s') : s'.arena.capacity = s.arena.capacity :=
  Arena.capacity_of_frame (Arena.frame_of_outline (outline_evict hid h))

/-- A block that is evicted and given back is as good as new. -/
theorem core_recycle_evict {s s' : CodeStore} {id : BlockId} (hid : id.isTrampoline = false)
    (hlt : id.number < s.arena.capacity) (h : s.evict id = .ok s') (b : BlockId) :
    ((s'.arena.recycle id).block b).core =
      if b = id then (s.arena.block b).recycled else (s.arena.block b).core := by
  rw [Arena.block_recycle (capacity_evict hid h ▸ hlt)]
  split
  · next hb =>
      rw [← Descriptor.recycled_core, core_evict hid h, if_pos hb, Descriptor.recycled,
        Descriptor.generation_cleared]
      rfl
  · next hb => rw [core_evict hid h, if_neg hb]

/-! ## Joining regions -/

/-- What is kept by evicting blocks and giving descriptors back is kept by
joining regions. -/
theorem absorb_induction {P : CodeStore → Prop}
    (evict : ∀ {s s' id}, id.isTrampoline = false → s.evict id = .ok s' → P s → P s')
    (recycle : ∀ {s id}, id.isTrampoline = false → s.arena.isLive id = false → P s →
      P { s with arena := s.arena.recycle id })
    {s s' : CodeStore} {size size' : Nat} {ids rest : List BlockId}
    (hids : ∀ id ∈ ids, id.isTrampoline = false)
    (h : s.absorb size ids = .ok (s', size', rest)) (hs : P s) : P s' := by
  induction ids generalizing s size with
  | nil =>
      cases h
      exact hs
  | cons id ids ih =>
      have hid := hids id List.mem_cons_self
      unfold absorb at h
      split at h
      · obtain ⟨s₁, he, h⟩ := bind_eq_ok_iff.mp h
        have hdead : s₁.arena.isLive id = false := by rw [isLive_evict hid he, if_pos rfl]
        exact ih (fun x hx => hids x (List.mem_cons_of_mem _ hx)) h
          (recycle hid hdead (evict hid he hs))
      · cases h
        exact hs

/-- **What joining regions does.**  A leading part of the regions is taken, as
much as it needs and no more; its descriptors are free. -/
theorem absorb_spec {s s' : CodeStore} {size size' : Nat} {ids rest : List BlockId}
    (hnodup : ids.Nodup) (hids : ∀ id ∈ ids, id.isTrampoline = false ∧
      id.number < s.arena.capacity)
    (h : s.absorb size ids = .ok (s', size', rest)) :
    ∃ taken, ids = taken ++ rest ∧ size' = size + s.arena.span taken ∧
      (rest = [] ∨ s.arena.blockBytes ≤ size') ∧
      s'.arena.outline =
        { s.arena.outline with free := taken.reverse ++ s.arena.free } ∧
      ∀ b, (s'.arena.block b).core =
        if b ∈ taken then (s.arena.block b).recycled else (s.arena.block b).core := by
  induction ids generalizing s size with
  | nil =>
      cases h
      exact ⟨[], rfl, rfl, Or.inl rfl, rfl, fun _ => by simp⟩
  | cons id ids ih =>
      obtain ⟨hid, hlt⟩ := hids id List.mem_cons_self
      obtain ⟨hnot, hnodup⟩ := List.nodup_cons.mp hnodup
      unfold absorb at h
      split at h
      · obtain ⟨s₁, he, h⟩ := bind_eq_ok_iff.mp h
        have hout := outline_evict hid he
        have hcore := core_recycle_evict hid hlt he
        obtain ⟨taken, hsplit, hsize, hstop, houtline, hblock⟩ := ih hnodup
          (fun x hx => by
            rw [show (s₁.arena.recycle id).capacity = s₁.arena.capacity from
              Arena.capacity_modify .., capacity_evict hid he]
            exact hids x (List.mem_cons_of_mem _ hx)) h
        refine ⟨id :: taken, by rw [hsplit]; rfl, ?_, ?_, ?_, ?_⟩
        · rw [hsize, Arena.span_cons, Nat.add_assoc]
          congr 2
          refine Arena.span_congr fun x hx => ?_
          have hne : x ≠ id := by
            rintro rfl
            exact hnot (hsplit ▸ List.mem_append_left _ hx)
          rw [← Descriptor.size_core, hcore, if_neg hne]
          rfl
        · rw [show s.arena.blockBytes = s₁.arena.blockBytes from
            (Arena.blockBytes_of_frame (Arena.frame_of_outline hout)).symm]
          exact hstop
        · rw [houtline, Arena.outline_recycle, hout, List.reverse_cons, List.append_assoc]
          show ({ s.arena.outline with
            free := taken.reverse ++ (id :: s₁.arena.free) } : Arena) = _
          rw [Arena.free_of_frame (Arena.frame_of_outline hout)]
          rfl
        · intro b
          rw [hblock, ← Descriptor.recycled_core, hcore]
          by_cases hb : b = id
          · subst hb
            have : b ∉ taken := fun hm => hnot (hsplit ▸ List.mem_append_left _ hm)
            simp [this]
          · simp [hb]
      · next hge =>
          cases h
          exact ⟨[], rfl, rfl, Or.inr (Nat.le_of_not_lt hge), rfl, fun _ => by simp⟩

/-! ## Opening the active region -/

theorem of_openRegion_ok {s s' : CodeStore} {id : BlockId} (h : s.openRegion = .ok (id, s')) :
    s.arena.opened = none ∧ id = s.arena.active ∧ ∃ s₁ s₂ size rest,
      s.evict id = .ok s₁ ∧
      s₁.absorb (s₁.arena.block id).size (s.arena.around id).2 = .ok (s₂, size, rest) ∧
      s' = { s₂ with
        arena := { s₂.arena.resize id size with
          regions := (s.arena.around id).1 ++ id :: rest
          opened := some id
          pen := { s₂.arena.pen with cursor := ((s₂.arena.resize id size).block id).start } } } := by
  unfold openRegion at h
  split at h
  · cases h
  · next ho =>
      obtain ⟨s₁, he, h⟩ := bind_eq_ok_iff.mp h
      obtain ⟨⟨s₂, size, rest⟩, hab, h⟩ := bind_eq_ok_iff.mp h
      cases h
      exact ⟨by simpa using ho, rfl, s₁, s₂, size, rest, he, hab, rfl⟩

/-- The arena once the active region was joined with the regions `taken`,
and is open. -/
structure Reopened (a a' : Arena) (id : BlockId) (taken rest : List BlockId) : Prop where
  after : (a.around id).2 = taken ++ rest
  regions : a'.regions = (a.around id).1 ++ id :: rest
  free : a'.free = taken.reverse ++ a.free
  active : a'.active = a.active
  opened : a'.opened = some id
  arenaBytes : a'.arenaBytes = a.arenaBytes
  blockBytes : a'.blockBytes = a.blockBytes
  capacity : a'.capacity = a.capacity
  pen : a'.pen = { a.pen with cursor := (a.block id).start }
  /-- Regions are joined until there is scratch space. -/
  stops : rest = [] ∨ a.blockBytes ≤ (a.block id).size + a.span taken
  core : ∀ b, (a'.block b).core =
    if b = id then { (a.block b).cleared with size := (a.block b).size + a.span taken }
    else if b ∈ taken then (a.block b).recycled
    else (a.block b).core

/-- What evicting the block of a region and joining the regions after it to it
comes to. -/
theorem joined_of_ok {s s₁ s₂ : CodeStore} {id : BlockId} {size : Nat} {rest : List BlockId}
    (ha : s.arena.Arranged) (hmem : id ∈ s.arena.regions) (he : s.evict id = .ok s₁)
    (hab : s₁.absorb (s₁.arena.block id).size (s.arena.around id).2 = .ok (s₂, size, rest)) :
    ∃ taken, (s.arena.around id).2 = taken ++ rest ∧ id ∉ taken ∧
      size = (s.arena.block id).size + s.arena.span taken ∧
      (rest = [] ∨ s.arena.blockBytes ≤ size) ∧
      s₂.arena.outline = { s.arena.outline with free := taken.reverse ++ s.arena.free } ∧
      ∀ b, (s₂.arena.block b).core =
        if b ∈ taken then (s.arena.block b).recycled
        else if b = id then (s.arena.block b).cleared
        else (s.arena.block b).core := by
  have hid := ha.not_trampoline_of_region hmem
  have hout := outline_evict hid he
  have hframe := Arena.frame_of_outline hout
  obtain ⟨taken, hsplit, hsize, hstop, houtline, hcore⟩ :=
    absorb_spec (ha.nodup_after hmem)
      (fun x hx => capacity_evict hid he ▸ ha.bounds_of_mem_after hmem hx) hab
  have hidt : id ∉ taken := fun hm =>
    ha.not_mem_around hmem (List.mem_append_right _ (hsplit ▸ List.mem_append_left _ hm))
  have hspan : s₁.arena.span taken = s.arena.span taken := by
    refine Arena.span_congr fun x hx => ?_
    have hne : x ≠ id := fun hx' => hidt (hx' ▸ hx)
    rw [← Descriptor.size_core, core_evict hid he, if_neg hne]
    rfl
  have hsize₁ : (s₁.arena.block id).size = (s.arena.block id).size := by
    rw [← Descriptor.size_core, core_evict hid he, if_pos rfl, Descriptor.size_cleared]
  refine ⟨taken, hsplit, hidt, ?_, ?_, ?_, fun b => ?_⟩
  · rw [hsize, hsize₁, hspan]
  · rw [← Arena.blockBytes_of_frame hframe]
    exact hstop
  · rw [houtline, hout, Arena.free_of_frame hframe]
  · rw [hcore]
    split
    · rw [← Descriptor.recycled_core, core_evict hid he]
      split
      · rw [Descriptor.recycled, Descriptor.generation_cleared]
        rfl
      · rfl
    · exact core_evict hid he b

/-- **What opening does.**  Code that lies in the active region and in those
joined to it is gone; the others are as they were. -/
theorem reopened_of_ok {s s' : CodeStore} {id : BlockId} (ha : s.arena.Arranged)
    (h : s.openRegion = .ok (id, s')) :
    s.arena.opened = none ∧ id = s.arena.active ∧
      ∃ taken rest, Reopened s.arena s'.arena id taken rest := by
  obtain ⟨ho, hact, s₁, s₂, size, rest, he, hab, rfl⟩ := of_openRegion_ok h
  have hmem : id ∈ s.arena.regions := hact ▸ ha.active
  obtain ⟨taken, hsplit, hidt, hsize, hstop, houtline, hcore⟩ := joined_of_ok ha hmem he hab
  have hframe {α : Type} (g : Arena → α) (hg : ∀ a : Arena, g a.outline = g a)
      (hfree : ∀ a : Arena, g { a.outline with free := taken.reverse ++ s.arena.free } = g a) :
      g s₂.arena = g s.arena := by
    rw [← hg, houtline, hfree]
  have hcap : s₂.arena.capacity = s.arena.capacity :=
    hframe Arena.capacity (fun _ => by simp [Arena.outline, Arena.capacity])
      fun _ => by simp [Arena.outline, Arena.capacity]
  have hstart : ((s₂.arena.resize id size).block id).start = (s.arena.block id).start := by
    rw [Arena.start_resize, ← Descriptor.start_core, hcore, if_neg hidt, if_pos rfl,
      Descriptor.start_cleared]
  refine ⟨ho, hact, taken, rest, hsplit, rfl, ?_, ?_, rfl, ?_, ?_, ?_, ?_, hsize ▸ hstop,
    fun b => ?_⟩
  · exact congrArg Arena.free houtline
  · exact hframe Arena.active (fun _ => rfl) fun _ => rfl
  · exact hframe Arena.arenaBytes (fun _ => rfl) fun _ => rfl
  · exact hframe Arena.blockBytes (fun _ => rfl) fun _ => rfl
  · exact (Arena.capacity_modify ..).trans hcap
  · show { s₂.arena.pen with cursor := ((s₂.arena.resize id size).block id).start } = _
    rw [hstart, hframe Arena.pen (fun _ => rfl) fun _ => rfl]
  · show ((s₂.arena.resize id size).block b).core = _
    rw [Arena.block_resize (hcap ▸ ha.region_lt_capacity hmem) size]
    by_cases hb : b = id
    · subst hb
      rw [if_pos rfl, if_pos rfl, ← hsize]
      show { (s₂.arena.block b).core with size } = _
      rw [hcore, if_neg hidt, if_pos rfl]
    · rw [if_neg hb, if_neg hb, hcore]
      split
      · rfl
      · rfl

namespace Reopened

variable {a a' : Arena} {id : BlockId} {taken rest : List BlockId}
  (h : Reopened a a' id taken rest)

include h

theorem isLive_eq (b : BlockId) :
    a'.isLive b = if b = id ∨ b ∈ taken then false else a.isLive b := by
  have hcore := congrArg Descriptor.isLive (h.core b)
  rw [Descriptor.isLive_core] at hcore
  rw [Arena.isLive, hcore]
  by_cases hb : b = id
  · simp only [hb, if_true, true_or]
    exact Descriptor.isLive_cleared _
  · by_cases ht : b ∈ taken
    · simp only [hb, ht, if_false, if_true, or_true]
      rfl
    · simp only [hb, ht, if_false, or_self]
      rfl

theorem core_of_isLive {b : BlockId} (hb : a'.isLive b = true) :
    (a'.block b).core = (a.block b).core := by
  rw [h.isLive_eq] at hb
  split at hb
  · cases hb
  · next hn =>
      rw [not_or] at hn
      rw [h.core, if_neg hn.1, if_neg hn.2]

theorem start_eq {b : BlockId} (hb : b ∉ taken) : (a'.block b).start = (a.block b).start := by
  have hcore := congrArg Descriptor.start (h.core b)
  rw [Descriptor.start_core] at hcore
  rw [hcore]
  split
  · exact Descriptor.start_cleared _
  · rfl

theorem size_eq {b : BlockId} (hb : b ∉ taken) :
    (a'.block b).size = (a.block b).size + if b = id then a.span taken else 0 := by
  have hcore := congrArg Descriptor.size (h.core b)
  rw [Descriptor.size_core] at hcore
  rw [hcore]
  split
  · rfl
  · rfl

section Layout

variable (hmem : id ∈ a.regions)

include hmem

theorem regions_eq : a.regions = (a.around id).1 ++ id :: (taken ++ rest) := by
  rw [← h.after]
  exact Arena.regions_eq_around hmem

/-- The free list gains what the list of regions loses. -/
theorem perm : (a'.regions ++ a'.free).Perm (a.regions ++ a.free) := by
  rw [h.regions, h.free, h.regions_eq hmem]
  simp only [List.append_assoc, List.cons_append]
  refine List.Perm.append_left _ (List.Perm.cons _ ?_)
  refine (List.Perm.append_left rest ?_).trans (List.perm_append_comm_assoc ..)
  exact List.Perm.append_right _ (List.reverse_perm taken)

variable (ha : a.Arranged)

include ha

theorem not_mem_taken : id ∉ taken := fun hm =>
  ha.not_mem_around hmem (List.mem_append_right _ (h.after ▸ List.mem_append_left _ hm))

theorem not_mem_regions_of_taken {x : BlockId} (hx : x ∈ taken) : x ∉ a'.regions := by
  intro hr
  refine List.disjoint_of_nodup_append ((h.perm hmem).nodup_iff.mpr ha.nodup) hr ?_
  rw [h.free]
  exact List.mem_append_left _ (List.mem_reverse.mpr hx)

/-- One region takes the place of those that were joined. -/
theorem tiles {hi : Nat} (htiles : a.Tiles stubBytes a.regions hi) :
    a'.Tiles stubBytes a'.regions hi := by
  have hidt := h.not_mem_taken hmem ha
  rw [h.regions_eq hmem] at htiles
  have := @Arena.Tiles.replace a a' (a.around id).1 (id :: taken) [id] rest stubBytes hi
    (by simpa using htiles) (fun x hx => ?_) ?_
  · rw [h.regions]
    simpa using this
  · have hxt : x ∉ taken := fun ht => h.not_mem_regions_of_taken hmem ha ht (by
      rw [h.regions]
      simp only [List.mem_append, List.mem_cons] at hx ⊢
      tauto)
    have hne : x ≠ id := by
      rintro rfl
      refine ha.not_mem_around hmem ?_
      rw [h.after]
      simp only [List.mem_append] at hx ⊢
      tauto
    rw [h.start_eq hxt, h.size_eq hxt, if_neg hne]
    exact ⟨rfl, rfl⟩
  · rintro l r ⟨hl, hpos, ht⟩
    refine ⟨(h.start_eq hidt).trans hl, ?_, ?_⟩
    · rw [h.size_eq hidt]
      exact Nat.lt_of_lt_of_le hpos (Nat.le_add_right _ _)
    · show l + (a'.block id).size = r
      rw [h.size_eq hidt, if_pos rfl, ht.eq_add_span]
      omega

/-- Joined up to the end of the arena or to the scratch space, the region has
room for a block. -/
theorem blockBytes_le (hact : id = a.active) : a.blockBytes ≤ (a'.block id).size := by
  have hidt := h.not_mem_taken hmem ha
  obtain ⟨hi, htiles, hreach⟩ := ha.tiles
  rw [h.size_eq hidt, if_pos rfl]
  rcases h.stops with hrest | hsize
  · have htiles' := h.tiles hmem ha htiles
    rw [h.regions, hrest, Arena.tiles_append] at htiles'
    obtain ⟨mid, _, hstart, _, hend⟩ := htiles'
    rw [h.size_eq hidt, if_pos rfl] at hend
    rw [h.start_eq hidt] at hstart
    have hend : mid + ((a.block id).size + a.span taken) = hi := hend
    have hearly := ha.early
    have hfits := ha.fits
    rw [← hact, Arena.lastStart] at hearly
    omega
  · exact hsize

end Layout

theorem isLive_of_mem_free (ha : a.Arranged) {x : BlockId} (hx : x ∈ a'.free) :
    a'.isLive x = false := by
  rw [h.isLive_eq]
  split
  · rfl
  · next hn =>
      rw [h.free, List.mem_append, List.mem_reverse] at hx
      rw [not_or] at hn
      exact ha.free x (hx.resolve_left hn.2)

/-- **Opening keeps the layout, and makes room.** -/
theorem arranged (ha : a.Arranged) (hid : id = a.active) : a'.Arranged := by
  have hmem : id ∈ a.regions := hid ▸ ha.active
  have hidt := h.not_mem_taken hmem ha
  obtain ⟨hi, htiles, hreach⟩ := ha.tiles
  refine ⟨(h.perm hmem).nodup_iff.mpr ha.nodup, fun x => ?_, ⟨hi, h.tiles hmem ha htiles, ?_⟩,
    ?_, ?_, ?_, ?_, fun x => h.isLive_of_mem_free ha, fun x hx => ?_⟩
  · rw [(h.perm hmem).mem_iff, Arena.Pooled, h.capacity]
    exact ha.pooled x
  · rw [h.arenaBytes]
    exact hreach
  · have hfirst := ha.first
    rw [h.regions_eq hmem] at hfirst
    rw [h.regions]
    cases hb : (a.around id).1 with
    | nil => rw [hb] at hfirst; exact hfirst
    | cons y ys => rw [hb] at hfirst; exact hfirst
  · rw [h.blockBytes, h.arenaBytes]
    exact ha.fits
  · rw [h.active, h.regions, ← hid]
    exact List.mem_append_right _ List.mem_cons_self
  · rw [h.active, ← hid, Arena.lastStart, h.arenaBytes, h.blockBytes, h.start_eq hidt, hid]
    exact ha.early
  · rw [h.opened, Option.some.injEq] at hx
    subst hx
    refine ⟨hid.trans h.active.symm, by rw [h.isLive_eq, if_pos (Or.inl rfl)], ?_⟩
    rw [h.blockBytes]
    exact h.blockBytes_le hmem ha hid

end Reopened

/-! ## Links through opening -/

theorem linked_evict {s s' : CodeStore} {id : BlockId} (hid : id.isTrampoline = false)
    (h : s.evict id = .ok s') (hl : s.arena.Linked) : s'.arena.Linked := by
  rcases of_evict_ok h with ⟨_, rfl⟩ | ⟨_, s₁, hd, rfl⟩
  · exact hl
  · rw [arena_discard hid hd]
    exact (hl.vacate hid).of_block fun _ => rfl

theorem homed_evict {s s' : CodeStore} {id : BlockId} (hid : id.isTrampoline = false)
    (h : s.evict id = .ok s') (hl : s.arena.Linked) (hh : s.arena.Homed) : s'.arena.Homed := by
  rcases of_evict_ok h with ⟨_, rfl⟩ | ⟨_, s₁, hd, rfl⟩
  · exact hh
  · rw [arena_discard hid hd]
    exact (hh.vacate hl hid).of_links fun _ => rfl

/-- **Opening keeps the link graph,** and with it whatever is kept by evicting
blocks, by giving descriptors back and by changing the length of a region in
which nothing is compiled. -/
theorem openRegion_induction {P : CodeStore → Prop}
    (evict : ∀ {s s' id}, s.arena.Linked → id.isTrampoline = false → s.evict id = .ok s' →
      P s → P s')
    (recycle : ∀ {s id}, s.arena.Linked → id.isTrampoline = false →
      s.arena.isLive id = false → P s → P { s with arena := s.arena.recycle id })
    (resize : ∀ {s id size a}, s.arena.Linked → id.isTrampoline = false →
      s.arena.isLive id = false → (∀ b, a.block b = (s.arena.resize id size).block b) → P s →
      P { s with arena := a })
    {s s' : CodeStore} {id : BlockId} (ha : s.arena.Arranged) (hl : s.arena.Linked)
    (h : s.openRegion = .ok (id, s')) (hs : P s) : s'.arena.Linked ∧ P s' := by
  obtain ⟨_, hact, _, _, hre⟩ := reopened_of_ok ha h
  have hdead : s'.arena.isLive id = false := by rw [hre.isLive_eq, if_pos (Or.inl rfl)]
  obtain ⟨_, _, s₁, s₂, size, rest, he, hab, rfl⟩ := of_openRegion_ok h
  have hmem : id ∈ s.arena.regions := hact ▸ ha.active
  have hid := ha.not_trampoline_of_region hmem
  have hafter : ∀ x ∈ (s.arena.around id).2, x.isTrampoline = false :=
    fun x hx => (ha.bounds_of_mem_after hmem hx).1
  have hs₂ : s₂.arena.Linked ∧ P s₂ := by
    refine absorb_induction (P := fun s => s.arena.Linked ∧ P s) ?_ ?_ hafter hab
      ⟨linked_evict hid he hl, evict hl hid he hs⟩
    · intro s s' id hid he hs
      exact ⟨linked_evict hid he hs.1, evict hs.1 hid he hs.2⟩
    · intro s id hid hd hs
      exact ⟨hs.1.recycle hid hd, recycle hs.1 hid hd hs.2⟩
  have hdead₂ : s₂.arena.isLive id = false := by
    rw [← Arena.isLive_resize s₂.arena id size]
    exact hdead
  refine ⟨?_, @resize s₂ id size _ hs₂.1 hid hdead₂ (fun _ => rfl) hs₂.2⟩
  obtain ⟨hlinks, hring⟩ := hs₂.1.clean id hdead₂
  exact (hs₂.1.modify hid hdead₂ (f := fun d => { d with size }) hlinks hring).of_block
    fun _ => rfl

theorem linked_openRegion {s s' : CodeStore} {id : BlockId} (ha : s.arena.Arranged)
    (hl : s.arena.Linked) (h : s.openRegion = .ok (id, s')) : s'.arena.Linked :=
  (openRegion_induction (P := fun _ => True) (fun _ _ _ _ => trivial) (fun _ _ _ _ => trivial)
    (fun _ _ _ _ _ => trivial) ha hl h trivial).1

theorem homed_openRegion {s s' : CodeStore} {id : BlockId} (ha : s.arena.Arranged)
    (hl : s.arena.Linked) (h : s.openRegion = .ok (id, s')) (hh : s.arena.Homed) :
    s'.arena.Homed := by
  refine (openRegion_induction (P := fun s => s.arena.Homed) ?_ ?_ ?_ ha hl h hh).2
  · exact fun hl hid he hh => homed_evict hid he hl hh
  · intro s id _ _ _ hh
    exact (hh.modify id (f := Descriptor.recycled) rfl).of_links fun _ => rfl
  · intro s id size a hl _ hd hb hh
    refine (hh.modify id (f := fun d => { d with size }) (hl.clean id hd).1).of_links ?_
    intro d
    rw [hb]
    rfl

end CodeStore

end Recompiler
