import Recompiler.Proofs.Guarded.Coherent

/-!
# Writes

A write that changes bytes some block was compiled from tears that block down,
whether it finds it by the counts of its watch or by its lists; a write that
meets no count meets no block.  So after any write what is left of compiled code
is still the translation of what memory holds, and memory itself holds what it
would hold under no watch.
-/

namespace Recompiler

namespace GuardedMemory

/-! ## Memory after a write -/

theorem memory_invalidate (g : GuardedMemory) (start stop : UInt32) (running : Option BlockId) :
    (g.invalidate start stop running).2.2.memory = g.memory := by
  unfold invalidate
  split
  · rfl
  · refine List.foldlRecOn (motive := fun r : Nat × Bool × GuardedMemory => r.2.2.memory = g.memory)
      _ _ rfl fun r hr page _ => ?_
    simp only
    split
    · exact hr
    · exact hr

theorem bare_writeWatched (g : GuardedMemory) (id : WatchId) (width : Width)
    (addr value : UInt32) (running : Option BlockId) :
    (g.writeWatched id width addr value running).2.memory.bare =
      g.memory.bare.storeWidth width addr value := by
  unfold writeWatched
  simp only
  split
  · exact Memory.bare_storeWidth ..
  · split
    · exact Memory.bare_storeWidth ..
    · split
      · exact (Memory.bare_setWatch ..).trans (Memory.bare_storeWidth ..)
      · exact Memory.bare_storeWidth ..

theorem bare_writeWithin (g : GuardedMemory) {width : Width} {addr : UInt32}
    (h : crossesPage width addr = false) (value : UInt32) (running : Option BlockId) :
    (g.writeWithin width addr value running).2.memory.bare =
      g.memory.bare.writeWidth width addr value := by
  rw [Memory.writeWidth_of_within h, Memory.isRom_bare, ← Memory.storeWidth_truncate,
    ← Memory.bare_storeWidth]
  unfold writeWithin
  simp only
  split
  · next hout =>
      rw [Bool.or_eq_true, Bool.not_eq_true'] at hout
      split
      · rfl
      · next hrom => rw [Memory.storeWidth_of_not_contains h (hout.resolve_right hrom)]
  · next hin =>
      rw [Bool.or_eq_true, not_or] at hin
      rw [if_neg hin.2]
      split
      · next hsame => rw [← hsame, Memory.storeWidth_readWidth]
      · split
        · rw [bare_writeWatched, Memory.bare_storeWidth]
        · rfl

theorem crossesPage_byte (addr : UInt32) : crossesPage .byte addr = false := by
  rw [crossesPage, decide_eq_false_iff_not, Nat.not_lt]
  exact (offsetOf addr).isLt

/-- **Memory holds after a write what it would hold under no watch.** -/
theorem bare_write (g : GuardedMemory) (width : Width) (addr value : UInt32)
    (running : Option BlockId) :
    (g.write width addr value running).2.memory.bare =
      g.memory.bare.writeWidth width addr value := by
  unfold write
  split
  · rw [Memory.writeWidth]
    refine (List.foldl_hom (fun r : WriteResult × GuardedMemory => r.2.memory.bare)
      fun r i => ?_).symm
    have hbyte : byteAt (byteAt value i).toUInt32 0 = byteAt value i :=
      UInt8.toNat_inj.mp (by simp [byteAt])
    have hstep := r.2.bare_writeWithin (crossesPage_byte (addr + i.toUInt32))
      (byteAt value i).toUInt32 running
    have hone : ∀ m : Memory, m.writeWidth .byte (addr + i.toUInt32)
        (byteAt value i).toUInt32 = m.write (addr + i.toUInt32) (byteAt value i) := by
      intro m
      show m.write (addr + i.toUInt32 + 0) (byteAt _ 0) = _
      rw [hbyte, UInt32.add_zero]
    rw [hone] at hstep
    exact hstep.symm
  · next hc => exact bare_writeWithin g (eq_false_of_ne_true hc) value running

/-! ## Code after a write -/

/-- What is left of a memory and its code when some blocks are torn down for
the sake of a change; the running block goes only if the outcome says so. -/
structure Leaves (l : Limits) (running : Option BlockId) (g : GuardedMemory) (hit : Bool)
    (g' : GuardedMemory) : Prop where
  coherent : g'.Coherent l
  shrinks : g.code.arena.Shrinks g'.code.arena
  spared : ∀ b, running = some b → hit = false → g.code.arena.isLive b = true →
    g'.code.arena.isLive b = true

namespace Leaves

variable {l : Limits} {running : Option BlockId}

theorem refl {g : GuardedMemory} (h : g.Coherent l) (hit : Bool) : Leaves l running g hit g :=
  ⟨h, .refl _, fun _ _ _ hb => hb⟩

theorem trans {a b c : GuardedMemory} {hit hit' : Bool} (h : Leaves l running a hit b)
    (h' : Leaves l running b hit' c) : Leaves l running a (hit || hit') c :=
  ⟨h'.coherent, h.shrinks.trans h'.shrinks, fun x hx hn hl => by
    rw [Bool.or_eq_false_iff] at hn
    exact h'.spared x hx hn.2 (h.spared x hx hn.1 hl)⟩

end Leaves

theorem le_lastOf (first : Offset) (width : Width) : first ≤ lastOf first width := by
  have := first.isLt
  rw [Fin.le_def, lastOf]
  simp only [pageSize] at *
  omega

namespace Coherent

variable {l : Limits} {g : GuardedMemory} (h : g.Coherent l)

include h

/-- Bytes written that a block was not compiled from leave its source as it
is. -/
theorem bytes_of_patched {id : WatchId} {page : Nat} (hid : g.memory.watch? page = some id)
    {first last : Offset} {m : Memory} (hm : g.memory.Patched page first last m) {b : BlockId}
    {src : Source} (hb : g.code.arena.sourceOf b = some src)
    (hn : src.watch = id → src.overlaps first last = false) {p : Vector UInt8 pageSize}
    (hp : g.memory.bytes? src.page = some p) :
    ∃ q, m.bytes? src.page = some q ∧
      bytesBetween q src.first src.last = bytesBetween p src.first src.last := by
  obtain ⟨q, hq, hqp⟩ := hm.bytes _ p hp
  refine ⟨q, hq, bytesBetween_congr fun i h1 h2 => hqp i ?_⟩
  rintro ⟨hpage, h3, h4⟩
  have hw := h.watch?_page hb
  rw [hpage, hid, Option.some.injEq] at hw
  have := hn hw.symm
  rw [Source.overlaps, Bool.and_eq_false_iff, decide_eq_false_iff_not, decide_eq_false_iff_not]
    at this
  simp only [Fin.le_def] at this
  omega

theorem not_overlaps {id : WatchId} {first last : Offset} (hfl : first ≤ last)
    (hc : (g.code.watches.watch id).coverageBetween (bucketOf first) (bucketOf last) = 0)
    {b : BlockId} {src : Source} (hb : g.code.arena.sourceOf b = some src)
    (hw : src.watch = id) : src.overlaps first last = false := by
  refine eq_false_of_ne_true fun ho => ?_
  obtain ⟨k, h1, h2, ht⟩ :=
    Source.touches_of_overlaps (h.store.indexed.range b src hb) hfl ho
  rw [(h.store.indexed.indexes id).not_touches hc hb hw h1 h2] at ht
  cases ht

theorem setWatch {id : WatchId} (hid : id ∈ g.code.watches.used) {w : Watch}
    (hw : w.Indexes id g.code.arena.sourceOf) (hp : w.page = (g.code.watches.watch id).page) :
    ({ g with code := { g.code with watches := g.code.watches.set id w } } :
      GuardedMemory).Coherent l :=
  h.of_code (h.store.setWatches (h.store.indexed.setWatch (h.lt_capacity hid) hw hp)
    (Watches.capacity_set ..)) (.set _ hp) fun _ _ hb => hb

/-- Bytes that no block was compiled from may change. -/
theorem setMemory {id : WatchId} {page : Nat} (hid : g.memory.watch? page = some id)
    {first last : Offset} {m : Memory} (hm : g.memory.Patched page first last m)
    (hn : ∀ b src, g.code.arena.sourceOf b = some src → src.watch = id →
      src.overlaps first last = false) : ({ g with memory := m } : GuardedMemory).Coherent l :=
  h.of_kept h.store (.refl _) hm.marks fun b src hb =>
    ⟨hb, fun _ hp => h.bytes_of_patched hid hm hb (hn b src hb) hp⟩

/-- Tearing down the blocks that a range of bytes of a watched page meets makes
way for any change of these bytes. -/
theorem invalidate {id : WatchId} {page : Nat} (hid : g.memory.watch? page = some id)
    {first last : Offset} (hfl : first ≤ last) {m : Memory}
    (hm : g.memory.Patched page first last m) (running : Option BlockId) :
    Leaves l running g (g.code.invalidate id first last running).2.1
      { code := (g.code.invalidate id first last running).2.2, memory := m } := by
  have hused := ((h.mapped _ _).mp hid).1
  obtain ⟨ids, _, hids, f, heq, hs⟩ := h.store.invalidate (h.lt_capacity hused) hfl running
  have hT : ∀ b ∈ ids, b.isTrampoline = false := fun b hb => by
    obtain ⟨src, hsrc, _⟩ := (hids b).mp hb
    exact h.store.not_trampoline hsrc
  rw [heq]
  refine ⟨h.of_kept hs (CodeStore.sameUse_withoutAll ..) hm.marks fun b src hb => ?_, ?_,
    fun b hb hhit hlive => ?_⟩
  · have hb : (g.code.withoutAll ids).arena.sourceOf b = some src := hb
    rw [CodeStore.sourceOf_withoutAll] at hb
    split at hb
    · cases hb
    · next hnot =>
        refine ⟨hb, fun p hp => h.bytes_of_patched hid hm hb (fun hw => ?_) hp⟩
        exact eq_false_of_ne_true fun ho => hnot ((hids b).mpr ⟨src, hb, hw, ho⟩)
  · exact (h.store.shrinks_withoutAll hT).trans (.count _ _)
  · show (g.code.withoutAll ids).arena.isLive b = true
    rw [CodeStore.isLive_withoutAll, if_neg]
    · exact hlive
    · intro hmem
      have := List.any_eq_false.mp hhit b hmem
      rw [decide_eq_true_iff] at this
      exact this hb

theorem writeWatched {width : Width} {addr : UInt32} (hc : crossesPage width addr = false)
    {id : WatchId} (hid : g.memory.watch? (pageOf addr) = some id) (value : UInt32)
    (running : Option BlockId) :
    Leaves l running g (g.writeWatched id width addr value running).1.metRunning
      (g.writeWatched id width addr value running).2 := by
  have hused := ((h.mapped _ _).mp hid).1
  have hfl := le_lastOf (offsetOf addr) width
  have hm := Memory.patched_storeWidth hc g.memory value
  unfold GuardedMemory.writeWatched
  simp only
  split
  · let w := (g.code.watches.watch id).noteChanges (offsetOf addr) (lastOf (offsetOf addr) width)
    have hnoted := h.setWatch hused (w := w) (by
      obtain ⟨h1, h2, h3, h4⟩ := h.store.indexed.indexes id
      exact ⟨h1, h2, h3, h4⟩) rfl
    have hleft := hnoted.invalidate hid hfl hm running
    exact ⟨hleft.coherent, hleft.shrinks, hleft.spared⟩
  · next hcount =>
      rw [not_not] at hcount
      have hmemory := h.setMemory hid hm fun b src hb hw => h.not_overlaps hfl hcount hb hw
      split
      · exact ⟨hmemory, .refl _, fun _ _ _ hb => hb⟩
      · next hactive =>
          rw [not_not] at hactive
          let w : Watch := { g.code.watches.watch id with
            countdown := (g.code.watches.watch id).countdown - 1 }
          have hcounted := hmemory.setWatch hused (w := w) (by
            obtain ⟨h1, h2, h3, h4⟩ := h.store.indexed.indexes id
            exact ⟨h1, h2, h3, h4⟩) rfl
          split
          · refine ⟨hcounted.release hused fun b src hb hw => ?_, .refl _, fun _ _ _ hb => hb⟩
            have hmem := h.mem_blocks_iff.mpr ⟨src, hb, hw⟩
            rw [(h.store.indexed.indexes id).active, List.length_eq_zero_iff] at hactive
            rw [hactive] at hmem
            cases hmem
          · exact ⟨hcounted, .refl _, fun _ _ _ hb => hb⟩

theorem writeWithin {width : Width} {addr : UInt32} (hc : crossesPage width addr = false)
    (value : UInt32) (running : Option BlockId) :
    Leaves l running g (g.writeWithin width addr value running).1.metRunning
      (g.writeWithin width addr value running).2 := by
  unfold GuardedMemory.writeWithin
  simp only
  split
  · exact .refl h _
  · split
    · exact .refl h _
    · split
      · next id hid => exact h.writeWatched hc hid _ running
      · next hnone =>
          have hm := Memory.patched_storeWidth hc g.memory (width.truncate value)
          refine ⟨h.of_kept h.store (.refl _) hm.marks fun b src hb =>
            ⟨hb, fun p hp => ?_⟩, .refl _, fun _ _ _ hb => hb⟩
          have hne : src.page ≠ pageOf addr := fun he => by
            have := h.watch?_page hb
            rw [he, hnone] at this
            cases this
          obtain ⟨q, hq, hqp⟩ := hm.bytes _ p hp
          exact ⟨q, hq, bytesBetween_congr fun i _ _ => hqp i fun hi => hne hi.1⟩

/-- **Any write leaves compiled code the translation of memory.** -/
theorem write (width : Width) (addr value : UInt32) (running : Option BlockId) :
    Leaves l running g (g.write width addr value running).1.metRunning
      (g.write width addr value running).2 := by
  unfold GuardedMemory.write
  split
  · refine List.foldlRecOn
      (motive := fun r : WriteResult × GuardedMemory => Leaves l running g r.1.metRunning r.2)
      _ _ (.refl h _) fun r hr i _ => ?_
    simp only [WriteResult.metRunning_merge]
    exact hr.trans (hr.coherent.writeWithin (crossesPage_byte _) _ running)
  · next hc => exact h.writeWithin (eq_false_of_ne_true hc) value running

/-! ## Ranges and devices -/

theorem invalidateRange (start stop : UInt32) (running : Option BlockId) :
    Leaves l running g (g.invalidate start stop running).2.1
      (g.invalidate start stop running).2.2 := by
  unfold GuardedMemory.invalidate
  split
  · exact .refl h _
  · next hle =>
      refine List.foldlRecOn
        (motive := fun r : Nat × Bool × GuardedMemory => Leaves l running g r.2.1 r.2.2)
        _ _ (.refl h _) fun r hr page _ => ?_
      simp only
      split
      · exact hr
      · next id hid =>
          refine hr.trans (hr.coherent.invalidate hid ?_ (.refl _) running)
          split
          · next h1 =>
              split
              · next h2 => exact offsetOf_le hle (h1.symm.trans h2)
              · exact Fin.le_last _
          · exact Fin.zero_le _

omit h in
/-- A device on the bus sees memory as it is under no watch, and leaves
compiled code coherent. -/
theorem run {α : Type} (p : BusProgram α) (h : g.Coherent l) :
    (g.run p).1 = (g.memory.bare.run p).1 ∧
      (g.run p).2.memory.bare = (g.memory.bare.run p).2 ∧
      Leaves l none g false (g.run p).2 := by
  induction p generalizing g with
  | done a => exact ⟨rfl, rfl, .refl h _⟩
  | read addr next ih =>
      obtain ⟨h1, h2, h3⟩ := ih (g.memory.read addr) h
      refine ⟨h1.trans ?_, h2.trans ?_, h3⟩
      · show _ = ((next (g.memory.bare.read addr)).run _ _ _).1
        rw [Memory.read_bare]
        rfl
      · show _ = ((next (g.memory.bare.read addr)).run _ _ _).2
        rw [Memory.read_bare]
        rfl
  | write width addr value next ih =>
      have hw := h.write width addr value none
      have hm := bare_write g width addr value none
      obtain ⟨h1, h2, h3⟩ := ih hw.coherent
      rw [hm] at h1 h2
      exact ⟨h1, h2, h3.coherent, hw.shrinks.trans h3.shrinks, nofun⟩

end Coherent

end GuardedMemory

end Recompiler
