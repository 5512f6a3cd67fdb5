import Recompiler.Proofs.Guarded.Freed

/-!
# What the outcome of a write tells

A write is judged by the counts of its page's watch, and these are counts of
buckets.  So it answers that it met code when a byte that it changes lies in a
bucket some block touches, and what it frees are the blocks that were compiled
from such a byte.  Beside a block, in a bucket that the block touches but does not
fill, a write meets code and frees nothing.
-/

namespace Recompiler

namespace Source

/-- Whether an address lies in a bucket that the source touches. -/
def nears (s : Source) (addr : UInt32) : Bool :=
  s.page = pageOf addr && s.touches (bucketOf (offsetOf addr)).val

theorem nears_of_le {s : Source} (hp : s.page < pageLimit) {addr : UInt32} (h1 : s.start ≤ addr)
    (h2 : addr ≤ s.stop) : s.nears addr = true := by
  have hstart : s.start.toNat = _ := toNat_addressOf s.first hp
  have hstop : s.stop.toNat = _ := toNat_addressOf s.last hp
  have hsplit := pageOf_mul_add_offsetOf addr
  have hlast := s.last.isLt
  have hin := (offsetOf addr).isLt
  rw [UInt32.le_iff_toNat_le, hstart] at h1
  rw [UInt32.le_iff_toNat_le, hstop] at h2
  simp only [pageSize] at *
  have hpage : s.page = pageOf addr := by omega
  have hfirst : s.first ≤ offsetOf addr := by
    rw [Fin.le_def]
    omega
  have hbehind : offsetOf addr ≤ s.last := by
    rw [Fin.le_def]
    omega
  rw [nears, touches, Bool.and_eq_true, Bool.and_eq_true, decide_eq_true_iff, decide_eq_true_iff,
    decide_eq_true_iff]
  exact ⟨hpage, bucketOf_mono hfirst, bucketOf_mono hbehind⟩

end Source

def CodeStore.Near (s : CodeStore) (addrs : List UInt32) : Prop :=
  ∃ b src, s.arena.sourceOf b = some src ∧ ∃ addr ∈ addrs, src.nears addr = true

namespace CodeStore

variable {s s' : CodeStore}

@[simp] theorem not_near_nil (s : CodeStore) : ¬s.Near [] := by
  rintro ⟨_, _, _, _, h, _⟩
  cases h

theorem near_append {xs ys : List UInt32} : s.Near (xs ++ ys) ↔ s.Near xs ∨ s.Near ys := by
  simp only [Near, List.mem_append, or_and_right, exists_or, and_or_left]

end CodeStore

namespace WriteResult

def met : WriteResult → Bool
  | invalidated _ _ => true
  | _ => false

def stored : WriteResult → Bool
  | ignored | unchanged => false
  | _ => true

@[simp] theorem met_merge (a b : WriteResult) : (a.merge b).met = (a.met || b.met) := by
  cases a <;> cases b <;> rfl

@[simp] theorem stored_merge (a b : WriteResult) :
    (a.merge b).stored = (a.stored || b.stored) := by
  cases a <;> cases b <;> rfl

theorem met_iff {r : WriteResult} : r.met = true ↔ ∃ n hit, r = invalidated n hit := by
  cases r <;> simp [met]

/-- What is stored and met no code was written, or the watch was released. -/
theorem stored_and_not_met_iff {r : WriteResult} :
    r.stored = true ∧ r.met = false ↔ r = written ∨ r = released := by
  cases r <;> simp [stored, met]

theorem stored_eq_false_iff {r : WriteResult} :
    r.stored = false ↔ r = ignored ∨ r = unchanged := by
  cases r <;> simp [stored]

end WriteResult

/-! ## Within a page -/

/-- The buckets of the bytes written, from the first to the last, are those of the
first byte and of the last. -/
theorem bucketOf_eq_or_of_between {first : Offset} {width : Width} {k : Bucket}
    (h1 : bucketOf first ≤ k) (h2 : k ≤ bucketOf (GuardedMemory.lastOf first width)) :
    k = bucketOf first ∨ k = bucketOf (GuardedMemory.lastOf first width) := by
  have hwidth := width.bytes_le
  have hfirst := first.isLt
  rw [Fin.ext_iff, Fin.ext_iff]
  simp only [Fin.le_def, bucketOf, GuardedMemory.lastOf, bucketShift,
    Nat.shiftRight_eq_div_pow, pageSize] at *
  omega

section Span

variable {width : Width} {addr : UInt32}

/-- The addresses of an access within a page lie from its first byte to its last. -/
theorem between_of_mem_span (hc : GuardedMemory.crossesPage width addr = false) {a : UInt32}
    (ha : a ∈ span width addr) : pageOf a = pageOf addr ∧ offsetOf addr ≤ offsetOf a ∧
      offsetOf a ≤ GuardedMemory.lastOf (offsetOf addr) width := by
  obtain ⟨i, hi, rfl⟩ := List.mem_map.mp ha
  have hlt := Memory.lt_of_not_crosses hc hi
  have hi := List.mem_range.mp hi
  rw [Fin.le_def, Fin.le_def, offsetOf_add_of_lt hlt, GuardedMemory.lastOf]
  refine ⟨pageOf_add_of_lt hlt, Nat.le_add_right .., ?_⟩
  simp only [pageSize] at *
  omega

theorem exists_mem_span {o : Offset} (h1 : offsetOf addr ≤ o)
    (h2 : o ≤ GuardedMemory.lastOf (offsetOf addr) width) :
    ∃ a ∈ span width addr, pageOf a = pageOf addr ∧ offsetOf a = o := by
  have hbytes : 0 < width.bytes := by cases width <;> decide
  have hin := o.isLt
  rw [Fin.le_def] at h1
  rw [Fin.le_def, GuardedMemory.lastOf] at h2
  simp only at h2
  have hlt : (offsetOf addr).val + (o.val - (offsetOf addr).val) < pageSize := by omega
  refine ⟨_, List.mem_map.mpr ⟨_, List.mem_range.mpr ?_, rfl⟩, pageOf_add_of_lt hlt, ?_⟩
  · omega
  · rw [Fin.ext_iff, offsetOf_add_of_lt hlt]
    omega

theorem mem_span_of_between {a : UInt32} (hp : pageOf a = pageOf addr)
    (h1 : offsetOf addr ≤ offsetOf a)
    (h2 : offsetOf a ≤ GuardedMemory.lastOf (offsetOf addr) width) : a ∈ span width addr := by
  obtain ⟨b, hb, hpage, hoffset⟩ := exists_mem_span h1 h2
  rw [← hp] at hpage
  rwa [← addressOf_pageOf_offsetOf a, ← hpage, ← hoffset, addressOf_pageOf_offsetOf]

end Span

namespace GuardedMemory

/-- The outcome of a write that changes some addresses: whether it stored anything,
and whether it met code. -/
structure Tells (g : GuardedMemory) (changed : List UInt32) (outcome : WriteResult) : Prop where
  stored : outcome.stored = true ↔ changed ≠ []
  met : outcome.met = true ↔ g.code.Near changed

section Watched

variable (g : GuardedMemory) (id : WatchId) (width : Width) (addr value : UInt32)
  (running : Option BlockId)

theorem stored_writeWatched : (g.writeWatched id width addr value running).1.stored = true := by
  unfold writeWatched
  simp only
  split
  · rfl
  · split
    · rfl
    · split
      · rfl
      · rfl

/-- A write to a watched page meets code just if the counts say so. -/
theorem met_writeWatched :
    (g.writeWatched id width addr value running).1.met = true ↔
      (g.code.watches.watch id).coverageBetween (bucketOf (offsetOf addr))
        (bucketOf (lastOf (offsetOf addr) width)) ≠ 0 := by
  unfold writeWatched
  simp only
  split
  · next hcount => exact iff_of_true rfl hcount
  · next hcount =>
      split
      · exact iff_of_false Bool.false_ne_true hcount
      · split
        · exact iff_of_false Bool.false_ne_true hcount
        · exact iff_of_false Bool.false_ne_true hcount

end Watched

section Stored

variable {g : GuardedMemory} {width : Width} {addr value : UInt32}

variable (hchanges : (g.memory.accepts addr &&
    g.memory.readWidth width addr ≠ width.truncate value) = true) (running : Option BlockId)

include hchanges

theorem writeWithin_of_watched {id : WatchId} (hid : g.memory.watch? (pageOf addr) = some id) :
    g.writeWithin width addr value running =
      g.writeWatched id width addr (width.truncate value) running := by
  rw [Bool.and_eq_true, decide_eq_true_iff, Memory.accepts, Bool.and_eq_true,
    Bool.not_eq_true'] at hchanges
  unfold writeWithin
  simp only [hid]
  rw [if_neg (by simp [hchanges.1.1, hchanges.1.2]), if_neg hchanges.2]

theorem writeWithin_of_unwatched (hid : g.memory.watch? (pageOf addr) = none) :
    g.writeWithin width addr value running =
      (.written,
        { g with memory := g.memory.storeWidth width addr (width.truncate value) }) := by
  rw [Bool.and_eq_true, decide_eq_true_iff, Memory.accepts, Bool.and_eq_true,
    Bool.not_eq_true'] at hchanges
  unfold writeWithin
  simp only [hid]
  rw [if_neg (by simp [hchanges.1.1, hchanges.1.2]), if_neg hchanges.2]

end Stored

namespace Coherent

variable {l : Limits} {g : GuardedMemory} (h : g.Coherent l)

include h

section Within

variable {width : Width} {addr : UInt32} (hc : crossesPage width addr = false)

include hc

/-- **The counts of a watch meet code just where some block is near.** -/
theorem near_span_iff {id : WatchId} (hid : g.memory.watch? (pageOf addr) = some id) :
    g.code.Near (span width addr) ↔
      (g.code.watches.watch id).coverageBetween (bucketOf (offsetOf addr))
        (bucketOf (lastOf (offsetOf addr) width)) ≠ 0 := by
  have hindexes := h.store.indexed.indexes id
  constructor
  · rintro ⟨b, src, hs, a, ha, hnear⟩ hcount
    obtain ⟨hpage, h1, h2⟩ := between_of_mem_span hc ha
    rw [Source.nears, Bool.and_eq_true, decide_eq_true_iff, hpage] at hnear
    have hwatch := (h.watch_eq_iff hid hs).mpr hnear.1
    have hmiss := hindexes.not_touches hcount hs hwatch (bucketOf_mono h1) (bucketOf_mono h2)
    rw [hmiss] at hnear
    cases hnear.2
  · intro hcount
    rw [ne_eq, Watch.coverageBetween_eq_zero_iff] at hcount
    push Not at hcount
    obtain ⟨k, h1, h2, hk⟩ := hcount
    rw [hindexes.coverage, ne_eq, List.countP_eq_zero] at hk
    push Not at hk
    obtain ⟨b, hb, htouch⟩ := hk
    obtain ⟨src, hs, hw⟩ := hindexes.mem_blocks_iff.mp hb
    rw [hs, Option.any_some] at htouch
    have hpage := (h.watch_eq_iff hid hs).mp hw
    obtain ⟨o, hfirst, hlast, rfl⟩ : ∃ o, offsetOf addr ≤ o ∧ o ≤ lastOf (offsetOf addr) width ∧
        bucketOf o = k := by
      rcases bucketOf_eq_or_of_between h1 h2 with rfl | rfl
      · exact ⟨_, Fin.le_refl _, le_lastOf .., rfl⟩
      · exact ⟨_, le_lastOf .., Fin.le_refl _, rfl⟩
    obtain ⟨a, ha, hsame, rfl⟩ := exists_mem_span hfirst hlast
    refine ⟨b, src, hs, a, ha, ?_⟩
    rw [Source.nears, hpage, hsame, htouch, decide_eq_true rfl]
    rfl

theorem tells_writeWithin (value : UInt32) (running : Option BlockId) :
    g.Tells (g.memory.changedBy width addr value)
      (g.writeWithin width addr value running).1 := by
  rw [Memory.changedBy_of_within hc]
  by_cases hchanges : (g.memory.accepts addr &&
      g.memory.readWidth width addr ≠ width.truncate value) = true
  · have hspan : span width addr ≠ [] := by cases width <;> exact List.cons_ne_nil _ _
    rw [if_pos hchanges]
    cases hid : g.memory.watch? (pageOf addr) with
    | none =>
        rw [writeWithin_of_unwatched hchanges running hid]
        refine ⟨iff_of_true rfl hspan, iff_of_false Bool.false_ne_true ?_⟩
        rintro ⟨b, src, hs, a, ha, hnear⟩
        obtain ⟨i, hi, rfl⟩ := List.mem_map.mp ha
        have hwatch := h.watch?_page hs
        rw [Source.nears, Bool.and_eq_true, decide_eq_true_iff,
          pageOf_add_of_lt (Memory.lt_of_not_crosses hc hi)] at hnear
        rw [hnear.1, hid] at hwatch
        cases hwatch
    | some id =>
        rw [writeWithin_of_watched hchanges running hid]
        exact ⟨iff_of_true (g.stored_writeWatched ..) hspan,
          (g.met_writeWatched ..).trans (h.near_span_iff hc hid).symm⟩
  · rw [if_neg hchanges]
    rcases writeWithin_of_same running hchanges with hsame | hsame
    · rw [hsame]
      exact ⟨iff_of_false Bool.false_ne_true (absurd rfl),
        iff_of_false Bool.false_ne_true (CodeStore.not_near_nil _)⟩
    · rw [hsame]
      exact ⟨iff_of_false Bool.false_ne_true (absurd rfl),
        iff_of_false Bool.false_ne_true (CodeStore.not_near_nil _)⟩

end Within

/-! ## Over the edge of a page -/

/-- A block near some bytes is near the first of them, or is still there when these are
written. -/
theorem near_or_iff {running : Option BlockId} {changed others : List UInt32}
    {freed : List BlockId} {outcome : WriteResult} {g' : GuardedMemory}
    (hf : g.Freed running changed freed outcome g') :
    g.code.Near changed ∨ g'.code.Near others ↔ g.code.Near (changed ++ others) := by
  rw [CodeStore.near_append]
  constructor
  · rintro (hnear | ⟨b, src, hs, hnear⟩)
    · exact Or.inl hnear
    · rw [hf.code.sourceOf] at hs
      split at hs
      · cases hs
      · exact Or.inr ⟨b, src, hs, hnear⟩
  · rintro (hnear | ⟨b, src, hs, hnear⟩)
    · exact Or.inl hnear
    · by_cases hb : b ∈ freed
      · obtain ⟨src', hs', a, ha, h1, h2⟩ := (hf.met b).mp hb
        exact Or.inl ⟨b, src', hs', a, ha,
          Source.nears_of_le (h.store.translated b src' hs').page h1 h2⟩
      · refine Or.inr ⟨b, src, ?_, hnear⟩
        rw [hf.code.sourceOf, if_neg hb]
        exact hs

/-- Byte by byte, the outcome tells what was changed in the whole. -/
theorem tells_writeBytes (addr value : UInt32) (running : Option BlockId) {n : Nat} (hn : n ≤ 4) :
    g.Tells (g.memory.changedBytes addr value n) (g.writeBytes addr value running n).1 := by
  induction n with
  | zero =>
      exact ⟨iff_of_false Bool.false_ne_true (absurd rfl),
        iff_of_false Bool.false_ne_true (CodeStore.not_near_nil _)⟩
  | succ n ih =>
      have htells := ih (Nat.le_of_succ_le hn)
      obtain ⟨hc, freed, hfreed⟩ := h.freed_writeBytes addr value running (Nat.le_of_succ_le hn)
      have hbyte := hc.tells_writeWithin (crossesPage_byte (addr + n.toUInt32))
        (byteAt value n).toUInt32 running
      rw [Memory.changedBy_byte, hfreed.accepts,
        hfreed.read _ (g.memory.add_not_mem_changedBytes addr value hn)] at hbyte
      rw [writeBytes_succ, Memory.changedBytes_succ]
      constructor
      · rw [WriteResult.stored_merge, Bool.or_eq_true, htells.stored, hbyte.stored]
        exact not_and_or.symm.trans (not_congr List.append_eq_nil_iff.symm)
      · rw [WriteResult.met_merge, Bool.or_eq_true, htells.met, hbyte.met,
          h.near_or_iff hfreed]

/-- **A write tells what it changed:** it answers that it stored something just if it
changed a byte, and that it met code just if some block is near such a byte. -/
theorem tells_write (width : Width) (addr value : UInt32) (running : Option BlockId) :
    g.Tells (g.memory.changedBy width addr value) (g.write width addr value running).1 := by
  cases hc : crossesPage width addr with
  | false =>
      rw [write_of_within g hc]
      exact h.tells_writeWithin hc value running
  | true =>
      rw [write_of_crosses g hc, Memory.changedBy, if_pos hc]
      exact h.tells_writeBytes addr value running width.bytes_le

end Coherent

end GuardedMemory

end Recompiler
