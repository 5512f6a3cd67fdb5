import Recompiler.Proofs.Guarded.Write
import Recompiler.Proofs.Store.Freed

/-!
# What a write frees

A write frees the blocks that were compiled from a byte it changes, and no
others, whether it stays within a page or goes byte by byte over the edge of
one.  They are freed before any byte is stored that they were compiled from:
all along, what a live block was compiled from is in memory.
-/

namespace Recompiler

namespace Source

/-- Whether the source lies at one of some addresses. -/
def meets (s : Source) (addrs : List UInt32) : Prop := ∃ a ∈ addrs, s.start ≤ a ∧ a ≤ s.stop

@[simp] theorem not_meets_nil (s : Source) : ¬s.meets [] := by
  rintro ⟨_, h, _⟩
  cases h

theorem meets_append {s : Source} {xs ys : List UInt32} :
    s.meets (xs ++ ys) ↔ s.meets xs ∨ s.meets ys := by
  simp only [meets, List.mem_append, or_and_right, exists_or]

end Source

/-! ## The bytes a write changes -/

def span (width : Width) (addr : UInt32) : List UInt32 :=
  (List.range width.bytes).map fun i => addr + i.toUInt32

theorem Watch.Indexes.buckets_eq_nil {w : Watch} {id : WatchId}
    {sourceOf : BlockId → Option Source} (h : w.Indexes id sourceOf) (hw : w.active = 0)
    (k : Bucket) : w.buckets[k.val] = [] := by
  refine List.eq_nil_iff_forall_not_mem.mpr fun b hb => ?_
  have hmem := Watch.mem_blocks.mpr ⟨k, hb⟩
  rw [h.active, List.length_eq_zero_iff] at hw
  rw [hw] at hmem
  cases hmem

namespace Memory

/-- Whether a byte written at an address is stored: it lies in memory, and not
on a page that is ROM. -/
def accepts (m : Memory) (addr : UInt32) : Bool := m.contains addr && !m.isRom (pageOf addr)

/-- The addresses of the first bytes of a value at which it is stored and
differs from what memory holds. -/
def changedBytes (m : Memory) (addr value : UInt32) (n : Nat) : List UInt32 :=
  ((List.range n).filter fun i =>
    m.accepts (addr + i.toUInt32) && m.read (addr + i.toUInt32) ≠ byteAt value i).map
      fun i => addr + i.toUInt32

/-- The addresses that a write changes.  Within a page these are all it writes,
if it is stored and differs from what memory holds; over the edge of a page each
byte is for itself. -/
def changedBy (m : Memory) (width : Width) (addr value : UInt32) : List UInt32 :=
  if GuardedMemory.crossesPage width addr then m.changedBytes addr value width.bytes
  else if m.accepts addr && m.readWidth width addr ≠ width.truncate value then span width addr
  else []

theorem contains_bare (m : Memory) (addr : UInt32) : m.bare.contains addr = m.contains addr := by
  rw [Bool.eq_iff_iff, contains_iff, contains_iff, pageCount_bare]

@[simp] theorem accepts_bare (m : Memory) (addr : UInt32) :
    m.bare.accepts addr = m.accepts addr := by
  rw [accepts, accepts, contains_bare, isRom_bare]

theorem SameMarks.accepts {m m' : Memory} (h : m.SameMarks m') (addr : UInt32) :
    m'.accepts addr = m.accepts addr := by
  have hcontains : m'.contains addr = m.contains addr := by
    rw [Bool.eq_iff_iff, contains_iff, contains_iff, h.pageCount]
  rw [Memory.accepts, Memory.accepts, hcontains, h.rom]

@[simp] theorem changedBy_bare (m : Memory) (width : Width) (addr value : UInt32) :
    m.bare.changedBy width addr value = m.changedBy width addr value := by
  simp only [changedBy, changedBytes, accepts_bare, read_bare, readWidth_bare]

theorem changedBytes_succ (m : Memory) (addr value : UInt32) (n : Nat) :
    m.changedBytes addr value (n + 1) = m.changedBytes addr value n ++
      if m.accepts (addr + n.toUInt32) && m.read (addr + n.toUInt32) ≠ byteAt value n then
        [addr + n.toUInt32]
      else [] := by
  rw [changedBytes, List.range_succ, List.filter_append, List.map_append, changedBytes]
  congr 1
  rw [List.filter_singleton, Bool.cond_eq_ite]
  split
  · rfl
  · rfl

theorem add_not_mem_changedBytes (m : Memory) (addr value : UInt32) {n : Nat} (hn : n < 4) :
    addr + n.toUInt32 ∉ m.changedBytes addr value n := by
  intro hmem
  obtain ⟨i, hi, he⟩ := List.mem_map.mp hmem
  have hlt := List.mem_range.mp (List.mem_of_mem_filter hi)
  have hsum := congrArg UInt32.toNat he
  simp only [UInt32.toNat_add, Nat.toUInt32, UInt32.toNat_ofNat'] at hsum
  omega

theorem readWidth_byte (m : Memory) (addr : UInt32) :
    m.readWidth .byte addr = (m.read addr).toUInt32 := by
  show (m.read (addr + 0)).toUInt32 ||| ((0 : UInt32) <<< 8) = _
  simp

theorem changedBy_byte (m : Memory) (addr : UInt32) (v : UInt8) :
    m.changedBy .byte addr v.toUInt32 =
      if m.accepts addr && m.read addr ≠ v then [addr] else [] := by
  have hcut : Width.truncate v.toUInt32 .byte = v.toUInt32 := by
    rw [Width.truncate, ← UInt32.toNat_inj]
    simp only [UInt32.toNat_and, UInt8.toNat_toUInt32]
    exact Nat.and_two_pow_sub_one_of_lt_two_pow (n := 8) v.toNat_lt
  have hspan : span .byte addr = [addr] := by simp [span, Width.bytes]
  have hiff : (m.read addr).toUInt32 = v.toUInt32 ↔ m.read addr = v :=
    ⟨fun h => UInt8.toNat_inj.mp (by simpa using congrArg UInt32.toNat h), fun h => by rw [h]⟩
  rw [changedBy, GuardedMemory.crossesPage_byte, hspan, readWidth_byte, hcut]
  simp only [Bool.false_eq_true, if_false, ne_eq, hiff]

def storeBytes (m : Memory) (addr value : UInt32) (n : Nat) : Memory :=
  (List.range n).foldl (fun m i => m.store (addr + i.toUInt32) (byteAt value i)) m

theorem read_storeBytes (m : Memory) (width : Width) (addr value : UInt32) {n : Nat}
    (hn : n ≤ width.bytes) {a : UInt32} (ha : a ∉ span width addr) :
    (m.storeBytes addr value n).read a = m.read a := by
  induction n with
  | zero => rfl
  | succ n ih =>
      rw [storeBytes, List.range_succ, List.foldl_append, List.foldl_cons, List.foldl_nil,
        read_store, if_neg]
      · exact ih (Nat.le_of_succ_le hn)
      · rintro ⟨rfl, _⟩
        exact ha (List.mem_map.mpr ⟨n, List.mem_range.mpr hn, rfl⟩)

section Within

variable {width : Width} {addr : UInt32}
  (h : GuardedMemory.crossesPage width addr = false)

include h

theorem changedBy_of_within (m : Memory) (value : UInt32) :
    m.changedBy width addr value =
      if m.accepts addr && m.readWidth width addr ≠ width.truncate value then span width addr
      else [] := by
  rw [changedBy, h]
  rfl

theorem read_writeWidth (m : Memory) (value : UInt32) {a : UInt32}
    (ha : a ∉ m.changedBy width addr value) :
    (m.writeWidth width addr value).read a = m.read a := by
  rw [changedBy_of_within h] at ha
  rw [writeWidth_of_within h]
  split
  · rfl
  · next hrom =>
      split at ha
      · exact read_storeBytes m width addr value (Nat.le_refl _) ha
      · next hsame =>
          rw [Bool.and_eq_true, not_and, accepts, Bool.and_eq_true, decide_eq_true_iff,
            not_not] at hsame
          cases hcontains : m.contains addr with
          | false => rw [storeWidth_of_not_contains h hcontains]
          | true =>
              rw [← storeWidth_truncate, ← hsame ⟨hcontains, by simpa using hrom⟩,
                storeWidth_readWidth]

theorem accepts_writeWidth (m : Memory) (value a : UInt32) :
    (m.writeWidth width addr value).accepts a = m.accepts a := by
  rw [writeWidth_of_within h]
  split
  · rfl
  · exact (patched_storeWidth h m value).marks.accepts a

end Within

end Memory

namespace GuardedMemory

/-! ## Within a page -/

/-- What a write did: it changed the bytes at some addresses, and freed the
blocks that lay there. -/
structure Freed (g : GuardedMemory) (running : Option BlockId) (changed : List UInt32)
    (freed : List BlockId) (outcome : WriteResult) (g' : GuardedMemory) : Prop where
  nodup : freed.Nodup
  /-- Those go that were compiled from a byte that changes. -/
  met : ∀ b, b ∈ freed ↔ ∃ src, g.code.arena.sourceOf b = some src ∧ src.meets changed
  blocks : outcome.blocks = freed.length
  hit : outcome.metRunning = freed.any fun b => running = some b
  code : g.code.Frees freed g'.code
  read : ∀ a, a ∉ changed → g'.memory.read a = g.memory.read a
  accepts : ∀ a, g'.memory.accepts a = g.memory.accepts a

namespace Freed

variable {running : Option BlockId} {g g' g'' : GuardedMemory} {changed changed' : List UInt32}
  {freed freed' : List BlockId} {outcome outcome' : WriteResult}

theorem of_not_met (hn : ∀ b src, g.code.arena.sourceOf b = some src → ¬src.meets changed)
    (hb : outcome.blocks = 0) (hm : outcome.metRunning = false) (hc : g.code.Frees [] g'.code)
    (hr : ∀ a, a ∉ changed → g'.memory.read a = g.memory.read a)
    (ha : ∀ a, g'.memory.accepts a = g.memory.accepts a) :
    g.Freed running changed [] outcome g' := by
  refine ⟨List.nodup_nil, fun b => ⟨fun h => absurd h List.not_mem_nil, ?_⟩, hb, hm, hc, hr, ha⟩
  rintro ⟨src, hs, hmeets⟩
  exact absurd hmeets (hn b src hs)

theorem refl (g : GuardedMemory) (hb : outcome.blocks = 0) (hm : outcome.metRunning = false) :
    g.Freed running [] [] outcome g :=
  .of_not_met (fun _ src _ => src.not_meets_nil) hb hm (.refl _) (fun _ _ => rfl) fun _ => rfl

/-- Two parts of a write do what the whole does. -/
theorem append (h : g.Freed running changed freed outcome g')
    (h' : g'.Freed running changed' freed' outcome' g'') :
    g.Freed running (changed ++ changed') (freed ++ freed') (outcome.merge outcome') g'' := by
  have hmet : ∀ b, b ∈ freed' ↔
      b ∉ freed ∧ ∃ src, g.code.arena.sourceOf b = some src ∧ src.meets changed' := fun b => by
    rw [h'.met, h.code.sourceOf]
    by_cases hb : b ∈ freed
    · simp [hb]
    · simp [hb]
  refine ⟨List.nodup_append.mpr ⟨h.nodup, h'.nodup, ?_⟩, fun b => ?_, ?_, ?_,
    h.code.append h'.code, fun a ha => ?_, fun a => (h'.accepts a).trans (h.accepts a)⟩
  · rintro b hb _ hb' rfl
    exact ((hmet b).mp hb').1 hb
  · rw [List.mem_append, hmet, h.met]
    constructor
    · rintro (⟨src, hs, hm⟩ | ⟨_, src, hs, hm⟩)
      · exact ⟨src, hs, Source.meets_append.mpr (Or.inl hm)⟩
      · exact ⟨src, hs, Source.meets_append.mpr (Or.inr hm)⟩
    · rintro ⟨src, hs, hm⟩
      by_cases hfirst : ∃ src, g.code.arena.sourceOf b = some src ∧ src.meets changed
      · exact Or.inl hfirst
      · refine Or.inr ⟨hfirst, src, hs, ?_⟩
        exact (Source.meets_append.mp hm).resolve_left fun hx => hfirst ⟨src, hs, hx⟩
  · rw [WriteResult.blocks_merge, h.blocks, h'.blocks, List.length_append]
  · rw [WriteResult.metRunning_merge, h.hit, h'.hit, List.any_append]
  · rw [List.mem_append, not_or] at ha
    exact (h'.read a ha.2).trans (h.read a ha.1)

end Freed

namespace Coherent

variable {l : Limits} {g : GuardedMemory} (h : g.Coherent l)

include h

/-- Within a page, what lies at the addresses of an access is what overlaps
it. -/
theorem meets_span_iff {width : Width} {addr : UInt32} (hc : crossesPage width addr = false)
    {b : BlockId} {src : Source} (hb : g.code.arena.sourceOf b = some src) :
    src.meets (span width addr) ↔
      src.page = pageOf addr ∧
        src.overlaps (offsetOf addr) (lastOf (offsetOf addr) width) = true := by
  have hpage := (h.store.translated b src hb).page
  have hstart : src.start.toNat = _ := toNat_addressOf src.first hpage
  have hstop : src.stop.toNat = _ := toNat_addressOf src.last hpage
  have hrange : src.first.val ≤ src.last.val := h.store.indexed.range b src hb
  have hsplit := pageOf_mul_add_offsetOf addr
  have hfits := fun i (hi : i ∈ List.range width.bytes) => Memory.lt_of_not_crosses hc hi
  have hlast := src.last.isLt
  have hbytes : 0 < width.bytes := by cases width <;> decide
  rw [Source.overlaps, Bool.and_eq_true, decide_eq_true_iff, decide_eq_true_iff]
  simp only [Fin.le_def, lastOf, Source.meets, span, List.mem_map, List.mem_range] at hfits ⊢
  constructor
  · rintro ⟨_, ⟨i, hi, rfl⟩, h1, h2⟩
    have hadd := toNat_add_of_lt (hfits i hi)
    have hlt := hfits i hi
    rw [UInt32.le_iff_toNat_le, hadd, hstart] at h1
    rw [UInt32.le_iff_toNat_le, hadd, hstop] at h2
    simp only [pageSize] at *
    omega
  · rintro ⟨hp, h1, h2⟩
    refine ⟨_, ⟨max src.first.val (offsetOf addr).val - (offsetOf addr).val, ?_, rfl⟩, ?_⟩
    · simp only [pageSize] at *
      omega
    · have hlt := hfits (max src.first.val (offsetOf addr).val - (offsetOf addr).val)
        (by simp only [pageSize] at *; omega)
      rw [UInt32.le_iff_toNat_le, UInt32.le_iff_toNat_le, toNat_add_of_lt hlt, hstart, hstop]
      simp only [pageSize] at *
      omega

theorem meets_span_iff_of_watch? {width : Width} {addr : UInt32}
    (hc : crossesPage width addr = false) {id : WatchId}
    (hid : g.memory.watch? (pageOf addr) = some id) {b : BlockId} {src : Source}
    (hb : g.code.arena.sourceOf b = some src) :
    src.meets (span width addr) ↔
      src.watch = id ∧ src.overlaps (offsetOf addr) (lastOf (offsetOf addr) width) = true := by
  rw [h.meets_span_iff hc hb, h.watch_eq_iff hid hb]

omit h in
theorem noteChanges {id : WatchId} (h : g.Coherent l) (hid : id ∈ g.code.watches.used)
    (first last : Offset) :
    let w := (g.code.watches.watch id).noteChanges first last
    ({ g with code := { g.code with watches := g.code.watches.set id w } } :
      GuardedMemory).Coherent l := by
  refine h.setWatch hid ?_ rfl
  obtain ⟨h1, h2, h3, h4⟩ := h.store.indexed.indexes id
  exact ⟨h1, h2, h3, h4⟩

end Coherent

/-- What goes to make way for a value that differs from what memory holds: the
number of blocks, whether the running one is among them, and the code that is
left. -/
def tear (g : GuardedMemory) (width : Width) (addr : UInt32) (running : Option BlockId) :
    Nat × Bool × CodeStore :=
  match g.memory.watch? (pageOf addr) with
  | none => (0, false, g.code)
  | some id =>
      let first := offsetOf addr
      let last := lastOf first width
      let w := g.code.watches.watch id
      if w.coverageBetween (bucketOf first) (bucketOf last) = 0 then (0, false, g.code)
      else
        ({ g.code with watches := g.code.watches.set id (w.noteChanges first last) } :
          CodeStore).invalidate id first last running

theorem writeWithin_of_same {g : GuardedMemory} {width : Width} {addr value : UInt32}
    (running : Option BlockId)
    (hn : ¬(g.memory.accepts addr &&
      g.memory.readWidth width addr ≠ width.truncate value) = true) :
    g.writeWithin width addr value running = (.ignored, g) ∨
      g.writeWithin width addr value running = (.unchanged, g) := by
  unfold writeWithin
  simp only
  split
  · exact Or.inl rfl
  · next hin =>
      split
      · exact Or.inr rfl
      · next hdiff =>
          refine absurd ?_ hn
          rw [Bool.or_eq_true, not_or, Bool.not_eq_true', Bool.not_eq_false] at hin
          simp [Memory.accepts, hin.1, hin.2, hdiff]

namespace Coherent

variable {l : Limits} {g : GuardedMemory} (h : g.Coherent l)

include h

theorem frees_tear {width : Width} {addr : UInt32} (hc : crossesPage width addr = false)
    (running : Option BlockId) :
    ∃ freed : List BlockId, freed.Nodup ∧
      (∀ b, b ∈ freed ↔ ∃ src, g.code.arena.sourceOf b = some src ∧
        src.meets (span width addr)) ∧
      (g.tear width addr running).1 = freed.length ∧
      (g.tear width addr running).2.1 = freed.any (fun b => running = some b) ∧
      g.code.Frees freed (g.tear width addr running).2.2 := by
  have hnone (hn : ∀ b src, g.code.arena.sourceOf b = some src → ¬src.meets (span width addr)) :
      ∀ b, b ∈ ([] : List BlockId) ↔ ∃ src, g.code.arena.sourceOf b = some src ∧
        src.meets (span width addr) := fun b => by
    refine ⟨fun hb => absurd hb List.not_mem_nil, ?_⟩
    rintro ⟨src, hs, hm⟩
    exact absurd hm (hn b src hs)
  unfold tear
  cases hid : g.memory.watch? (pageOf addr) with
  | none =>
      refine ⟨[], List.nodup_nil, hnone fun b src hb hm => ?_, rfl, rfl, .refl _⟩
      have := h.watch?_page hb
      rw [((h.meets_span_iff hc hb).mp hm).1, hid] at this
      cases this
  | some id =>
      have hused := ((h.mapped _ _).mp hid).1
      have hfl := le_lastOf (offsetOf addr) width
      have hmeets := fun b src (hb : g.code.arena.sourceOf b = some src) =>
        h.meets_span_iff_of_watch? hc hid hb
      simp only
      split
      · next hcount =>
          refine ⟨[], List.nodup_nil, hnone fun b src hb hm => ?_, rfl, rfl, .refl _⟩
          obtain ⟨hw, ho⟩ := (hmeets b src hb).mp hm
          rw [h.not_overlaps hfl hcount hb hw] at ho
          cases ho
      · have hnoted := (h.noteChanges hused (offsetOf addr) (lastOf (offsetOf addr) width)).store
        have hlt := h.lt_capacity hused
        rw [← Watches.capacity_set] at hlt
        obtain ⟨freed, hnodup, hids, hn, hr, hfrees⟩ := hnoted.frees_invalidate hlt hfl running
        refine ⟨freed, hnodup, fun b => (hids b).trans ?_, hn, hr, ?_⟩
        · refine exists_congr fun src => and_congr_right fun hs => ?_
          exact (hmeets b src hs).symm
        · have hset := CodeStore.Frees.set (s := g.code) (h.lt_capacity hused)
            (w := (g.code.watches.watch id).noteChanges (offsetOf addr)
              (lastOf (offsetOf addr) width)) fun _ => rfl
          exact hset.append hfrees

/-- A write within a page that changes bytes tears down what is in its way, and
on top of that at most lets a watch go that lists nothing. -/
theorem writeWithin_of_changes {width : Width} {addr value : UInt32}
    (hin : g.memory.accepts addr = true)
    (hdiff : g.memory.readWidth width addr ≠ width.truncate value) (running : Option BlockId) :
    (g.writeWithin width addr value running).1.blocks = (g.tear width addr running).1 ∧
      (g.writeWithin width addr value running).1.metRunning = (g.tear width addr running).2.1 ∧
      (g.tear width addr running).2.2.Frees [] (g.writeWithin width addr value running).2.code := by
  have hstored : ¬(!g.memory.contains addr || g.memory.isRom (pageOf addr)) = true := by
    rw [Memory.accepts, Bool.and_eq_true, Bool.not_eq_true'] at hin
    simp [hin.1, hin.2]
  unfold GuardedMemory.writeWithin tear
  simp only
  rw [if_neg hstored, if_neg hdiff]
  cases hid : g.memory.watch? (pageOf addr) with
  | none => exact ⟨rfl, rfl, .refl _⟩
  | some id =>
      have hlt := h.lt_capacity ((h.mapped _ _).mp hid).1
      simp only [GuardedMemory.writeWatched, ne_eq, ite_not]
      split
      · split
        · next hactive =>
            split
            · refine ⟨rfl, rfl, .of_lists fun x k => ?_⟩
              show (((g.code.watches.set id _).set id _).watch x).buckets[k.val] = _
              rw [Watches.set_set, Watches.watch_set _ _ _ _ hlt]
              split
              · next he =>
                  subst he
                  rw [(h.store.indexed.indexes id).buckets_eq_nil hactive k]
                  simp [Watch.fresh]
              · rfl
            · exact ⟨rfl, rfl, .set hlt fun _ => rfl⟩
        · exact ⟨rfl, rfl, .refl _⟩
      · exact ⟨rfl, rfl, .refl _⟩

/-- **A write within a page frees exactly the blocks that were compiled from a
byte it changes.** -/
theorem freed_writeWithin {width : Width} {addr : UInt32} (hc : crossesPage width addr = false)
    (value : UInt32) (running : Option BlockId) :
    ∃ freed, g.Freed running (g.memory.changedBy width addr value) freed
      (g.writeWithin width addr value running).1 (g.writeWithin width addr value running).2 := by
  have hbare := bare_writeWithin g hc value running
  have hread : ∀ a, a ∉ g.memory.changedBy width addr value →
      (g.writeWithin width addr value running).2.memory.read a = g.memory.read a := fun a ha => by
    rw [← Memory.read_bare, hbare, Memory.read_writeWidth hc, Memory.read_bare]
    rwa [Memory.changedBy_bare]
  have haccepts : ∀ a, (g.writeWithin width addr value running).2.memory.accepts a =
      g.memory.accepts a := fun a => by
    rw [← Memory.accepts_bare, hbare, Memory.accepts_writeWidth hc, Memory.accepts_bare]
  by_cases hchanges : (g.memory.accepts addr &&
      g.memory.readWidth width addr ≠ width.truncate value) = true
  · rw [Memory.changedBy_of_within hc, if_pos hchanges] at hread ⊢
    rw [Bool.and_eq_true, decide_eq_true_iff] at hchanges
    obtain ⟨freed, hnodup, hmet, hn, hr, hfrees⟩ := h.frees_tear hc running
    obtain ⟨hblocks, hhit, hcode⟩ := h.writeWithin_of_changes hchanges.1 hchanges.2 running
    have hall := hfrees.append hcode
    rw [List.append_nil] at hall
    exact ⟨freed, hnodup, hmet, hblocks.trans hn, hhit.trans hr, hall, hread, haccepts⟩
  · rw [Memory.changedBy_of_within hc, if_neg hchanges]
    rcases writeWithin_of_same running hchanges with hsame | hsame
    · rw [hsame]
      exact ⟨[], .refl g rfl rfl⟩
    · rw [hsame]
      exact ⟨[], .refl g rfl rfl⟩

end Coherent

/-! ## Over the edge of a page -/

/-- A write once the first bytes of the value are written, each by itself. -/
def writeBytes (g : GuardedMemory) (addr value : UInt32) (running : Option BlockId) (n : Nat) :
    WriteResult × GuardedMemory :=
  (List.range n).foldl
    (fun (outcome, g) i =>
      let (part, g) := g.writeWithin .byte (addr + i.toUInt32) (byteAt value i).toUInt32 running
      (outcome.merge part, g))
    (.ignored, g)

theorem writeBytes_succ (g : GuardedMemory) (addr value : UInt32) (running : Option BlockId)
    (n : Nat) :
    g.writeBytes addr value running (n + 1) =
      let (outcome, g) := g.writeBytes addr value running n
      let (part, g) := g.writeWithin .byte (addr + n.toUInt32) (byteAt value n).toUInt32 running
      (outcome.merge part, g) := by
  rw [writeBytes, List.range_succ, List.foldl_append, ← writeBytes]
  rfl

theorem write_of_crosses (g : GuardedMemory) {width : Width} {addr : UInt32}
    (hc : crossesPage width addr = true) (value : UInt32) (running : Option BlockId) :
    g.write width addr value running = g.writeBytes addr value running width.bytes :=
  if_pos hc

theorem write_of_within (g : GuardedMemory) {width : Width} {addr : UInt32}
    (hc : crossesPage width addr = false) (value : UInt32) (running : Option BlockId) :
    g.write width addr value running = g.writeWithin width addr value running :=
  if_neg (Bool.eq_false_iff.mp hc)

namespace Coherent

variable {l : Limits} {g : GuardedMemory} (h : g.Coherent l)

include h

/-- Byte by byte, what was to change in the whole is what is to change yet. -/
theorem freed_writeBytes (addr value : UInt32) (running : Option BlockId) {n : Nat} (hn : n ≤ 4) :
    (g.writeBytes addr value running n).2.Coherent l ∧
      ∃ freed, g.Freed running (g.memory.changedBytes addr value n) freed
        (g.writeBytes addr value running n).1 (g.writeBytes addr value running n).2 := by
  induction n with
  | zero => exact ⟨h, [], .refl g rfl rfl⟩
  | succ n ih =>
      obtain ⟨hc, freed, hfreed⟩ := ih (Nat.le_of_succ_le hn)
      obtain ⟨freed', hfreed'⟩ := hc.freed_writeWithin (crossesPage_byte (addr + n.toUInt32))
        (byteAt value n).toUInt32 running
      rw [Memory.changedBy_byte, hfreed.accepts,
        hfreed.read _ (g.memory.add_not_mem_changedBytes addr value hn)] at hfreed'
      have hall := hfreed.append hfreed'
      rw [← Memory.changedBytes_succ] at hall
      rw [writeBytes_succ]
      exact ⟨(hc.writeWithin (crossesPage_byte _) _ running).coherent, _, hall⟩

/-- **A write frees exactly the blocks that were compiled from a byte it
changes.** -/
theorem freed_write (width : Width) (addr value : UInt32) (running : Option BlockId) :
    ∃ freed, g.Freed running (g.memory.changedBy width addr value) freed
      (g.write width addr value running).1 (g.write width addr value running).2 := by
  cases hc : crossesPage width addr with
  | false =>
      rw [write_of_within g hc]
      exact h.freed_writeWithin hc value running
  | true =>
      rw [write_of_crosses g hc, Memory.changedBy, if_pos hc]
      exact (h.freed_writeBytes addr value running width.bytes_le).2

end Coherent

/-! ## On the way -/

/-- What a write within a page goes through: blocks are freed, the bytes are
stored one by one, and an idle watch may go. -/
def courseWithin (g : GuardedMemory) (width : Width) (addr value : UInt32)
    (running : Option BlockId) : List GuardedMemory :=
  let stored :=
    if (g.memory.changedBy width addr value).isEmpty then []
    else
      (List.range (width.bytes + 1)).map fun n =>
        { code := (g.tear width addr running).2.2
          memory := g.memory.storeBytes addr (width.truncate value) n }
  g :: stored ++ [(g.writeWithin width addr value running).2]

/-- What a write goes through, from the state it finds to the one it leaves. -/
def course (g : GuardedMemory) (width : Width) (addr value : UInt32)
    (running : Option BlockId) : List GuardedMemory :=
  if crossesPage width addr then
    (List.range width.bytes).flatMap fun n =>
      (g.writeBytes addr value running n).2.courseWithin .byte (addr + n.toUInt32)
        (byteAt value n).toUInt32 running
  else g.courseWithin width addr value running

/-- Blocks may have gone; of those left, memory holds what it held where they
were compiled from. -/
def Spares (g g' : GuardedMemory) : Prop :=
  ∀ b src, g'.code.arena.sourceOf b = some src →
    g.code.arena.sourceOf b = some src ∧
      ∀ a, src.start ≤ a → a ≤ src.stop → g'.memory.read a = g.memory.read a

namespace Spares

variable {g g' g'' : GuardedMemory}

theorem refl (g : GuardedMemory) : g.Spares g := fun _ _ h => ⟨h, fun _ _ _ => rfl⟩

theorem trans (h : g.Spares g') (h' : g'.Spares g'') : g.Spares g'' := by
  intro b src hb
  obtain ⟨hb, hr'⟩ := h' b src hb
  obtain ⟨hb, hr⟩ := h b src hb
  exact ⟨hb, fun a h1 h2 => (hr' a h1 h2).trans (hr a h1 h2)⟩

/-- Where the blocks are freed that lie at some addresses, the bytes there may
change. -/
theorem of_frees {freed : List BlockId} {addrs : List UInt32}
    (hmet : ∀ b, b ∈ freed ↔ ∃ src, g.code.arena.sourceOf b = some src ∧ src.meets addrs)
    (hf : g.code.Frees freed g'.code)
    (hr : ∀ a, a ∉ addrs → g'.memory.read a = g.memory.read a) : g.Spares g' := by
  intro b src hb
  rw [hf.sourceOf] at hb
  split at hb
  · cases hb
  · next hn =>
      exact ⟨hb, fun a h1 h2 => hr a fun ha => hn ((hmet b).mpr ⟨src, hb, a, ha, h1, h2⟩)⟩

end Spares

theorem Freed.spares {running : Option BlockId} {g g' : GuardedMemory} {changed : List UInt32}
    {freed : List BlockId} {outcome : WriteResult}
    (h : g.Freed running changed freed outcome g') : g.Spares g' :=
  .of_frees h.met h.code h.read

theorem getLast?_course (g : GuardedMemory) (width : Width) (addr value : UInt32)
    (running : Option BlockId) :
    (g.course width addr value running).getLast? = some (g.write width addr value running).2 := by
  have hwithin : ∀ (g : GuardedMemory) width addr value,
      (g.courseWithin width addr value running).getLast? =
        some (g.writeWithin width addr value running).2 :=
    fun g width addr value => List.getLast?_concat ..
  unfold course
  cases hc : crossesPage width addr with
  | false =>
      rw [write_of_within g hc]
      exact hwithin g width addr value
  | true =>
      obtain ⟨n, hn⟩ : ∃ n, width.bytes = n + 1 := by cases width <;> exact ⟨_, rfl⟩
      rw [write_of_crosses g hc, hn, if_pos rfl, List.range_succ, List.flatMap_append,
        List.flatMap_singleton, List.getLast?_append, hwithin, Option.some_or, writeBytes_succ]

namespace Coherent

variable {l : Limits} {g : GuardedMemory} (h : g.Coherent l)

include h

theorem spares_courseWithin {width : Width} {addr : UInt32} (hc : crossesPage width addr = false)
    (value : UInt32) (running : Option BlockId) {x : GuardedMemory}
    (hx : x ∈ g.courseWithin width addr value running) : g.Spares x := by
  obtain ⟨freed, hfreed⟩ := h.freed_writeWithin hc value running
  rw [courseWithin, List.mem_append, List.mem_cons, List.mem_singleton] at hx
  rcases hx with (rfl | hx) | rfl
  · exact .refl x
  · split at hx
    · cases hx
    · obtain ⟨n, hn, rfl⟩ := List.mem_map.mp hx
      obtain ⟨freed, _, hmet, _, _, hfrees⟩ := h.frees_tear hc running
      refine .of_frees hmet hfrees fun a ha => ?_
      exact g.memory.read_storeBytes width addr _ (Nat.le_of_lt_succ (List.mem_range.mp hn)) ha
  · exact hfreed.spares

/-- **No byte is stored that a live block was compiled from,** at any time
during a write. -/
theorem spares_course (width : Width) (addr value : UInt32) (running : Option BlockId)
    {x : GuardedMemory} (hx : x ∈ g.course width addr value running) : g.Spares x := by
  unfold course at hx
  cases hc : crossesPage width addr with
  | false =>
      rw [hc] at hx
      exact h.spares_courseWithin hc value running hx
  | true =>
      rw [hc, if_pos rfl, List.mem_flatMap] at hx
      obtain ⟨n, hn, hx⟩ := hx
      have hn4 := Nat.le_trans (Nat.le_of_lt (List.mem_range.mp hn)) width.bytes_le
      obtain ⟨hcoherent, freed, hfreed⟩ := h.freed_writeBytes addr value running hn4
      exact hfreed.spares.trans
        (hcoherent.spares_courseWithin (crossesPage_byte _) _ running hx)

end Coherent

end GuardedMemory

end Recompiler
