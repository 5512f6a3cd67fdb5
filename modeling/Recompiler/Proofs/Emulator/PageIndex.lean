import Recompiler.Proofs.Emulator.History

/-!
# The index of watched pages

Blocks are found through the lists of the watch of their page.  A compiled block
is listed once in all of them, where its source starts, and the counts of a
watch are those of its lists; so a look-up finds what is compiled at an address
and nothing else, and a write that the counts pass over meets no code.
-/

namespace Recompiler

namespace Emulator

def listed (e : Emulator) : List BlockId :=
  e.watches.used.flatMap fun id => (e.watches.watch id).blocks

/-- What the watches of an emulator index. -/
structure PageIndex (e : Emulator) : Prop where
  /-- The watches in use are those of the watched pages, one of each. -/
  installed : ∀ page id, e.memory.watch? page = some id ↔
    id ∈ e.watches.used ∧ (e.watches.watch id).page = page
  /-- A block is listed where its source starts, on the watch of its page. -/
  bucket : ∀ id ∈ e.watches.used, ∀ (k : Bucket) b,
    b ∈ getElem (e.watches.watch id).buckets k.val k.isLt ↔
      e.arena.isLive b = true ∧ ∃ src, e.arena.sourceOf b = some src ∧ src.watch = id ∧
        src.page = (e.watches.watch id).page ∧ bucketOf src.first = k
  once : ∀ b, e.listed.count b = if e.arena.isLive b then 1 else 0
  /-- The buckets of a source are those of its first and last address. -/
  range : ∀ b src, e.arena.sourceOf b = some src →
    src.buckets = (bucketOf (offsetOf src.start), bucketOf (offsetOf src.stop)) ∧
      src.buckets.1 ≤ src.buckets.2
  coverage : ∀ id ∈ e.watches.used, ∀ k : Bucket,
    getElem (e.watches.watch id).coverage k.val k.isLt =
    (e.watches.watch id).blocks.countP fun b =>
      (e.arena.sourceOf b).any fun src => src.buckets.1 ≤ k && k ≤ src.buckets.2
  active : ∀ id ∈ e.watches.used,
    (e.watches.watch id).active = (e.watches.watch id).blocks.length
  /-- A compiled block is listed on one watch. -/
  one : ∀ b, e.arena.isLive b = true →
    ∃! id, id ∈ e.watches.used ∧ b ∈ (e.watches.watch id).blocks
  unique : ∀ b c src src', e.arena.sourceOf b = some src → e.arena.sourceOf c = some src' →
    src.start = src'.start → b = c
  /-- A look-up finds the block compiled from an address. -/
  found : ∀ addr b, e.find? addr = some b ↔
    e.arena.isLive b = true ∧ ∃ src, e.arena.sourceOf b = some src ∧ src.start = addr
  missed : ∀ addr, e.find? addr = none ↔
    ¬∃ b src, e.arena.isLive b = true ∧ e.arena.sourceOf b = some src ∧ src.start = addr

namespace Coherent

variable {e : Emulator} (h : e.Coherent)

include h

theorem isLive_of_source {b : BlockId} {src : Source} (hb : e.arena.sourceOf b = some src) :
    e.arena.isLive b = true :=
  h.guarded.store.isLive_of_source hb

theorem source_of_isLive {b : BlockId} (hb : e.arena.isLive b = true) :
    ∃ src, e.arena.sourceOf b = some src :=
  Option.isSome_iff_exists.mp ((h.guarded.store.indexed.live b).symm.trans hb)

theorem mem_blocks_iff {id : WatchId} {b : BlockId} :
    b ∈ (e.watches.watch id).blocks ↔ ∃ src, e.arena.sourceOf b = some src ∧ src.watch = id :=
  (h.guarded.store.indexed.indexes id).mem_blocks_iff

/-- What is listed is what is compiled. -/
theorem mem_listed_iff {b : BlockId} : b ∈ e.listed ↔ e.arena.isLive b = true := by
  rw [listed, List.mem_flatMap]
  constructor
  · rintro ⟨id, _, hb⟩
    obtain ⟨src, hs, _⟩ := h.mem_blocks_iff.mp hb
    exact h.isLive_of_source hs
  · intro hb
    obtain ⟨src, hs⟩ := h.source_of_isLive hb
    exact ⟨src.watch, h.guarded.store.indexed.used b src hs, h.mem_blocks_iff.mpr ⟨src, hs, rfl⟩⟩

/-- Nothing is listed twice, on one watch or on two. -/
theorem nodup_listed : e.listed.Nodup := by
  have hindexed := h.guarded.store.indexed
  rw [listed, List.nodup_flatMap]
  refine ⟨fun id _ => (hindexed.indexes id).nodup_blocks, ?_⟩
  refine (List.nodup_append.mp hindexed.nodup).2.1.imp fun {id id'} hne b hb hb' => ?_
  obtain ⟨src, hs, rfl⟩ := h.mem_blocks_iff.mp hb
  obtain ⟨src', hs', rfl⟩ := h.mem_blocks_iff.mp hb'
  exact hne (congrArg Source.watch (Option.some.inj (hs.symm.trans hs')))

theorem count_listed (b : BlockId) :
    e.listed.count b = if e.arena.isLive b then 1 else 0 := by
  split
  · next hb => exact List.count_eq_one_of_mem h.nodup_listed (h.mem_listed_iff.mpr hb)
  · next hb => exact List.count_eq_zero.mpr fun hm => hb (h.mem_listed_iff.mp hm)

theorem buckets_eq {b : BlockId} {src : Source} (hb : e.arena.sourceOf b = some src) :
    src.buckets = (bucketOf (offsetOf src.start), bucketOf (offsetOf src.stop)) := by
  have hpage := (h.guarded.store.translated b src hb).page
  rw [Source.start, Source.stop, offsetOf_addressOf _ hpage, offsetOf_addressOf _ hpage]
  rfl

theorem pageIndex : e.PageIndex := by
  have hindexed := h.guarded.store.indexed
  have hlive : ∀ {b : BlockId} {P : Source → Prop},
      (e.arena.isLive b = true ∧ ∃ src, e.arena.sourceOf b = some src ∧ P src) ↔
        ∃ src, e.arena.sourceOf b = some src ∧ P src := fun {b P} =>
    ⟨And.right, fun ⟨src, hs, hp⟩ => ⟨h.isLive_of_source hs, src, hs, hp⟩⟩
  refine
    { installed := h.guarded.mapped
      bucket := fun id _ k b => ?bucket
      once := h.count_listed
      range := fun b src hs => ⟨h.buckets_eq hs, bucketOf_mono (hindexed.range b src hs)⟩
      coverage := fun id _ k => (hindexed.indexes id).coverage k
      active := fun id _ => (hindexed.indexes id).active
      one := fun b hb => ?one
      unique := fun b c src src' hs hs' => h.start_inj hs hs'
      found := fun addr b => h.find?_eq_some_iff.trans hlive.symm
      missed := fun addr => ?missed }
  case bucket =>
    rw [hlive]
    refine ((hindexed.indexes id).listed k b).trans (exists_congr fun src => ?_)
    refine and_congr_right fun hs => and_congr_right fun hw => ?_
    exact (and_iff_right (hw ▸ hindexed.page b src hs)).symm
  case one =>
    obtain ⟨src, hs⟩ := h.source_of_isLive hb
    refine ⟨src.watch, ⟨hindexed.used b src hs, h.mem_blocks_iff.mpr ⟨src, hs, rfl⟩⟩, ?_⟩
    rintro id ⟨_, hid⟩
    obtain ⟨src', hs', rfl⟩ := h.mem_blocks_iff.mp hid
    rw [Option.some.inj (hs.symm.trans hs')]
  case missed =>
    rw [Option.eq_none_iff_forall_ne_some, not_exists]
    refine forall_congr' fun b => ?_
    rw [ne_eq, h.find?_eq_some_iff, not_iff_not]
    exact exists_congr fun src =>
      ⟨fun ⟨hs, ha⟩ => ⟨h.isLive_of_source hs, hs, ha⟩, And.right⟩

end Coherent

/-- **The index of watched pages is exact,** whatever was done before. -/
theorem pageIndex_of_reached {allowed : Action → Prop} {e : Emulator} (h : Reached allowed e) :
    e.PageIndex :=
  h.coherent.pageIndex

/-- Two blocks of one page, one of which was written to and is compiled
anew. -/
theorem pageIndex_of_two_blocks :
    ∃ e, Reached (fun _ => True) e ∧ e.find? 0 = some ⟨4⟩ ∧ e.find? 16 = some ⟨3⟩ ∧
      e.find? 1 = none ∧ e.PageIndex := by
  obtain ⟨e, he, hfind⟩ := exists_of_succeeds
    (p := fun e => e.find? 0 = some ⟨4⟩ ∧ e.find? 16 = some ⟨3⟩ ∧ e.find? 1 = none)
    (x := zeroed.performAll [.fetch 0, .fetch 16, .write .byte 0 0xC3, .fetch 16, .fetch 0])
    (by decide +kernel)
  have h : Reached (fun _ => True) e :=
    Reached.performAll (fun _ _ => trivial) (.new unwatched_zeroed new_zeroed) he
  obtain ⟨h0, h16, h1⟩ := of_decide_eq_true hfind
  exact ⟨e, h, h0, h16, h1, pageIndex_of_reached h⟩

end Emulator

end Recompiler
