import Recompiler.Proofs.Guarded.Freed

/-!
# What a range invalidation frees

A range of addresses is gone through page by page, each page with the part of the
range that lies in it.  All in all the blocks go whose source has an address in the
range, over however many pages it reaches, and no others.
-/

namespace Recompiler

theorem offsetOf_zero : offsetOf 0 = 0 := rfl

namespace Source

/-- Whether the source has an address in the range from `start` to `stop`. -/
def reaches (s : Source) (start stop : UInt32) : Prop :=
  start ≤ stop ∧ s.start ≤ stop ∧ start ≤ s.stop

end Source

namespace GuardedMemory

def firstIn (start : UInt32) (page : Nat) : Offset :=
  if page = pageOf start then offsetOf start else offsetOf 0

def lastIn (stop : UInt32) (page : Nat) : Offset :=
  if page = pageOf stop then offsetOf stop else Fin.last (pageSize - 1)

def sweepPage (start stop : UInt32) (running : Option BlockId)
    (r : Nat × Bool × GuardedMemory) (page : Nat) : Nat × Bool × GuardedMemory :=
  match r.2.2.memory.watch? page with
  | none => r
  | some id =>
      let s := r.2.2.code.invalidate id (firstIn start page) (lastIn stop page) running
      (r.1 + s.1, r.2.1 || s.2.1, { r.2.2 with code := s.2.2 })

def sweep (g : GuardedMemory) (start stop : UInt32) (running : Option BlockId) (n : Nat) :
    Nat × Bool × GuardedMemory :=
  (List.range' (pageOf start) n).foldl (sweepPage start stop running) (0, false, g)

theorem sweep_succ (g : GuardedMemory) (start stop : UInt32) (running : Option BlockId) (n : Nat) :
    g.sweep start stop running (n + 1) =
      sweepPage start stop running (g.sweep start stop running n) (pageOf start + n) := by
  rw [sweep, List.range'_1_concat, List.foldl_append, ← sweep]
  rfl

theorem invalidate_eq_sweep (g : GuardedMemory) {start stop : UInt32} (h : ¬stop < start)
    (running : Option BlockId) :
    g.invalidate start stop running =
      g.sweep start stop running
        (min (pageOf stop + 1) g.memory.pageCount - pageOf start) := by
  unfold invalidate
  rw [if_neg h]
  refine congrArg (fun f => List.foldl f (0, false, g) _) (funext fun r => funext fun page => ?_)
  obtain ⟨freed, hit, m⟩ := r
  unfold sweepPage
  cases hw : m.memory.watch? page with
  | none => simp only [hw]
  | some id =>
      simp only [hw]
      rfl

theorem firstIn_le_lastIn {start stop : UInt32} (h : ¬stop < start) (page : Nat) :
    firstIn start page ≤ lastIn stop page := by
  unfold firstIn lastIn
  split
  · next h1 =>
      split
      · next h2 => exact offsetOf_le h (h1.symm.trans h2)
      · exact Fin.le_last _
  · exact Fin.zero_le _

/-- What is left once the blocks of some pages of a range are freed. -/
structure Swept (l : Limits) (g : GuardedMemory) (start stop : UInt32) (running : Option BlockId)
    (pages : Nat → Prop) (freed : List BlockId) (r : Nat × Bool × GuardedMemory) : Prop where
  nodup : freed.Nodup
  met : ∀ b, b ∈ freed ↔ ∃ src, g.code.arena.sourceOf b = some src ∧
    src.reaches start stop ∧ pages src.page
  blocks : r.1 = freed.length
  hit : r.2.1 = freed.any fun b => running = some b
  coherent : r.2.2.Coherent l
  frees : g.code.Frees freed r.2.2.code
  memory : r.2.2.memory = g.memory

namespace Coherent

variable {l : Limits} {g : GuardedMemory} (h : g.Coherent l)

include h

/-- On a page that a range has a part in, what reaches the range is what overlaps
that part. -/
theorem reaches_iff {start stop : UInt32} (hle : ¬stop < start) {b : BlockId} {src : Source}
    (hb : g.code.arena.sourceOf b = some src) (h1 : pageOf start ≤ src.page)
    (h2 : src.page ≤ pageOf stop) :
    src.reaches start stop ↔
      src.overlaps (firstIn start src.page) (lastIn stop src.page) = true := by
  have hpage := (h.store.translated b src hb).page
  have hfirst : src.start.toNat = _ := toNat_addressOf src.first hpage
  have hlast : src.stop.toNat = _ := toNat_addressOf src.last hpage
  have hstart := pageOf_mul_add_offsetOf start
  have hstop := pageOf_mul_add_offsetOf stop
  have hin := src.first.isLt
  have hout := (offsetOf start).isLt
  have hfit := src.last.isLt
  rw [Source.reaches, Source.overlaps, Bool.and_eq_true, decide_eq_true_iff, decide_eq_true_iff,
    Fin.le_def, Fin.le_def, UInt32.le_iff_toNat_le, UInt32.le_iff_toNat_le,
    UInt32.le_iff_toNat_le, hfirst, hlast]
  have hle : start.toNat ≤ stop.toNat := Nat.le_of_not_lt hle
  unfold firstIn lastIn
  simp only [pageSize] at *
  by_cases hs : src.page = pageOf start
  · by_cases hp : src.page = pageOf stop
    · rw [if_pos hs, if_pos hp]
      omega
    · rw [if_pos hs, if_neg hp, Fin.val_last]
      omega
  · by_cases hp : src.page = pageOf stop
    · rw [if_neg hs, if_pos hp, offsetOf_zero, Fin.val_zero]
      omega
    · rw [if_neg hs, if_neg hp, offsetOf_zero, Fin.val_zero, Fin.val_last]
      omega

/-- On such a page, the blocks of its watch that overlap the part are those of the
page that reach the range. -/
theorem watch_and_overlaps_iff {start stop : UInt32} (hle : ¬stop < start) {page : Nat}
    (h1 : pageOf start ≤ page) (h2 : page ≤ pageOf stop) {id : WatchId}
    (hw : g.memory.watch? page = some id) {b : BlockId} {src : Source}
    (hb : g.code.arena.sourceOf b = some src) :
    src.watch = id ∧ src.overlaps (firstIn start page) (lastIn stop page) = true ↔
      src.reaches start stop ∧ src.page = page := by
  have hpage := h.watch_eq_iff hw hb
  constructor
  · rintro ⟨hwatch, ho⟩
    obtain rfl := hpage.mp hwatch
    exact ⟨(h.reaches_iff hle hb h1 h2).mpr ho, rfl⟩
  · rintro ⟨hreach, rfl⟩
    exact ⟨hpage.mpr rfl, (h.reaches_iff hle hb h1 h2).mp hreach⟩

theorem page_of_reaches {start stop : UInt32} {b : BlockId} {src : Source}
    (hb : g.code.arena.sourceOf b = some src) (hr : src.reaches start stop) :
    pageOf start ≤ src.page ∧ src.page ≤ pageOf stop ∧ src.page < g.memory.pageCount := by
  have hpage := (h.store.translated b src hb).page
  have hfirst : src.start.toNat = _ := toNat_addressOf src.first hpage
  have hlast : src.stop.toNat = _ := toNat_addressOf src.last hpage
  have hstart := pageOf_mul_add_offsetOf start
  have hstop := pageOf_mul_add_offsetOf stop
  have hfit := src.last.isLt
  have hout := (offsetOf stop).isLt
  obtain ⟨-, h1, h2⟩ := hr
  rw [UInt32.le_iff_toNat_le, hfirst] at h1
  rw [UInt32.le_iff_toNat_le, hlast] at h2
  simp only [pageSize] at *
  exact ⟨by omega, by omega, Memory.lt_pageCount_of_watch? (h.watch?_page hb)⟩

/-- Of the blocks of one page those go that reach the range. -/
theorem frees_sweepPage {start stop : UInt32} (hle : ¬stop < start) (running : Option BlockId)
    {page : Nat} (h1 : pageOf start ≤ page) (h2 : page ≤ pageOf stop) (n : Nat) (hit : Bool) :
    ∃ (ids : List BlockId) (g' : GuardedMemory),
      sweepPage start stop running (n, hit, g) page =
        (n + ids.length, hit || ids.any (fun b => running = some b), g') ∧
      ids.Nodup ∧
      (∀ b, b ∈ ids ↔ ∃ src, g.code.arena.sourceOf b = some src ∧
        src.reaches start stop ∧ src.page = page) ∧
      g'.Coherent l ∧ g.code.Frees ids g'.code ∧ g'.memory = g.memory := by
  unfold sweepPage
  cases hw : g.memory.watch? page with
  | none =>
      refine ⟨[], g, ?_, List.nodup_nil, fun b => ⟨fun hb => absurd hb List.not_mem_nil, ?_⟩, h,
        .refl _, rfl⟩
      · simp only [List.any_nil, Bool.or_false]
        rfl
      · rintro ⟨src, hs, _, rfl⟩
        have hwatch := h.watch?_page hs
        rw [hw] at hwatch
        cases hwatch
  | some id =>
      have hfl := firstIn_le_lastIn hle page
      have hused := ((h.mapped _ _).mp hw).1
      obtain ⟨ids, hnodup, hids, hcount, hhit, hfrees⟩ :=
        h.store.frees_invalidate (h.lt_capacity hused) hfl running
      refine ⟨ids, _, ?_, hnodup, fun b => (hids b).trans ?_,
        (h.invalidate hw hfl (.refl _) running).coherent, hfrees, rfl⟩
      · simp only
        rw [hcount, hhit]
      · exact exists_congr fun src => and_congr_right fun hs =>
          h.watch_and_overlaps_iff hle h1 h2 hw hs

omit h in
theorem swept_succ {start stop : UInt32} (hle : ¬stop < start) {running : Option BlockId} {n : Nat}
    (hn : pageOf start + n ≤ pageOf stop) {freed : List BlockId}
    {r : Nat × Bool × GuardedMemory}
    (hr : Swept l g start stop running (fun p => p < pageOf start + n) freed r) :
    ∃ freed, Swept l g start stop running (fun p => p < pageOf start + n + 1) freed
      (sweepPage start stop running r (pageOf start + n)) := by
  obtain ⟨count, hit, g'⟩ := r
  obtain ⟨ids, g'', heq, hnodup, hids, hcoherent, hfrees, hmemory⟩ :=
    hr.coherent.frees_sweepPage hle running (Nat.le_add_right ..) hn count hit
  -- A block lies on one page, so those that go now were there from the start.
  have hpage : ∀ b, b ∈ ids ↔ ∃ src, g.code.arena.sourceOf b = some src ∧
      src.reaches start stop ∧ src.page = pageOf start + n := by
    intro b
    rw [hids, hr.frees.sourceOf]
    split
    · next hgone =>
        obtain ⟨src, hs, _, hlt⟩ := (hr.met b).mp hgone
        constructor
        · rintro ⟨_, hnone, _⟩
          cases hnone
        · rintro ⟨t, ht, _, he⟩
          obtain rfl : src = t := Option.some.inj (hs.symm.trans ht)
          exact absurd hlt (he ▸ Nat.lt_irrefl _)
    · exact Iff.rfl
  have hdisjoint : ∀ b ∈ freed, b ∉ ids := by
    intro b hb hb'
    obtain ⟨src, hs, _, hlt⟩ := (hr.met b).mp hb
    obtain ⟨t, ht, _, he⟩ := (hpage b).mp hb'
    obtain rfl : src = t := Option.some.inj (hs.symm.trans ht)
    exact absurd hlt (he ▸ Nat.lt_irrefl _)
  have hmet : ∀ b, b ∈ freed ++ ids ↔ ∃ src, g.code.arena.sourceOf b = some src ∧
      src.reaches start stop ∧ src.page < pageOf start + n + 1 := by
    intro b
    rw [List.mem_append, hr.met, hpage]
    constructor
    · rintro (⟨src, hs, hreach, hlt⟩ | ⟨src, hs, hreach, he⟩)
      · exact ⟨src, hs, hreach, Nat.lt_succ_of_lt hlt⟩
      · exact ⟨src, hs, hreach, he ▸ Nat.lt_succ_self _⟩
    · rintro ⟨src, hs, hreach, hlt⟩
      rcases Nat.lt_or_eq_of_le (Nat.le_of_lt_succ hlt) with hlt | he
      · exact Or.inl ⟨src, hs, hreach, hlt⟩
      · exact Or.inr ⟨src, hs, hreach, he⟩
  rw [heq]
  exact ⟨freed ++ ids,
    { nodup := List.nodup_append.mpr
        ⟨hr.nodup, hnodup, fun b hb c hc he => hdisjoint b hb (he ▸ hc)⟩
      met := hmet
      blocks := (congrArg (· + ids.length) hr.blocks).trans List.length_append.symm
      hit := (congrArg (· || _) hr.hit).trans List.any_append.symm
      coherent := hcoherent
      frees := hr.frees.append hfrees
      memory := hmemory.trans hr.memory }⟩

/-- Page by page, the blocks go that lie on the pages passed. -/
theorem swept_sweep {start stop : UInt32} (hle : ¬stop < start) (running : Option BlockId)
    {n : Nat} (hn : n ≤ pageOf stop + 1 - pageOf start) :
    ∃ freed, Swept l g start stop running (fun p => p < pageOf start + n) freed
      (g.sweep start stop running n) := by
  induction n with
  | zero =>
      refine ⟨[], List.nodup_nil, fun b => ⟨fun hb => absurd hb List.not_mem_nil, ?_⟩, rfl, rfl, h,
        .refl _, rfl⟩
      rintro ⟨src, hs, hreach, hlt⟩
      exact absurd hlt (Nat.not_lt.mpr (h.page_of_reaches hs hreach).1)
  | succ n ih =>
      obtain ⟨freed, hr⟩ := ih (Nat.le_of_succ_le hn)
      rw [sweep_succ]
      exact swept_succ hle (by omega) hr

/-- **Invalidating a range of addresses frees exactly the blocks that reach it,**
answers with their number, and tells whether the running block is among them. -/
theorem frees_invalidateRange (start stop : UInt32) (running : Option BlockId) :
    ∃ freed : List BlockId, freed.Nodup ∧
      (∀ b, b ∈ freed ↔ ∃ src, g.code.arena.sourceOf b = some src ∧ src.reaches start stop) ∧
      (g.invalidate start stop running).1 = freed.length ∧
      (g.invalidate start stop running).2.1 = freed.any (fun b => running = some b) ∧
      g.code.Frees freed (g.invalidate start stop running).2.2.code := by
  by_cases hle : stop < start
  · unfold GuardedMemory.invalidate
    rw [if_pos hle]
    refine ⟨[], List.nodup_nil, fun b => ⟨fun hb => absurd hb List.not_mem_nil, ?_⟩, rfl, rfl,
      .refl _⟩
    rintro ⟨_, _, hreach, _⟩
    exact absurd hreach (UInt32.not_le.mpr hle)
  · obtain ⟨freed, hr⟩ := h.swept_sweep hle running
      (n := min (pageOf stop + 1) g.memory.pageCount - pageOf start) (by omega)
    rw [g.invalidate_eq_sweep hle]
    refine ⟨freed, hr.nodup, fun b => (hr.met b).trans ?_, hr.blocks, hr.hit, hr.frees⟩
    refine exists_congr fun src => and_congr_right fun hs => and_iff_left_of_imp fun hreach => ?_
    obtain ⟨h1, h2, h3⟩ := h.page_of_reaches hs hreach
    omega

end Coherent

end GuardedMemory

end Recompiler
