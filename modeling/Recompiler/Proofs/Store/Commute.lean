import Recompiler.Proofs.Arena.Forget
import Recompiler.Proofs.Emulator.Stores

/-!
# Tearing blocks down in any order

What tearing a block down changes is known record by record and field by field, in
every store there is.  Done again it changes nothing, and two blocks may be torn down
in either order, whatever links there are between them.
-/

namespace Recompiler

/-! ## Links, rings and records -/

namespace Links

/-- An exit sent home leads to no block that can be torn down. -/
theorem block_trampoline_ne (s : Slot) {b : BlockId} (hb : b.isTrampoline = false) :
    (Link.trampoline s).block ≠ b := by
  rintro rfl
  rw [show (Link.trampoline s).block = .trampoline s from rfl,
    BlockId.isTrampoline_trampoline] at hb
  cases hb

theorem get_without_without (l : Links) {a b : BlockId} (hb : b.isTrampoline = false) (s : Slot) :
    ((l.without a).without b).get s =
      if (l.get s).block = a ∨ (l.get s).block = b then .trampoline s else l.get s := by
  rw [get_without, get_without]
  by_cases ha : (l.get s).block = a
  · simp only [ha, if_true, true_or, if_neg (block_trampoline_ne s hb)]
  · simp only [ha, if_false, false_or]

theorem without_comm (l : Links) {a b : BlockId} (ha : a.isTrampoline = false)
    (hb : b.isTrampoline = false) : (l.without a).without b = (l.without b).without a := by
  apply ext_get
  intro s
  rw [get_without_without l hb, get_without_without l ha]
  simp only [or_comm]

end Links

theorem Ring.erase_comm (r : Ring) (p q : ExitRef → Bool) :
    (r.erase p).erase q = (r.erase q).erase p := by
  have hnext : ((r.erase p).erase q).next = ((r.erase q).erase p).next := rfl
  apply Ring.ext_entry hnext
  intro i
  simp only [Ring.entry_erase, Option.filter_filter, Bool.and_comm]

theorem Descriptor.without_vacated (d : Descriptor) (id : BlockId) (test : ExitRef → Bool) :
    { d.vacated with
      links := d.vacated.links.without id, ring := d.vacated.ring.erase test } = d.vacated := by
  simp [Descriptor.vacated]

namespace Arena

theorem ext_block {a b : Arena} (ho : a.outline = b.outline) (hc : a.counters = b.counters)
    (hb : ∀ id, a.block id = b.block id) : a = b := by
  have hsize : a.pool.size = b.pool.size := capacity_of_frame (frame_of_outline ho)
  have hpool : a.pool = b.pool := by
    apply Array.ext hsize
    intro i hia hib
    have hblock := hb ⟨i⟩
    simp only [block, Array.getD, hia, hib, dite_true] at hblock
    exact hblock
  rw [show a = { a.outline with pool := a.pool, counters := a.counters } from rfl, ho, hc, hpool]
  rfl

section Vacate

variable {a : Arena} (h : a.Linked) {x y : BlockId} (hx : x.isTrampoline = false)

include h hx

theorem vacate_vacate : (a.vacate x).vacate x = a.vacate x := by
  apply ext_block
  · rw [outline_vacate]
  · rw [counters_vacate]
  · intro c
    rw [block_vacate (h.vacate hx) hx, block_vacate h hx]
    by_cases hc : c = x
    · simp [hc]
    · simp only [hc, if_false, Links.without_without, Ring.erase_erase]

/-- **Two blocks are torn down in either order.** -/
theorem vacate_comm (hy : y.isTrampoline = false) :
    (a.vacate x).vacate y = (a.vacate y).vacate x := by
  apply ext_block
  · simp only [outline_vacate]
  · simp only [counters_vacate]
  · intro c
    rw [block_vacate (h.vacate hx) hy, block_vacate h hx, block_vacate (h.vacate hy) hx,
      block_vacate h hy]
    by_cases hcx : c = x
    · by_cases hcy : c = y
      · simp only [hcx.symm.trans hcy]
      · simp only [if_pos hcx, if_neg hcy, Descriptor.without_vacated]
        rfl
    · by_cases hcy : c = y
      · simp only [if_neg hcx, if_pos hcy, Descriptor.without_vacated]
        rfl
      · simp only [hcx, hcy, if_false]
        rw [Links.without_comm _ hx hy, Ring.erase_comm]

end Vacate

end Arena

/-! ## Watches -/

namespace Watch

theorem ext_bucket {w v : Watch} (hpage : w.page = v.page)
    (hbuckets : ∀ k : Bucket, getElem w.buckets k.val k.isLt = getElem v.buckets k.val k.isLt)
    (hcoverage : ∀ k : Bucket, getElem w.coverage k.val k.isLt = getElem v.coverage k.val k.isLt)
    (hchanges : w.changes = v.changes) (hactive : w.active = v.active)
    (hcountdown : w.countdown = v.countdown) (hdelay : w.delay = v.delay) : w = v := by
  obtain ⟨page, buckets, coverage, changes, active, countdown, delay⟩ := w
  obtain ⟨page', buckets', coverage', changes', active', countdown', delay'⟩ := v
  have hb : buckets = buckets' := Vector.ext fun k hk => hbuckets ⟨k, hk⟩
  have hc : coverage = coverage' := Vector.ext fun k hk => hcoverage ⟨k, hk⟩
  simp only at hpage hchanges hactive hcountdown hdelay
  rw [hpage, hb, hc, hchanges, hactive, hcountdown, hdelay]

/-- **Two blocks of a watch are taken off in either order.** -/
theorem strike_comm (w : Watch) (a b : BlockId) {s t : Source} (hs : s.first ≤ s.last)
    (ht : t.first ≤ t.last) : (w.strike a s).strike b t = (w.strike b t).strike a s := by
  apply ext_bucket
  case hpage | hchanges | hcountdown | hdelay => rfl
  case hactive => exact Nat.sub_right_comm w.active 1 1
  case hbuckets =>
    intro k
    simp only [bucket_strike]
    by_cases hsk : s.buckets.1 = k
    · by_cases htk : t.buckets.1 = k
      · simp only [hsk, htk, if_true, List.erase_comm a b]
      · simp only [hsk, htk, if_true, if_false]
    · simp only [hsk, if_false]
  case hcoverage =>
    intro k
    rw [coverage_strike _ _ ht, coverage_strike _ _ hs, coverage_strike _ _ hs,
      coverage_strike _ _ ht, Nat.sub_right_comm]

/-- A watch once a block was taken off. -/
structure Struck (w : Watch) (b : BlockId) (src : Source) (w' : Watch) : Prop where
  page : w'.page = w.page
  bucket : ∀ k : Bucket, getElem w'.buckets k.val k.isLt =
    if src.buckets.1 = k then (getElem w.buckets k.val k.isLt).erase b
    else getElem w.buckets k.val k.isLt
  listed : b ∈ w.blocks ∧ b ∉ w'.blocks
  coverage : ∀ k : Bucket, getElem w.coverage k.val k.isLt =
    getElem w'.coverage k.val k.isLt + if src.touches k.val then 1 else 0
  changes : w'.changes = w.changes
  active : w.active = w'.active + 1
  countdown : w'.countdown = w.delay
  delay : w'.delay = w.delay

theorem Indexes.struck {w : Watch} {id : WatchId} {sourceOf : BlockId → Option Source}
    (h : w.Indexes id sourceOf) {b : BlockId} {src : Source} (hb : sourceOf b = some src)
    (hw : src.watch = id) (hs : src.first ≤ src.last) : w.Struck b src (w.strike b src) := by
  have hmem : b ∈ w.blocks := h.mem_blocks_iff.mpr ⟨src, hb, hw⟩
  constructor
  case page | changes | countdown | delay => rfl
  case bucket => exact w.bucket_strike b src
  case listed =>
    refine ⟨hmem, fun hgone => ?_⟩
    obtain ⟨t, ht, _⟩ := (h.strike hb hw hs).mem_blocks_iff.mp hgone
    rw [setSource, if_pos rfl] at ht
    cases ht
  case coverage =>
    intro k
    rw [coverage_strike w b hs]
    split
    · next htouch =>
        have hpos : 0 < getElem w.coverage k.val k.isLt := by
          rw [h.coverage, List.countP_pos_iff]
          exact ⟨b, hmem, by rw [hb]; exact htouch⟩
        omega
    · rfl
  case active =>
    have hpos : 0 < w.active := by
      rw [h.active]
      exact List.length_pos_of_mem hmem
    show w.active = w.active - 1 + 1
    omega

end Watch

namespace Watches

theorem set_comm (ws : Watches) {x y : WatchId} (h : x ≠ y) (w v : Watch) :
    (ws.set x w).set y v = (ws.set y v).set x w := by
  have hne : x.number ≠ y.number := by
    obtain ⟨m⟩ := x
    obtain ⟨n⟩ := y
    simpa using h
  simp only [set]
  rw [Array.setIfInBounds_comm _ _ hne]

end Watches

/-! ## Stores -/

namespace CodeStore

theorem ext_parts {s t : CodeStore} (ha : s.arena = t.arena) (hw : s.watches = t.watches) :
    s = t := by
  obtain ⟨a, w⟩ := s
  obtain ⟨b, v⟩ := t
  rw [show a = b from ha, show w = v from hw]

theorem sourceOf_without (s : CodeStore) (a b : BlockId) :
    (s.without a).arena.sourceOf b = if b = a then none else s.arena.sourceOf b :=
  Arena.sourceOf_vacate s.arena a b

theorem watches_without_of_none {s : CodeStore} {a : BlockId} (h : s.arena.sourceOf a = none) :
    (s.without a).watches = s.watches := by
  rw [without, h]

theorem watches_without_of_some {s : CodeStore} {a : BlockId} {src : Source}
    (h : s.arena.sourceOf a = some src) :
    (s.without a).watches =
      s.watches.set src.watch ((s.watches.watch src.watch).strike a src) := by
  rw [without, h]

section Filed

variable {s : CodeStore} (h : s.Filed)

include h

theorem watches_without_comm {a b : BlockId} (hab : a ≠ b) :
    ((s.without a).without b).watches = ((s.without b).without a).watches := by
  have hafter : ∀ {x y : BlockId}, x ≠ y →
      (s.without x).arena.sourceOf y = s.arena.sourceOf y := fun hxy => by
    rw [sourceOf_without, if_neg (Ne.symm hxy)]
  have ha := hafter (Ne.symm hab)
  have hb := hafter hab
  cases hsa : s.arena.sourceOf a with
  | none =>
      rw [hsa] at ha
      rw [watches_without_of_none ha]
      cases hsb : s.arena.sourceOf b with
      | none => rw [watches_without_of_none (hb.trans hsb), watches_without_of_none hsa,
          watches_without_of_none hsb]
      | some t => rw [watches_without_of_some (hb.trans hsb), watches_without_of_none hsa,
          watches_without_of_some hsb]
  | some src =>
      rw [hsa] at ha
      rw [watches_without_of_some ha]
      cases hsb : s.arena.sourceOf b with
      | none => rw [watches_without_of_none (hb.trans hsb), watches_without_of_some hsa,
          watches_without_of_none hsb]
      | some t =>
          have hlt := h.pooled a src hsa
          have hlt' := h.pooled b t hsb
          rw [watches_without_of_some (hb.trans hsb), watches_without_of_some hsa,
            watches_without_of_some hsb, Watches.watch_set _ _ _ _ hlt,
            Watches.watch_set _ _ _ _ hlt']
          by_cases hw : src.watch = t.watch
          · rw [if_pos hw, if_pos hw.symm, hw, Watches.set_set, Watches.set_set,
              Watch.strike_comm _ _ _ (h.range a src hsa) (h.range b t hsb)]
          · rw [if_neg hw, if_neg (Ne.symm hw), Watches.set_comm _ hw]

/-- **Two blocks of a store are torn down in either order.** -/
theorem without_comm (hl : s.arena.Linked) {a b : BlockId} (ha : a.isTrampoline = false)
    (hb : b.isTrampoline = false) : (s.without a).without b = (s.without b).without a := by
  by_cases hab : a = b
  · rw [hab]
  · exact ext_parts (Arena.vacate_comm hl ha hb) (watches_without_comm h hab)

omit h in
theorem without_without (hl : s.arena.Linked) {a : BlockId} (ha : a.isTrampoline = false) :
    (s.without a).without a = s.without a := by
  have hnone : (s.without a).arena.sourceOf a = none := by rw [sourceOf_without, if_pos rfl]
  exact ext_parts (Arena.vacate_vacate hl ha) (watches_without_of_none hnone)

end Filed

/-- A store of which a block was torn down, and how it differs from before. -/
structure Discarded (s : CodeStore) (a : BlockId) (s' : CodeStore) : Prop where
  /-- The block is free, without a source, and leads nowhere. -/
  block : s'.arena.block a = (s.arena.block a).vacated
  /-- Its exits and those that led to it are at their trampolines. -/
  exits : ∀ d t, (s'.arena.block d).links.get t =
    if d = a ∨ s.arena.successor d t = a then .trampoline t else (s.arena.block d).links.get t
  /-- Links from it and to it are recorded nowhere, and no other entry moves. -/
  entries : ∀ t i, (s'.arena.block t).ring.entry i =
    ((s.arena.block t).ring.entry i).filter fun e => e.block ≠ a ∧ t ≠ a
  next : ∀ t ≠ a, (s'.arena.block t).ring.next = (s.arena.block t).ring.next
  core : ∀ b ≠ a, (s'.arena.block b).core = (s.arena.block b).core
  /-- Nothing but records is changed in the arena. -/
  arena : s'.arena = { s.arena with pool := s'.arena.pool }
  capacity : s'.arena.capacity = s.arena.capacity
  unlisted : s.arena.sourceOf a = none → s'.watches = s.watches
  /-- Of the watches only that of the block is changed. -/
  listed : ∀ src, s.arena.sourceOf a = some src →
    s'.watches = { s.watches with pool := s'.watches.pool } ∧
      s'.watches.capacity = s.watches.capacity ∧
      (s.watches.watch src.watch).Struck a src (s'.watches.watch src.watch) ∧
      ∀ id ≠ src.watch, s'.watches.watch id = s.watches.watch id

theorem discarded_without {s : CodeStore} (h : s.Filed) (hl : s.arena.Linked) {a : BlockId}
    (ha : a.isTrampoline = false) : Discarded s a (s.without a) := by
  have hblock := Arena.block_vacate hl ha
  have houtline := Arena.outline_vacate s.arena a
  have hcounters := Arena.counters_vacate s.arena a
  constructor
  case block => exact (hblock a).trans (if_pos rfl)
  case exits => exact Arena.link_vacate hl ha
  case entries =>
    intro t i
    show ((s.arena.vacate a).block t).ring.entry i = _
    rw [hblock]
    by_cases ht : t = a
    · simp [ht, Descriptor.vacated]
    · simp [ht, Ring.entry_erase]
  case next =>
    intro t ht
    show ((s.arena.vacate a).block t).ring.next = _
    rw [hblock, if_neg ht]
    rfl
  case core =>
    intro b hb
    rw [core_without, if_neg hb]
  case arena =>
    show s.arena.vacate a = { s.arena with pool := (s.arena.vacate a).pool }
    conv_lhs =>
      rw [show s.arena.vacate a = { (s.arena.vacate a).outline with
        pool := (s.arena.vacate a).pool, counters := (s.arena.vacate a).counters } from rfl,
        houtline, hcounters]
    rfl
  case capacity => exact Arena.capacity_of_frame (Arena.frame_of_outline houtline)
  case unlisted => exact watches_without_of_none
  case listed =>
    intro src hs
    have hlt := h.pooled a src hs
    rw [watches_without_of_some hs]
    refine ⟨rfl, Watches.capacity_set .., ?_, fun id hid => ?_⟩
    · rw [Watches.watch_set _ _ _ _ hlt, if_pos rfl]
      exact (h.indexes src.watch).struck hs rfl (h.range a src hs)
    · rw [Watches.watch_set _ _ _ _ hlt, if_neg (Ne.symm hid)]

theorem not_trampoline_of_pooled {a : Arena} {id : BlockId} (h : a.Pooled id) :
    id.isTrampoline = false := by
  rw [BlockId.isTrampoline, decide_eq_false_iff_not]
  exact Nat.not_lt.mpr h.1

/-- **Tearing down is exact, and in any order.**  Whatever was done to a store, and
whatever its blocks are and lead to: tearing one down changes its record, the links
from it and to it, and its watch, and nothing else; done again it changes nothing; and
of two blocks either may be torn down first. -/
theorem discards_of_occurs {settings : Settings} {s : CodeStore} (h : Occurs settings s)
    {a b : BlockId} (ha : s.arena.Pooled a) (hb : s.arena.Pooled b) :
    ∃ s₁ s₂ s₃, s.discard a = .ok s₁ ∧ Discarded s a s₁ ∧ s₁.discard a = .ok s₁ ∧
      s.discard b = .ok s₂ ∧ s₁.discard b = .ok s₃ ∧ s₂.discard a = .ok s₃ := by
  have hl := h.sound.linked
  have hta := not_trampoline_of_pooled ha
  have htb := not_trampoline_of_pooled hb
  refine ⟨s.without a, s.without b, (s.without a).without b, h.filed.discard_eq hta,
    discarded_without h.filed hl hta, ?_, h.filed.discard_eq htb,
    (h.filed.without a).discard_eq htb, ?_⟩
  · rw [(h.filed.without a).discard_eq hta, without_without hl hta]
  · rw [(h.filed.without b).discard_eq hta, without_comm h.filed hl hta htb]

/-- Two blocks of one page that lead to each other and to themselves. -/
theorem discards_of_mutual_links :
    ∃ e, Emulator.Visited e ∧ e.arena.Pooled ⟨2⟩ ∧ e.arena.Pooled ⟨3⟩ ∧
      (∀ d ∈ [⟨2⟩, ⟨3⟩], e.arena.successor d .first = d) ∧
      e.arena.successor ⟨2⟩ .second = ⟨3⟩ ∧ e.arena.successor ⟨3⟩ .second = ⟨2⟩ ∧
      (e.arena.sourceOf ⟨2⟩).map Source.watch = (e.arena.sourceOf ⟨3⟩).map Source.watch ∧
      ∃ s₁ s₂ s₃, e.guarded.code.discard ⟨2⟩ = .ok s₁ ∧ Discarded e.guarded.code ⟨2⟩ s₁ ∧
        s₁.discard ⟨2⟩ = .ok s₁ ∧ e.guarded.code.discard ⟨3⟩ = .ok s₂ ∧
        s₁.discard ⟨3⟩ = .ok s₃ ∧ s₂.discard ⟨2⟩ = .ok s₃ := by
  obtain ⟨e, he, htest⟩ := exists_of_succeeds
    (p := fun e => (2 ≤ 2 ∧ 2 < e.arena.capacity) ∧ (2 ≤ 3 ∧ 3 < e.arena.capacity) ∧
      (∀ d ∈ [⟨2⟩, ⟨3⟩], e.arena.successor d .first = d) ∧
      e.arena.successor ⟨2⟩ .second = ⟨3⟩ ∧ e.arena.successor ⟨3⟩ .second = ⟨2⟩ ∧
      (e.arena.sourceOf ⟨2⟩).map Source.watch = (e.arena.sourceOf ⟨3⟩).map Source.watch)
    (x := Emulator.zeroed.performAll [.write .word 0 0xFE75, .write .word 16 0xFE75, .fetch 0,
      .fetch 16, .link ⟨2⟩ .first ⟨2⟩, .link ⟨2⟩ .second ⟨3⟩, .link ⟨3⟩ .first ⟨3⟩,
      .link ⟨3⟩ .second ⟨2⟩]) (by decide +kernel)
  obtain ⟨hfirst, hsecond, hself, hto, hfrom, hwatch⟩ := of_decide_eq_true htest
  have h : Emulator.Reached (fun _ => True) e :=
    .performAll (fun _ _ => trivial) (.new Emulator.unwatched_zeroed Emulator.new_zeroed) he
  exact ⟨e, h.visited, hfirst, hsecond, hself, hto, hfrom, hwatch,
    discards_of_occurs (.emulator h.visited rfl) hfirst hsecond⟩

end CodeStore

end Recompiler
