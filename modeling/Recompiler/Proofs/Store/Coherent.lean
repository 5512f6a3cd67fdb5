import Recompiler.Proofs.Compile.Emission
import Recompiler.Proofs.Compile.Source
import Recompiler.Proofs.Store.Invalidate
import Recompiler.Proofs.Store.LinkGraph

/-!
# Code that is the translation of its source

A block was compiled from the bytes its source records, and the code in its
region is still what that gave.  Nothing but compiling writes code, and it
writes to the open region only, in which nothing is compiled; so the code of
every other block stays what it was.
-/

namespace Recompiler

namespace Arena

/-- The record and the code of a block are those of the sequence at an address
of a page. -/
structure CompiledFrom (a : Arena) (l : Limits) (b : BlockId) (page : Vector UInt8 pageSize)
    (eip : UInt32) : Prop where
  kind : (a.block b).kind = (Sequence.at page l eip).exit.kind
  program : (a.block b).program = (Sequence.at page l eip).operations b
  /-- The region starts with the code. -/
  code : assemble (a.block b).start ((Sequence.at page l eip).operations b) <+: a.code b

/-- A block with a source is compiled from it. -/
structure Translates (a : Arena) (l : Limits) (b : BlockId) (src : Source) : Prop where
  page : src.page < pageLimit
  compiled : ∃ page, bytesBetween page src.first src.last = src.bytes ∧
    src.last = (Sequence.at page l src.start).last ∧ a.CompiledFrom l b page src.start

@[simp] theorem length_code (a : Arena) (b : BlockId) : (a.code b).length = (a.block b).size := by
  simp [code, Image.slice]

theorem code_congr {a a' : Arena} {b : BlockId}
    (hstart : (a'.block b).start = (a.block b).start) (hsize : (a'.block b).size = (a.block b).size)
    (hread : ∀ i, (a.block b).start ≤ i → i < (a.block b).start + (a.block b).size →
      a'.pen.image.read i = a.pen.image.read i) : a'.code b = a.code b := by
  rw [code, code, hstart, hsize, Image.slice, Image.slice]
  refine List.map_congr_left fun i hi => ?_
  rw [List.mem_range] at hi
  exact hread _ (Nat.le_add_right ..) (Nat.add_lt_add_left hi _)

namespace CompiledFrom

variable {a : Arena} {l : Limits} {b : BlockId} {page : Vector UInt8 pageSize} {eip : UInt32}
  (h : a.CompiledFrom l b page eip)

include h

theorem congr {a' : Arena} (hcore : (a'.block b).core = (a.block b).core)
    (hcode : a'.code b = a.code b) : a'.CompiledFrom l b page eip := by
  have hk := congrArg Descriptor.kind hcore
  have hp := congrArg Descriptor.program hcore
  have hs := congrArg Descriptor.start hcore
  rw [Descriptor.kind_core, Descriptor.kind_core] at hk
  rw [Descriptor.program_core, Descriptor.program_core] at hp
  rw [Descriptor.start_core, Descriptor.start_core] at hs
  exact ⟨hk.trans h.kind, hp.trans h.program, by rw [hs, hcode]; exact h.code⟩

theorem length_le :
    (assemble (a.block b).start ((Sequence.at page l eip).operations b)).length ≤
      (a.block b).size := by
  rw [← length_code]
  exact h.code.length_le

end CompiledFrom

theorem Translates.congr {a a' : Arena} {l : Limits} {b : BlockId} {src : Source}
    (h : a.Translates l b src) (hcore : (a'.block b).core = (a.block b).core)
    (hcode : a'.code b = a.code b) : a'.Translates l b src := by
  obtain ⟨page, hb, hl, hc⟩ := h.compiled
  exact ⟨h.page, page, hb, hl, hc.congr hcore hcode⟩

/-- What keeps the record of a block and all code written keeps its code. -/
theorem code_eq_of_core {a a' : Arena} {b : BlockId}
    (hcore : (a'.block b).core = (a.block b).core) (hpen : a'.pen.image = a.pen.image) :
    a'.code b = a.code b := by
  have hs := congrArg Descriptor.start hcore
  have hz := congrArg Descriptor.size hcore
  rw [Descriptor.start_core, Descriptor.start_core] at hs
  rw [Descriptor.size_core, Descriptor.size_core] at hz
  exact code_congr hs hz fun i _ _ => by rw [hpen]

/-- What keeps the record of a block and all code written keeps its
translation. -/
theorem Translates.of_pen {a a' : Arena} {l : Limits} {b : BlockId} {src : Source}
    (h : a.Translates l b src) (hcore : (a'.block b).core = (a.block b).core)
    (hpen : a'.pen.image = a.pen.image) : a'.Translates l b src :=
  h.congr hcore (code_eq_of_core hcore hpen)

end Arena

namespace CodeStore

/-- A store between two operations: its books are in order, and every block is
the translation of its source. -/
structure Coherent (l : Limits) (s : CodeStore) : Prop extends s.Sound where
  closed : s.arena.opened = none
  /-- The scratch space of a block is what blocks are limited to. -/
  room : s.arena.blockBytes = l.codeBytes
  /-- Every name fits a word, and none is the word for no block. -/
  ids : s.arena.capacity < UInt32.size
  pool : 0 < s.watches.capacity
  indexed : s.Indexed
  translated : ∀ b src, s.arena.sourceOf b = some src → s.arena.Translates l b src

namespace Coherent

variable {l : Limits} {s : CodeStore} (h : s.Coherent l)

include h

theorem isLive_of_source {b : BlockId} {src : Source} (hb : s.arena.sourceOf b = some src) :
    s.arena.isLive b = true := by
  rw [h.indexed.live, hb]
  rfl

theorem not_trampoline {b : BlockId} {src : Source} (hb : s.arena.sourceOf b = some src) :
    b.isTrampoline = false :=
  h.linked.not_trampoline_of_isLive (h.isLive_of_source hb)

/-- What keeps the books in order, and touches no code of the blocks it leaves,
keeps a store coherent. -/
theorem of_kept {s' : CodeStore} (hs : s'.Sound) (hi : s'.Indexed)
    (ho : s'.arena.outline = s.arena.outline)
    (hp : s'.watches.capacity = s.watches.capacity)
    (hkept : ∀ b src, s'.arena.sourceOf b = some src →
      (s'.arena.block b).core = (s.arena.block b).core) : s'.Coherent l := by
  refine ⟨hs, (Arena.opened_of_outline ho).trans h.closed,
    (Arena.blockBytes_of_frame (Arena.frame_of_outline ho)).trans h.room, ?_, hp ▸ h.pool, hi,
    fun b src hb => ?_⟩
  · rw [Arena.capacity_of_frame (Arena.frame_of_outline ho)]
    exact h.ids
  have hcore := hkept b src hb
  rw [Arena.sourceOf_eq_of_core hcore] at hb
  exact (h.translated b src hb).of_pen hcore (congrArg Pen.image (Arena.pen_of_outline ho))

theorem count (f : Counters → Counters) : (s.count f).Coherent l :=
  h.of_kept ⟨h.arranged.count f, h.linked.of_block fun _ => rfl⟩ (h.indexed.count f) rfl rfl
    fun _ _ _ => rfl

theorem without {id : BlockId} (hid : id.isTrampoline = false) : (s.without id).Coherent l := by
  refine h.of_kept ⟨h.arranged.vacate id, h.linked.vacate hid⟩ (h.indexed.without id)
    (Arena.outline_vacate s.arena id) (sameUse_without s id).capacity fun b src hb => ?_
  rw [core_without]
  split
  · next he =>
      have hs := Arena.sourceOf_vacate s.arena id b
      rw [Watch.setSource, if_pos he] at hs
      rw [show (s.without id).arena.sourceOf b = _ from hs] at hb
      cases hb
  · rfl

theorem withoutAll {ids : List BlockId} (hids : ∀ id ∈ ids, id.isTrampoline = false) :
    (s.withoutAll ids).Coherent l :=
  withoutAll_induction (fun _ id hid ht => ht.without (hids id hid)) h

theorem shrinks_withoutAll {ids : List BlockId} (hids : ∀ id ∈ ids, id.isTrampoline = false) :
    s.arena.Shrinks (s.withoutAll ids).arena :=
  (withoutAll_induction (P := fun t => t.Coherent l ∧ s.arena.Shrinks t.arena)
    (fun _ id hid ht => ⟨ht.1.without (hids id hid),
      ht.2.trans (.vacate ht.1.linked (hids id hid))⟩) ⟨h, .refl _⟩).2

theorem setWatches {ws : Watches} (hi : ({ s with watches := ws } : CodeStore).Indexed)
    (hp : ws.capacity = s.watches.capacity) : ({ s with watches := ws } : CodeStore).Coherent l :=
  h.of_kept ⟨h.arranged, h.linked⟩ hi rfl hp fun _ _ _ => rfl

theorem shrinks_discard {s' : CodeStore} {id : BlockId} (hd : s.discard id = .ok s') :
    s.arena.Shrinks s'.arena := by
  rcases h.indexed.filed.eq_or_without hd with rfl | ⟨hid, rfl⟩
  · exact .refl _
  · exact .vacate h.linked hid

theorem of_alike {a : Arena} (ha : s.arena.Alike a) (hl : a.Linked) :
    ({ s with arena := a } : CodeStore).Coherent l := by
  have hcore := fun b => (ha.core b).symm
  refine h.of_kept ⟨h.arranged.of_alike ha, hl⟩ ?_ ha.outline.symm rfl fun b _ _ => hcore b
  exact h.indexed.congr (fun b => Arena.sourceOf_eq_of_core (hcore b))
    fun b => Arena.isLive_eq_of_core (hcore b)

/-- **Invalidating a range** tears down the blocks it meets, and no others. -/
theorem invalidate {id : WatchId} (hid : id.number < s.watches.capacity) {first last : Offset}
    (hfl : first ≤ last) (running : Option BlockId) :
    ∃ ids : List BlockId, ids.Nodup ∧
      (∀ b, b ∈ ids ↔ ∃ src, s.arena.sourceOf b = some src ∧ src.watch = id ∧
        src.overlaps first last = true) ∧
      ∃ f, s.invalidate id first last running =
        (ids.length, ids.any (fun b => running = some b), (s.withoutAll ids).count f) ∧
      ((s.withoutAll ids).count f).Coherent l := by
  obtain ⟨ids, hnodup, hids, f, heq⟩ := h.indexed.invalidate_eq hid hfl running
  refine ⟨ids, hnodup, hids, f, heq, (h.withoutAll fun b hb => ?_).count f⟩
  obtain ⟨src, hs, _⟩ := (hids b).mp hb
  exact h.not_trampoline hs

end Coherent

end CodeStore

end Recompiler
