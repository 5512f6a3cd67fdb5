import Recompiler.Emulator.Basic
import Recompiler.Proofs.Store.Coherent

/-!
# Compiling a block

A region is opened, code is written to it, it is closed, and the block is put
into the index.  The code fits the scratch space, so it stays clear of every
other region.
-/

namespace Recompiler

namespace CodeStore

theorem sameUse_evict {s s' : CodeStore} {id : BlockId} (h : s.evict id = .ok s') :
    s.watches.SameUse s'.watches := by
  rcases of_evict_ok h with ⟨_, rfl⟩ | ⟨_, s₁, hd, rfl⟩
  · exact .refl _
  · rcases of_discard_ok hd with ⟨_, rfl⟩ | ⟨_, s₂, hu, rfl⟩
    · exact .refl _
    · show s.watches.SameUse s₂.watches
      unfold unindex at hu
      split at hu
      · cases hu
        exact .refl _
      · next src _ =>
          split at hu
          · cases hu
          · next w hw =>
              cases hu
              refine .set _ ?_
              unfold Watch.remove? at hw
              simp only at hw
              split at hw
              · cases hw
                rfl
              · cases hw

theorem shrinks_evict {s s' : CodeStore} {id : BlockId} (hl : s.arena.Linked)
    (hid : id.isTrampoline = false) (h : s.evict id = .ok s') : s.arena.Shrinks s'.arena := by
  rcases of_evict_ok h with ⟨_, rfl⟩ | ⟨_, s₁, hd, rfl⟩
  · exact .refl _
  · rw [arena_discard hid hd]
    exact (Arena.Shrinks.vacate hl hid).of_block (fun _ => rfl) fun _ => rfl

theorem shrinks_openRegion {s s' : CodeStore} {id : BlockId} (h : s.Sound)
    (ho : s.openRegion = .ok (id, s')) : s.arena.Shrinks s'.arena := by
  refine (openRegion_induction (P := fun t => s.arena.Shrinks t.arena) ?_ ?_ ?_ h.arranged
    h.linked ho (.refl _)).2
  · exact fun hl hid he ht => ht.trans (shrinks_evict hl hid he)
  · intro t id hl _ hd ht
    refine (ht.trans (.modify hl id (f := Descriptor.recycled) hd rfl rfl
      fun _ => rfl)).of_block ?_ ?_
    · exact fun _ => rfl
    · exact fun _ => rfl
  · intro t id size a hl _ hd hb ht
    have := Arena.Shrinks.modify hl id (f := fun d => { d with size }) hd hd
      (hl.clean id hd).1 fun _ => rfl
    exact (ht.trans this).of_block (fun d => by rw [hb]; rfl) fun d => by rw [hb]; rfl

theorem sameUse_openRegion {s s' : CodeStore} {id : BlockId} (h : s.Sound)
    (ho : s.openRegion = .ok (id, s')) : s.watches.SameUse s'.watches :=
  (openRegion_induction (P := fun t => s.watches.SameUse t.watches)
    (fun _ _ he ht => ht.trans (sameUse_evict he)) (fun _ _ _ ht => ht) (fun _ _ _ _ ht => ht)
    h.arranged h.linked ho (.refl _)).2

end CodeStore

/-! ## Writing to the open region -/

theorem Image.slice_prefix (m : Image) (position : Nat) {n k : Nat} (h : n ≤ k) :
    m.slice position n <+: m.slice position k := by
  rw [slice, slice, ← Nat.min_eq_left h, ← List.take_range, List.map_take]
  exact List.take_prefix ..

namespace Arena

theorem Arranged.mem_regions_of_isLive {a : Arena} (h : a.Arranged) (hl : a.Linked) {b : BlockId}
    (hb : a.isLive b = true) : b ∈ a.regions := by
  have hT := hl.not_trampoline_of_isLive hb
  rw [BlockId.isTrampoline, decide_eq_false_iff_not, Nat.not_lt] at hT
  have := (h.pooled b).mpr ⟨hT, lt_capacity_of_isLive hb⟩
  refine (List.mem_append.mp this).resolve_right fun hf => ?_
  rw [h.free b hf] at hb
  cases hb

section Emit

variable {a a' : Arena} {ops : List Operation} (hp : Portable ops)
  (he : a.emitProgram ops = .ok a')

include hp he

theorem cursor_emitProgram : a'.pen.cursor = a.pen.cursor + codeLength ops := by
  rw [of_checked_ok he]
  exact Pen.cursor_emitAll _ base hp

theorem slice_emitProgram :
    a'.pen.image.slice a.pen.cursor (codeLength ops) = assemble a.pen.cursor ops := by
  have hlength : (({ a.pen with labels := [] } : Pen).emitAll base ops).cursor - a.pen.cursor =
      codeLength ops := by
    rw [Pen.cursor_emitAll _ base hp]
    exact Nat.add_sub_cancel_left ..
  rw [← slice_emitAll a.pen ops, hlength, of_checked_ok he]

/-- **Writing to a region with room for it leaves every other region alone.** -/
theorem code_emitProgram {lo hi : Nat} (ht : a.Tiles lo a.regions hi) {id : BlockId}
    (hid : id ∈ a.regions) (hpen : a.pen.cursor = (a.block id).start)
    (hfit : codeLength ops ≤ (a.block id).size) {b : BlockId} (hb : b ∈ a.regions)
    (hne : b ≠ id) : a'.code b = a.code b := by
  have hcursor := cursor_emitProgram hp he
  have hblock : a'.block b = a.block b := by rw [of_checked_ok he]; rfl
  refine code_congr (by rw [hblock]) (by rw [hblock]) fun i h1 h2 => ?_
  have hdisjoint := ht.disjoint hb hid hne
  rw [of_checked_ok he] at hcursor ⊢
  have hwithin : Pen.Within a.pen.cursor { a.pen with labels := [] } := Pen.within_start rfl rfl
  refine Pen.read_emitAll_of_outside hwithin base ops ?_
  have hend : (({ a.pen with labels := [] } : Pen).emitAll base ops).cursor = _ := hcursor
  rw [hend]
  omega

end Emit

end Arena

/-! ## The steps of compiling -/

namespace CodeStore

def compile (s : CodeStore) (l : Limits) (watch : WatchId) (page : Vector UInt8 pageSize)
    (eip : UInt32) : Except Fault (BlockId × CodeStore) := do
  let t := Sequence.at page l eip
  let (id, code) ← s.openRegion
  let program := t.operations id
  let arena ← code.arena.emitProgram program
  let (id, arena) ← arena.close t.exit.kind program
  return (id, { code with arena }.indexBlock id watch page (offsetOf eip) t.last)

end CodeStore

theorem Emulator.compile_eq {e : Emulator} {eip : UInt32} {page : Vector UInt8 pageSize}
    (hp : e.memory.bytes? (pageOf eip) = some page) (watch : WatchId) :
    e.compile watch eip = (e.guarded.code.compile e.limits watch page eip).map fun r =>
      (r.1, { e with guarded := { e.guarded with code := r.2 } }) := by
  unfold Emulator.compile CodeStore.compile
  rw [hp]
  simp only
  cases e.guarded.code.openRegion with
  | error f => rfl
  | ok r =>
      obtain ⟨id, code⟩ := r
      show (code.arena.emitProgram _ >>= _) = Except.map _ (code.arena.emitProgram _ >>= _)
      cases code.arena.emitProgram ((Sequence.at page e.limits eip).operations id) with
      | error f => rfl
      | ok a =>
          show (a.close _ _ >>= _) = Except.map _ (a.close _ _ >>= _)
          cases a.close (Sequence.at page e.limits eip).exit.kind
            ((Sequence.at page e.limits eip).operations id) with
          | error f => rfl
          | ok r => rfl

namespace CodeStore

section Compile

variable {l : Limits} {s s' : CodeStore} {watch : WatchId} {page : Vector UInt8 pageSize}
  {eip : UInt32} {id : BlockId}

theorem of_compile_ok (h : s.compile l watch page eip = .ok (id, s')) :
    ∃ code a₁ a₂, s.openRegion = .ok (id, code) ∧
      code.arena.emitProgram ((Sequence.at page l eip).operations id) = .ok a₁ ∧
      a₁.close (Sequence.at page l eip).exit.kind ((Sequence.at page l eip).operations id) =
        .ok (id, a₂) ∧
      s' = ({ code with arena := a₂ } : CodeStore).indexBlock id watch page (offsetOf eip)
        (Sequence.at page l eip).last := by
  obtain ⟨⟨x, code⟩, ho, h⟩ := bind_eq_ok_iff.mp h
  obtain ⟨a₁, he, h⟩ := bind_eq_ok_iff.mp h
  obtain ⟨⟨y, a₂⟩, hc, h⟩ := bind_eq_ok_iff.mp h
  cases h
  have hopened : code.arena.opened = some x := by
    obtain ⟨_, _, _, _, _, _, _, _, rfl⟩ := of_openRegion_ok ho
    rfl
  have hx : x = id := by
    have := (Arena.of_close_ok hc).1
    rw [Arena.of_checked_ok he] at this
    exact Option.some.inj (hopened.symm.trans this)
  subst hx
  exact ⟨code, a₁, a₂, ho, he, hc, rfl⟩

theorem Sound.setSource (h : s.Sound) (hid : id.isTrampoline = false) (src : Option Source)
    (ws : Watches) :
    (CodeStore.mk (s.arena.modify id fun d => { d with source := src }) ws).Sound := by
  have hfield {α : Type} (g : Descriptor → α) (hg : ∀ d : Descriptor, g { d with source := src } =
      g d) (b : BlockId) :
      g ((s.arena.modify id fun d => { d with source := src }).block b) = g (s.arena.block b) :=
    Arena.field_modify _ id b g hg
  refine ⟨h.arranged.congr ?_ (fun _ hb => hb) (hfield Descriptor.start fun _ => rfl)
      (hfield Descriptor.size fun _ => rfl) fun b _ hb => ?_,
    h.linked.congr (fun t => ?_) (hfield Descriptor.links fun _ => rfl)
      (hfield Descriptor.ring fun _ => rfl) fun d _ => ⟨?_, ?_⟩⟩
  · exact Arena.frame_of_outline (Arena.outline_modify ..).symm
  · exact (hfield Descriptor.isLive (fun _ => rfl) b).trans hb
  · rw [Arena.block_modify, if_neg, h.linked.stub]
    rintro ⟨rfl, _⟩
    rw [BlockId.isTrampoline_trampoline] at hid
    cases hid
  · exact hfield Descriptor.kind (fun _ => rfl) d
  · exact hfield Descriptor.start (fun _ => rfl) d

theorem code_setSource (a : Arena) (id : BlockId) (src : Option Source) (b : BlockId) :
    (a.modify id fun d => { d with source := src }).code b = a.code b := by
  refine Arena.code_congr ?_ ?_ fun _ _ _ => rfl
  · exact Arena.field_modify _ _ _ Descriptor.start fun _ => rfl
  · exact Arena.field_modify _ _ _ Descriptor.size fun _ => rfl

/-- What was compiled before is still there or gone, and what is found where
code was compiled is the new block. -/
structure Compiled (l : Limits) (s s' : CodeStore) (watch : WatchId)
    (page : Vector UInt8 pageSize) (eip : UInt32) (id : BlockId) : Prop where
  active : id = s.arena.active
  source : s'.arena.sourceOf id = some ⟨watch, pageOf eip, offsetOf eip,
    (Sequence.at page l eip).last,
    bytesBetween page (offsetOf eip) (Sequence.at page l eip).last⟩
  generation : (s'.arena.block id).generation = (s.arena.block id).generation + 1
  kept : ∀ b, b ≠ id → s'.arena.isLive b = true →
    (s'.arena.block b).core = (s.arena.block b).core
  links : (s'.arena.block id).links = .unlinked
  ring : (s'.arena.block id).ring = .empty
  link : ∀ d t, s'.arena.successor d t = s.arena.successor d t ∨
    s'.arena.successor d t = .trampoline t
  use : s.watches.SameUse s'.watches

section Steps

variable (h : s.Coherent l) {code : CodeStore} {a₁ a₂ : Arena}
  (ho : s.openRegion = .ok (id, code)) {program : List Operation}
  (he : code.arena.emitProgram program = .ok a₁) {kind : BlockKind}
  (hc : a₁.close kind program = .ok (id, a₂))

include h ho

/-- What opening leaves is still the translation of its source. -/
theorem translated_openRegion {b : BlockId} {src : Source}
    (hb : code.arena.sourceOf b = some src) :
    (code.arena.block b).core = (s.arena.block b).core ∧ code.arena.Translates l b src := by
  obtain ⟨_, _, _, _, hre⟩ := reopened_of_ok h.arranged ho
  have hlive : code.arena.isLive b = true := by
    rw [(h.indexed.openRegion h.arranged h.linked ho).live, hb]
    rfl
  have hcore := hre.core_of_isLive hlive
  rw [Arena.sourceOf_eq_of_core hcore] at hb
  exact ⟨hcore, (h.translated b src hb).of_pen hcore (by rw [hre.pen])⟩

theorem sound_openRegion : code.Sound := by
  obtain ⟨_, hact, _, _, hre⟩ := reopened_of_ok h.arranged ho
  exact ⟨hre.arranged h.arranged hact, linked_openRegion h.arranged h.linked ho⟩

include he

theorem sound_emitProgram : ({ code with arena := a₁ } : CodeStore).Sound := by
  have hopen := sound_openRegion h ho
  rw [Arena.of_checked_ok he]
  exact ⟨hopen.arranged.setPen _, hopen.linked.of_block fun _ => rfl⟩

include hc

/-- Of a record closing changes only what it writes and where the region lies. -/
theorem field_of_close {α : Type} (g : Descriptor → α)
    (hg : ∀ d start size, g { d with start, size } = g d) (b : BlockId) :
    g (a₂.block b) = if b = id then g ((code.arena.block b).closed kind program) else
      g (code.arena.block b) := by
  have hfield := Arena.field_close (sound_emitProgram h ho he).arranged hc g hg b
  rw [Arena.of_checked_ok he] at hfield
  exact hfield

theorem block_of_close {b : BlockId} (hne : b ≠ id) (hb : a₂.isLive b = true) :
    code.arena.isLive b = true ∧ a₂.block b = code.arena.block b := by
  have h₁ := sound_emitProgram h ho he
  have hblock : a₁.block b = code.arena.block b := by rw [Arena.of_checked_ok he]; rfl
  have hfield := field_of_close h ho he hc Descriptor.isLive (fun _ _ _ => rfl) b
  rw [if_neg hne] at hfield
  have hlive : code.arena.isLive b = true := hfield.symm.trans hb
  have hmem : b ∈ a₁.regions :=
    h₁.arranged.mem_regions_of_isLive h₁.linked ((congrArg Descriptor.isLive hblock).trans hlive)
  obtain ⟨size, hsize, _, heq⟩ :=
    Arena.block_close h₁.arranged hc (h₁.arranged.not_free_of_region hmem)
  rw [if_neg hne, hsize hne] at heq
  exact ⟨hlive, heq.trans hblock⟩

theorem block_self_of_close (hp : Portable program) :
    ∃ size, codeLength program ≤ size ∧ (a₂.block id).start = (s.arena.block id).start ∧
      a₂.block id = { (code.arena.block id).closed kind program with size } := by
  have h₁ := sound_emitProgram h ho he
  obtain ⟨_, hact, taken, rest, hre⟩ := reopened_of_ok h.arranged ho
  have hid : id ∈ a₁.regions := by
    rw [Arena.of_checked_ok he]
    exact hre.regions ▸ List.mem_append_right _ List.mem_cons_self
  have hblock : a₁.block id = code.arena.block id := by rw [Arena.of_checked_ok he]; rfl
  have hstart : (code.arena.block id).start = (s.arena.block id).start := by
    rw [← Descriptor.start_core, hre.core, if_pos rfl]
    exact Descriptor.start_cleared _
  obtain ⟨size, _, hsize, heq⟩ :=
    Arena.block_close h₁.arranged hc (h₁.arranged.not_free_of_region hid)
  have hsize := hsize rfl
  rw [if_pos rfl, hblock] at heq
  rw [Arena.cursor_emitProgram hp he, hblock, hstart, hre.pen, Nat.add_sub_cancel_left] at hsize
  exact ⟨size, hsize, by rw [heq]; exact hstart, heq⟩

theorem assemble_prefix_of_close (hp : Portable program) :
    assemble (a₂.block id).start program <+: a₂.code id := by
  obtain ⟨_, _, _, _, hre⟩ := reopened_of_ok h.arranged ho
  obtain ⟨size, hsize, hstart, hself⟩ := block_self_of_close h ho he hc hp
  have hslice := Arena.slice_emitProgram hp he
  rw [hre.pen, ← hstart, ← Arena.pen_close hc] at hslice
  rw [← hslice, Arena.code, hself]
  exact Image.slice_prefix _ _ hsize

theorem block_eq_of_close {b : BlockId} (hne : b ≠ id) (hb : code.arena.isLive b = true) :
    a₂.block b = code.arena.block b := by
  have hfield := field_of_close h ho he hc Descriptor.isLive (fun _ _ _ => rfl) b
  rw [if_neg hne] at hfield
  exact (block_of_close h ho he hc hne (hfield.trans hb)).2

/-- Code that fits is written clear of the code of other blocks. -/
theorem code_of_close (hp : Portable program) (hfit : codeLength program ≤ l.codeBytes)
    {b : BlockId} (hne : b ≠ id) (hb : code.arena.isLive b = true) :
    a₂.code b = code.arena.code b := by
  have hopen := sound_openRegion h ho
  obtain ⟨_, _, _, _, hre⟩ := reopened_of_ok h.arranged ho
  obtain ⟨hact, _, hroom⟩ := hopen.arranged.opened id hre.opened
  obtain ⟨hi, htiles, _⟩ := hopen.arranged.tiles
  have hwritten : a₁.code b = code.arena.code b := by
    refine Arena.code_emitProgram hp he htiles (hact ▸ hopen.arranged.active) ?_ ?_
      (hopen.arranged.mem_regions_of_isLive hopen.linked hb) hne
    · rw [hre.pen, ← Descriptor.start_core (code.arena.block id), hre.core, if_pos rfl]
      exact (Descriptor.start_cleared _).symm
    · refine Nat.le_trans hfit (Nat.le_trans (Nat.le_of_eq ?_) hroom)
      rw [hre.blockBytes, h.room]
  have hblock : a₂.block b = a₁.block b := by
    rw [block_eq_of_close h ho he hc hne hb, Arena.of_checked_ok he]
    rfl
  refine Eq.trans (Arena.code_congr ?_ ?_ fun i _ _ => ?_) hwritten
  · rw [hblock]
  · rw [hblock]
  · rw [Arena.pen_close hc]

theorem sound_of_close : ({ code with arena := a₂ } : CodeStore).Sound :=
  have h₁ := sound_emitProgram h ho he
  ⟨h₁.arranged.close hc, Arena.Linked.close h₁.arranged hc h₁.linked⟩

theorem isLive_self_of_close (hp : Portable program) (hk : kind.isLive = true) :
    a₂.isLive id = true := by
  obtain ⟨_, _, _, hself⟩ := block_self_of_close h ho he hc hp
  rw [Arena.isLive, hself]
  exact hk

theorem field_of_setSource {α : Type} (g : Descriptor → α) (src : Option Source)
    (hg : ∀ d start size, g { d with start, size } = g d)
    (hs : ∀ d : Descriptor, g { d with source := src } = g d) (b : BlockId) :
    g ((a₂.modify id fun d => { d with source := src }).block b) =
      if b = id then g ((code.arena.block b).closed kind program) else g (code.arena.block b) :=
  (Arena.field_modify _ id b g hs).trans (field_of_close h ho he hc g hg b)

theorem sourceOf_of_setSource (hlive : a₂.isLive id = true) (src : Source) (b : BlockId) :
    (a₂.modify id fun d => { d with source := some src }).sourceOf b =
      Watch.setSource code.arena.sourceOf id (some src) b := by
  have hfield := field_of_close h ho he hc Descriptor.source (fun _ _ _ => rfl) b
  rw [Arena.sourceOf, Arena.block_modify_of_lt (Arena.lt_capacity_of_isLive hlive),
    Watch.setSource]
  split
  · rfl
  · next hne =>
      rw [if_neg hne] at hfield
      exact hfield

theorem isLive_of_setSource (hk : kind.isLive = true) (src : Option Source) (b : BlockId) :
    (a₂.modify id fun d => { d with source := src }).isLive b =
      if b = id then true else code.arena.isLive b := by
  rw [Arena.isLive, field_of_setSource h ho he hc Descriptor.isLive src (fun _ _ _ => rfl)
    fun _ => rfl]
  split
  · exact hk
  · rfl

/-- **The code of other blocks is still the translation of their sources.** -/
theorem translated_of_close (hp : Portable program) (hfit : codeLength program ≤ l.codeBytes)
    {b : BlockId} {src : Source} (hne : b ≠ id) (hb : code.arena.sourceOf b = some src) :
    a₂.Translates l b src := by
  have hlive : code.arena.isLive b = true := by
    rw [(h.indexed.openRegion h.arranged h.linked ho).live, hb]
    rfl
  refine (translated_openRegion h ho hb).2.congr ?_ (code_of_close h ho he hc hp hfit hne hlive)
  rw [block_eq_of_close h ho he hc hne hlive]

end Steps

theorem isLive_of_exit (e : Exit) : e.kind.isLive = true := by
  cases e <;> rfl

theorem translates_self_of_close (h : s.Coherent l) {code : CodeStore} {a₁ a₂ : Arena}
    (ho : s.openRegion = .ok (id, code))
    (he : code.arena.emitProgram ((Sequence.at page l eip).operations id) = .ok a₁)
    (hc : a₁.close (Sequence.at page l eip).exit.kind ((Sequence.at page l eip).operations id) =
      .ok (id, a₂)) :
    let last := (Sequence.at page l eip).last
    let src : Source :=
      ⟨watch, pageOf eip, offsetOf eip, last, bytesBetween page (offsetOf eip) last⟩
    (a₂.modify id fun d => { d with source := some src }).Translates l id src := by
  intro last src
  have hportable := Sequence.portable_operations (Sequence.at page l eip) id
  obtain ⟨_, _, _, hself⟩ := block_self_of_close h ho he hc hportable
  have hlive := isLive_self_of_close h ho he hc hportable (isLive_of_exit _)
  have hblock := Arena.block_modify_of_lt (Arena.lt_capacity_of_isLive hlive)
    fun d => { d with source := some src }
  have hstart : src.start = eip := addressOf_pageOf_offsetOf eip
  refine ⟨pageOf_lt eip, page, rfl, by rw [hstart], ?_⟩
  rw [hstart]
  refine ⟨?_, ?_, ?_⟩
  · rw [hblock, if_pos rfl, hself]
    rfl
  · rw [hblock, if_pos rfl, hself]
    rfl
  · rw [code_setSource, hblock, if_pos rfl]
    exact assemble_prefix_of_close h ho he hc hportable

variable (h : s.Coherent l) (hpage : (s.watches.watch watch).page = pageOf eip)
  (hc : s.compile l watch page eip = .ok (id, s'))

include h hpage hc

/-- **What compiling does.** -/
theorem compiled_of_ok : Compiled l s s' watch page eip id := by
  obtain ⟨code, a₁, a₂, ho, he, hcl, rfl⟩ := of_compile_ok hc
  obtain ⟨_, hact, taken, rest, hre⟩ := reopened_of_ok h.arranged ho
  have huse := sameUse_openRegion h.toSound ho
  have hlive := isLive_self_of_close h ho he hcl (Sequence.portable_operations _ id)
    (isLive_of_exit _)
  set src : Source := ⟨watch, (code.watches.watch watch).page, offsetOf eip,
    (Sequence.at page l eip).last,
    bytesBetween page (offsetOf eip) (Sequence.at page l eip).last⟩ with hsrc
  have hblock := Arena.block_modify_of_lt (Arena.lt_capacity_of_isLive hlive)
    fun d => { d with source := some src }
  have hlinks := field_of_setSource h ho he hcl Descriptor.links (some src) (fun _ _ _ => rfl)
    fun _ => rfl
  refine ⟨hact, ?_, ?_, fun b hne hb => ?_, ?_, ?_, fun d t => ?_, huse.trans (.set _ rfl)⟩
  · show ((a₂.modify id _).block id).source = _
    rw [hblock, if_pos rfl, ← hpage, ← huse.page]
  · refine (field_of_setSource h ho he hcl Descriptor.generation (some src) (fun _ _ _ => rfl)
      (fun _ => rfl) id).trans ?_
    rw [if_pos rfl]
    show (code.arena.block id).generation + 1 = _
    rw [← Descriptor.generation_core, hre.core, if_pos rfl]
    show (s.arena.block id).cleared.generation + 1 = _
    rw [Descriptor.generation_cleared]
  · have hb : ((a₂.modify id _).block b).isLive = true := hb
    show ((a₂.modify id _).block b).core = _
    rw [hblock, if_neg hne] at hb ⊢
    obtain ⟨hlive, heq⟩ := block_of_close h ho he hcl hne hb
    rw [heq, hre.core_of_isLive hlive]
  · exact (hlinks id).trans (by rw [if_pos rfl]; rfl)
  · refine (field_of_setSource h ho he hcl Descriptor.ring (some src) (fun _ _ _ => rfl)
      (fun _ => rfl) id).trans ?_
    rw [if_pos rfl]
    rfl
  · show (((a₂.modify id _).block d).links.get t).block = _ ∨
      (((a₂.modify id _).block d).links.get t).block = _
    rw [hlinks]
    split
    · exact Or.inr (congrArg Link.block (Links.get_unlinked t))
    · exact (shrinks_openRegion h.toSound ho).link d t

/-- **Compiling keeps a store coherent.** -/
theorem Coherent.compile (hl : l.Sufficient) (hw : watch ∈ s.watches.used)
    (hfresh : ∀ b src, s.arena.sourceOf b = some src → src.watch = watch →
      src.first ≠ offsetOf eip) : s'.Coherent l := by
  have hcompiled := compiled_of_ok h hpage hc
  obtain ⟨code, a₁, a₂, ho, he, hcl, rfl⟩ := of_compile_ok hc
  obtain ⟨_, hact, taken, rest, hre⟩ := reopened_of_ok h.arranged ho
  have hportable := Sequence.portable_operations (Sequence.at page l eip) id
  have huse := sameUse_openRegion h.toSound ho
  have hid : id.isTrampoline = false :=
    h.arranged.not_trampoline_of_region (hact ▸ h.arranged.active)
  have hlive := isLive_self_of_close h ho he hcl hportable (isLive_of_exit _)
  set src : Source := ⟨watch, (code.watches.watch watch).page, offsetOf eip,
    (Sequence.at page l eip).last,
    bytesBetween page (offsetOf eip) (Sequence.at page l eip).last⟩ with hsrc
  have hsource := sourceOf_of_setSource h ho he hcl hlive src
  refine ⟨(sound_of_close h ho he hcl).setSource hid (some src) _, ?_, ?_, ?_,
    hcompiled.use.capacity ▸ h.pool, ?_, fun b t hb => ?_⟩
  · show a₂.opened = none
    exact Arena.opened_close hcl
  · show a₂.blockBytes = _
    rw [Arena.blockBytes_close hcl, Arena.of_checked_ok he]
    exact hre.blockBytes.trans h.room
  · show (a₂.modify id _).capacity < _
    rw [Arena.capacity_modify, Arena.capacity_close hcl, Arena.of_checked_ok he]
    exact Nat.lt_of_le_of_lt (Nat.le_of_eq hre.capacity) h.ids
  · have hindexed := h.indexed.openRegion h.arranged h.linked ho
    have hdead : code.arena.isLive id = false := by rw [hre.isLive_eq, if_pos (Or.inl rfl)]
    refine @Indexed.insert code hindexed id hdead src ?_ rfl (Sequence.last_at hl page eip).2
      (fun x t hx => ?_) _ hsource (isLive_of_setSource h ho he hcl (isLive_of_exit _) (some src))
    · rw [show src.watch = watch from rfl, huse.used]
      exact hw
    · have hcore := (translated_openRegion h ho hx).1
      rw [Arena.sourceOf_eq_of_core hcore] at hx
      exact hfresh x t hx
  · have hb : Watch.setSource code.arena.sourceOf id (some src) b = some t :=
      (hsource b).symm.trans hb
    show (a₂.modify id fun d => { d with source := some src }).Translates l b t
    rw [Watch.setSource] at hb
    split at hb
    · next hbid =>
        rw [hbid, ← Option.some.inj hb, hsrc, huse.page, hpage]
        exact translates_self_of_close h ho he hcl
    · next hbid =>
        have ht := translated_of_close h ho he hcl hportable
          (codeLength_operations_le hl page eip id) hbid hb
        refine ht.congr ?_ (code_setSource a₂ id (some src) b)
        rw [Arena.block_modify_of_lt (Arena.lt_capacity_of_isLive hlive), if_neg hbid]

end Compile

/-! ## Compiling succeeds -/

theorem Coherent.openRegion_ok {l : Limits} {s : CodeStore} (h : s.Coherent l) :
    ∃ id s', s.openRegion = .ok (id, s') :=
  h.indexed.filed.openRegion_ok h.arranged h.closed

theorem Coherent.written_le {l : Limits} {s code : CodeStore} (h : s.Coherent l)
    (hl : l.Sufficient) {page : Vector UInt8 pageSize} {eip : UInt32} {id : BlockId} {a : Arena}
    (ho : s.openRegion = .ok (id, code))
    (he : code.arena.emitProgram ((Sequence.at page l eip).operations id) = .ok a) :
    a.pen.cursor - (a.block id).start ≤ (a.block id).size := by
  obtain ⟨_, _, _, _, hre⟩ := reopened_of_ok h.arranged ho
  obtain ⟨_, _, hroom⟩ := (sound_openRegion h ho).arranged.opened id hre.opened
  have hfit := codeLength_operations_le hl page eip id
  have hportable := Sequence.portable_operations (Sequence.at page l eip) id
  have hblock : a.block id = code.arena.block id := by rw [Arena.of_checked_ok he]; rfl
  have hstart : (code.arena.block id).start = (s.arena.block id).start := by
    rw [← Descriptor.start_core, hre.core, if_pos rfl]
    exact Descriptor.start_cleared _
  have hcursor : code.arena.pen.cursor = (s.arena.block id).start := by rw [hre.pen]
  rw [hre.blockBytes, h.room] at hroom
  rw [Arena.cursor_emitProgram hportable he, hblock, hcursor, hstart, Nat.add_sub_cancel_left]
  exact Nat.le_trans hfit hroom

section Opened

variable {l : Limits} {s code : CodeStore} (h : s.Coherent l) (hl : l.Sufficient) {id : BlockId}
  (ho : s.openRegion = .ok (id, code))

include h hl ho

/-- From the start of the active region on there is room for any block. -/
theorem Coherent.emitProgram_ok (page : Vector UInt8 pageSize) (eip : UInt32) :
    ∃ a, code.arena.emitProgram ((Sequence.at page l eip).operations id) = .ok a := by
  obtain ⟨_, hact, _, _, hre⟩ := reopened_of_ok h.arranged ho
  have hfit := codeLength_operations_le hl page eip id
  have hportable := Sequence.portable_operations (Sequence.at page l eip) id
  have hcursor : code.arena.pen.cursor = (s.arena.block id).start := by rw [hre.pen]
  have hearly := h.arranged.early
  have hfits := h.arranged.fits
  rw [← hact, Arena.lastStart, h.room] at hearly
  rw [h.room] at hfits
  unfold Arena.emitProgram Arena.checked
  rw [if_neg]
  · exact ⟨_, rfl⟩
  · rw [Nat.not_lt]
    show (({ code.arena.pen with labels := [] } : Pen).emitAll Arena.base _).cursor ≤ _
    rw [Pen.cursor_emitAll _ _ hportable, Arena.length, hre.arenaBytes, hre.blockBytes, h.room]
    show code.arena.pen.cursor + _ ≤ _
    omega

/-- **Closing fails only where no descriptor is left:** what was written fits. -/
theorem Coherent.close_ok_or {page : Vector UInt8 pageSize} {eip : UInt32} {a : Arena}
    (he : code.arena.emitProgram ((Sequence.at page l eip).operations id) = .ok a) :
    let kind := (Sequence.at page l eip).exit.kind
    let program := (Sequence.at page l eip).operations id
    (∃ r, a.close kind program = .ok r) ∨
      a.close kind program = .error (.descriptorsExhausted s.arena.capacity) := by
  intro kind program
  obtain ⟨_, _, _, _, hre⟩ := reopened_of_ok h.arranged ho
  have hopen := sound_openRegion h ho
  have hactive := (hopen.arranged.opened id hre.opened).1
  have hopened : a.opened = some id := by rw [Arena.of_checked_ok he]; exact hre.opened
  have hcap : a.capacity = s.arena.capacity := by
    rw [Arena.of_checked_ok he]
    exact hre.capacity
  have hwritten :
      a.pen.cursor - (a.block id).start ≤ ((a.sealed id kind program).block id).size := by
    have hmem : id ∈ a.regions := by
      rw [Arena.of_checked_ok he]
      exact hactive ▸ hopen.arranged.active
    rw [Arena.block_sealed _ _ ((sound_emitProgram h ho he).arranged.region_lt_capacity hmem),
      if_pos rfl]
    exact h.written_le hl ho he
  rw [Arena.close_eq hopened]
  unfold Arena.trim
  simp only
  rw [if_neg (Nat.not_lt.mpr hwritten)]
  split
  · unfold Arena.take
    split
    · refine Or.inr ?_
      show Except.error (Fault.descriptorsExhausted (a.sealed id kind program).capacity) = _
      rw [show (a.sealed id kind program).capacity = a.capacity from Arena.capacity_modify ..,
        hcap]
    · exact Or.inl ⟨_, rfl⟩
  · exact Or.inl ⟨_, rfl⟩

end Opened

/-- **Compiling fails only where no descriptor is left.** -/
theorem Coherent.compile_ok_or {l : Limits} {s : CodeStore} (h : s.Coherent l)
    (hl : l.Sufficient) (watch : WatchId) (page : Vector UInt8 pageSize) (eip : UInt32) :
    (∃ r, s.compile l watch page eip = .ok r) ∨
      s.compile l watch page eip = .error (.descriptorsExhausted s.arena.capacity) := by
  obtain ⟨id, code, ho⟩ := h.openRegion_ok
  obtain ⟨a, he⟩ := h.emitProgram_ok hl ho page eip
  have hclose := h.close_ok_or hl ho he
  unfold CodeStore.compile
  simp only
  rw [ho]
  show (∃ r, (code.arena.emitProgram _ >>= _) = .ok r) ∨ (code.arena.emitProgram _ >>= _) = _
  rw [he]
  show (∃ r, (a.close _ _ >>= _) = .ok r) ∨ (a.close _ _ >>= _) = _
  rcases hclose with ⟨r, hr⟩ | hr
  · rw [hr]
    exact Or.inl ⟨_, rfl⟩
  · rw [hr]
    exact Or.inr rfl

end CodeStore

end Recompiler
