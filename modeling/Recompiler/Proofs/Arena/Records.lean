import Recompiler.Proofs.Arena.Ring

/-!
# Records through each change of links

What the operations on links do to the record of any one block.  All of them
leave the *core* of every record alone, that is everything but links and ring,
and the *outline* of the arena, that is everything but records and counts; two
arenas that agree in both are *alike*.
-/

namespace Recompiler

namespace Links

def without (l : Links) (target : BlockId) : Links where
  first := if l.first.block = target then .trampoline .first else l.first
  second := if l.second.block = target then .trampoline .second else l.second

theorem get_without (l : Links) (target : BlockId) (s : Slot) :
    (l.without target).get s =
      if (l.get s).block = target then .trampoline s else l.get s := by
  cases s <;> rfl

theorem ext_get {l m : Links} (h : ∀ s, l.get s = m.get s) : l = m := by
  obtain ⟨l1, l2⟩ := l
  obtain ⟨m1, m2⟩ := m
  have h1 : l1 = m1 := h .first
  have h2 : l2 = m2 := h .second
  rw [h1, h2]

@[simp] theorem without_unlinked (target : BlockId) :
    unlinked.without target = unlinked :=
  ext_get fun s => by simp [get_without]

theorem without_eq_self {l : Links} {target : BlockId}
    (h : ∀ s, (l.get s).block ≠ target) : l.without target = l :=
  ext_get fun s => by simp [get_without, h s]

theorem without_without (l : Links) (target : BlockId) :
    (l.without target).without target = l.without target := by
  refine ext_get fun s => ?_
  simp only [get_without]
  by_cases h : (l.get s).block = target <;> simp [h]

end Links

namespace Ring

theorem erase_erase (r : Ring) (test : ExitRef → Bool) :
    (r.erase test).erase test = r.erase test :=
  erase_eq_self fun _ he => (mem_toList_erase.mp he).2

end Ring

namespace Descriptor

/-- The record without its links: no exit linked, the ring empty. -/
def core (d : Descriptor) : Descriptor := { d with links := .unlinked, ring := .empty }

def vacated (d : Descriptor) : Descriptor :=
  { d with kind := .free, source := none, links := .unlinked, ring := .empty }

def recycled (d : Descriptor) : Descriptor := { generation := d.generation }

/-- The core of a block once nothing is compiled in it. -/
def cleared (d : Descriptor) : Descriptor := if d.isLive then d.vacated else d.core

/-- The record of a block that was closed around new code. -/
def closed (d : Descriptor) (kind : BlockKind) (program : List Operation) : Descriptor :=
  { d with
    kind, program
    links := .unlinked
    ring := .empty
    generation := d.generation + 1 }

@[simp] theorem core_vacated (d : Descriptor) : d.vacated.core = d.vacated := rfl

@[simp] theorem vacated_vacated (d : Descriptor) : d.vacated.vacated = d.vacated := rfl

@[simp] theorem vacated_core (d : Descriptor) : d.core.vacated = d.vacated := rfl

@[simp] theorem kind_core (d : Descriptor) : d.core.kind = d.kind := rfl

@[simp] theorem start_core (d : Descriptor) : d.core.start = d.start := rfl

@[simp] theorem size_core (d : Descriptor) : d.core.size = d.size := rfl

@[simp] theorem source_core (d : Descriptor) : d.core.source = d.source := rfl

@[simp] theorem generation_core (d : Descriptor) : d.core.generation = d.generation := rfl

@[simp] theorem program_core (d : Descriptor) : d.core.program = d.program := rfl

@[simp] theorem isLive_core (d : Descriptor) : d.core.isLive = d.isLive := rfl

@[simp] theorem recycled_core (d : Descriptor) : d.core.recycled = d.recycled := rfl

theorem start_cleared (d : Descriptor) : d.cleared.start = d.start := by
  unfold cleared
  split <;> rfl

theorem size_cleared (d : Descriptor) : d.cleared.size = d.size := by
  unfold cleared
  split <;> rfl

theorem generation_cleared (d : Descriptor) : d.cleared.generation = d.generation := by
  unfold cleared
  split <;> rfl

theorem isLive_cleared (d : Descriptor) : d.cleared.isLive = false := by
  unfold cleared
  split
  · rfl
  · next h => exact eq_false_of_ne_true h

theorem ext_core {d e : Descriptor} (hc : d.core = e.core) (hl : d.links = e.links)
    (hr : d.ring = e.ring) : d = e := by
  rw [show d = { d.core with links := d.links, ring := d.ring } from rfl, hc, hl, hr]
  rfl

end Descriptor

namespace Arena

/-- The arena with every record blank and nothing counted. -/
def outline (a : Arena) : Arena :=
  { a with pool := Array.replicate a.capacity .unused, counters := {} }

def Pooled (a : Arena) (id : BlockId) : Prop :=
  BlockId.lowest.number ≤ id.number ∧ id.number < a.capacity

/-- Two arenas that differ at most in links, rings and counts. -/
structure Alike (a b : Arena) : Prop where
  outline : a.outline = b.outline
  core : ∀ id, (a.block id).core = (b.block id).core

/-! ## Writing code -/

theorem of_checked_ok {a a' : Arena} {pen : Pen} (h : a.checked pen = .ok a') :
    a' = { a with pen } := by
  unfold checked at h
  split at h
  · cases h
  · cases h
    rfl

theorem of_fill_ok {a a' : Arena} {byte : UInt8} {n : Nat} (h : a.fill byte n = .ok a') :
    a' = { a with pen := a.pen.append (List.replicate n (.literal byte)) } := by
  unfold fill at h
  split at h
  · cases h
  · cases h
    rfl

/-! ## Names beyond the pool -/

theorem block_eq_unused {a : Arena} {id : BlockId} (h : a.capacity ≤ id.number) :
    a.block id = .unused := by
  simp only [block, Array.getD_eq_getD_getElem?]
  rw [Array.getElem?_eq_none h]
  rfl

theorem lt_capacity_of_isLive {a : Arena} {id : BlockId} (h : a.isLive id = true) :
    id.number < a.capacity := by
  by_contra hc
  rw [isLive, block_eq_unused (Nat.le_of_not_lt hc)] at h
  cases h

/-- A change that leaves a blank record blank happens to any name alike. -/
theorem block_modify_of_unused (a : Arena) (id b : BlockId) {f : Descriptor → Descriptor}
    (hf : f .unused = .unused) :
    (a.modify id f).block b = if b = id then f (a.block b) else a.block b := by
  rw [block_modify]
  by_cases hb : b = id
  · subst hb
    by_cases hc : b.number < a.capacity
    · simp [hc]
    · simp [hc, block_eq_unused (Nat.le_of_not_lt hc), hf]
  · simp [hb, Ne.symm hb]

theorem block_modify_of_lt {a : Arena} {id : BlockId} (h : id.number < a.capacity)
    (f : Descriptor → Descriptor) (b : BlockId) :
    (a.modify id f).block b = if b = id then f (a.block b) else a.block b := by
  rw [block_modify]
  by_cases hb : b = id
  · subst hb; simp [h]
  · simp [hb, Ne.symm hb]

theorem field_modify {α : Type} (a : Arena) (id b : BlockId) {f : Descriptor → Descriptor}
    (g : Descriptor → α) (h : ∀ d, g (f d) = g d) :
    g ((a.modify id f).block b) = g (a.block b) := by
  rw [block_modify]
  split
  · exact h _
  · rfl

/-! ## Outlines -/

@[simp] theorem outline_modify (a : Arena) (id : BlockId) (f : Descriptor → Descriptor) :
    (a.modify id f).outline = a.outline := by
  simp [outline, modify, capacity]

@[simp] theorem outline_count (a : Arena) (f : Counters → Counters) :
    (a.count f).outline = a.outline := rfl

/-- The outline of the arena but for what an open block is about. -/
def frame (a : Arena) : Arena := { a.outline with pen := {}, opened := none }

theorem frame_of_outline {a b : Arena} (h : a.outline = b.outline) : a.frame = b.frame := by
  rw [frame, frame, h]

theorem pen_of_outline {a b : Arena} (h : a.outline = b.outline) : a.pen = b.pen :=
  show a.outline.pen = b.outline.pen by rw [h]

theorem opened_of_outline {a b : Arena} (h : a.outline = b.outline) : a.opened = b.opened :=
  show a.outline.opened = b.outline.opened by rw [h]

section Frame

variable {a b : Arena} (h : a.frame = b.frame)

include h

theorem regions_of_frame : a.regions = b.regions :=
  show a.frame.regions = b.frame.regions by rw [h]

theorem free_of_frame : a.free = b.free :=
  show a.frame.free = b.frame.free by rw [h]

theorem active_of_frame : a.active = b.active :=
  show a.frame.active = b.frame.active by rw [h]

theorem arenaBytes_of_frame : a.arenaBytes = b.arenaBytes :=
  show a.frame.arenaBytes = b.frame.arenaBytes by rw [h]

theorem blockBytes_of_frame : a.blockBytes = b.blockBytes :=
  show a.frame.blockBytes = b.frame.blockBytes by rw [h]

theorem capacity_of_frame : a.capacity = b.capacity := by
  simpa [frame, outline, capacity] using congrArg Arena.capacity h

end Frame

/-! ## Arenas that are alike -/

namespace Alike

theorem refl (a : Arena) : a.Alike a := ⟨rfl, fun _ => rfl⟩

theorem trans {a b c : Arena} (h : a.Alike b) (h' : b.Alike c) : a.Alike c :=
  ⟨h.outline.trans h'.outline, fun id => (h.core id).trans (h'.core id)⟩

theorem count (a : Arena) (f : Counters → Counters) : a.Alike (a.count f) :=
  ⟨rfl, fun _ => rfl⟩

theorem modify (a : Arena) (id : BlockId) {f : Descriptor → Descriptor}
    (hf : ∀ d, (f d).core = d.core) : a.Alike (a.modify id f) :=
  ⟨(outline_modify ..).symm, fun b => (field_modify a id b _ hf).symm⟩

theorem kind {a b : Arena} (h : a.Alike b) (id : BlockId) :
    (a.block id).kind = (b.block id).kind :=
  show (a.block id).core.kind = (b.block id).core.kind by rw [h.core]

theorem start {a b : Arena} (h : a.Alike b) (id : BlockId) :
    (a.block id).start = (b.block id).start :=
  show (a.block id).core.start = (b.block id).core.start by rw [h.core]

theorem size {a b : Arena} (h : a.Alike b) (id : BlockId) :
    (a.block id).size = (b.block id).size :=
  show (a.block id).core.size = (b.block id).core.size by rw [h.core]

theorem isLive {a b : Arena} (h : a.Alike b) (id : BlockId) :
    a.isLive id = b.isLive id :=
  show (a.block id).core.isLive = (b.block id).core.isLive by rw [h.core]

theorem setLink (a : Arena) (id : BlockId) (slot : Slot) (target : BlockId) :
    a.Alike (a.setLink id slot target) := modify a id fun _ => rfl

theorem eraseRing (a : Arena) (id : BlockId) (test : ExitRef → Bool) :
    a.Alike (a.eraseRing id test) := modify a id fun _ => rfl

theorem unlinkExitsTo (a : Arena) (id target : BlockId) :
    a.Alike (a.unlinkExitsTo id target) := by
  have step : ∀ (a : Arena) s,
      a.Alike (if a.successor id s = target then a.unlink id s else a) := by
    intro a s
    split
    · exact setLink a id s _
    · exact refl a
  exact (step a .first).trans (step _ .second)

theorem recordLink (a : Arena) (e : ExitRef) (target : BlockId) :
    a.Alike (a.recordLink e target) := by
  unfold Arena.recordLink
  have hm : a.Alike (a.modify target fun d => { d with ring := d.ring.push e }) :=
    modify a target fun _ => rfl
  cases (a.block target).ring.evicted? with
  | none => exact hm
  | some old =>
      simp only
      split
      · exact (hm.trans (setLink ..)).trans (count ..)
      · exact hm

end Alike

/-- Linking changes links, rings and counts only. -/
theorem Alike.link {a a' : Arena} {source target : BlockId} {slot : Slot}
    (h : a.link source slot target = .ok a') : a.Alike a' := by
  unfold Arena.link at h
  split at h
  · cases h
  split at h
  · cases h
  simp only at h
  split at h
  · cases h; exact refl a
  · cases h
    refine Alike.trans ?_ ((Alike.setLink ..).trans (Alike.count ..))
    split <;> split
    · exact refl a
    · exact Alike.eraseRing ..
    · exact Alike.recordLink ..
    · exact (Alike.eraseRing ..).trans (Alike.recordLink ..)

/-- Tearing a block down frees it, and changes nothing else but links and
rings. -/
theorem Alike.vacate (a : Arena) (id : BlockId) :
    (a.modify id Descriptor.vacated).Alike (a.vacate id) := by
  have fold : ∀ {α : Type} (f : Arena → α → Arena), (∀ a x, Alike a (f a x)) →
      ∀ (l : List α) (a : Arena), a.Alike (l.foldl f a) := by
    intro α f hf l
    induction l with
    | nil => exact fun a => refl a
    | cons x rest ih => exact fun a => (hf a x).trans (ih _)
  unfold Arena.vacate
  refine Alike.trans (fold _ ?_ Slot.all _) (fold _ ?_ _ _)
  · intro a s
    simp only
    split
    · exact refl a
    · exact Alike.eraseRing ..
  · exact fun a e => Alike.unlinkExitsTo a e.block id

theorem core_vacate (a : Arena) (id b : BlockId) :
    ((a.vacate id).block b).core =
      if b = id then (a.block b).vacated else (a.block b).core := by
  rw [← (Alike.vacate a id).core b, block_modify_of_unused _ _ _ rfl]
  split <;> rfl

@[simp] theorem outline_vacate (a : Arena) (id : BlockId) :
    (a.vacate id).outline = a.outline := by
  rw [← (Alike.vacate a id).outline, outline_modify]

theorem isLive_vacate (a : Arena) (id b : BlockId) :
    (a.vacate id).isLive b = if b = id then false else a.isLive b := by
  have h := congrArg Descriptor.isLive (core_vacate a id b)
  rw [Descriptor.isLive_core] at h
  rw [isLive, h]
  split <;> rfl

/-! ## Records through each step -/

theorem ring_setLink (a : Arena) (id : BlockId) (slot : Slot) (target b : BlockId) :
    ((a.setLink id slot target).block b).ring = (a.block b).ring :=
  field_modify a id b Descriptor.ring fun _ => rfl

theorem links_eraseRing (a : Arena) (id : BlockId) (test : ExitRef → Bool) (b : BlockId) :
    ((a.eraseRing id test).block b).links = (a.block b).links :=
  field_modify a id b Descriptor.links fun _ => rfl

theorem block_forgetExitsOf (a : Arena) (id source b : BlockId) :
    (a.forgetExitsOf id source).block b =
      if b = id then
        { a.block b with ring := (a.block b).ring.erase fun e => e.block = source }
      else a.block b := by
  rw [forgetExitsOf, eraseRing, block_modify_of_unused _ _ _ (by
    simp only [Descriptor.unused, Ring.erase_empty])]

theorem block_unlink {a : Arena} {id : BlockId} {slot : Slot} (b : BlockId)
    (hs : (a.block (.trampoline slot)).start = trampolinePosition slot) :
    (a.unlink id slot).block b =
      if b = id then
        { a.block b with links := (a.block b).links.set (.trampoline slot) slot }
      else a.block b := by
  have hl : (⟨.trampoline slot, (a.block (.trampoline slot)).start⟩ : Link) =
      .trampoline slot := by rw [hs]; rfl
  rw [unlink, setLink, hl, block_modify_of_unused _ _ _ (by cases slot <;> rfl)]

theorem block_unlinkExitsTo {a : Arena} {id target : BlockId} (b : BlockId)
    (hs : ∀ s, (a.block (.trampoline s)).start = trampolinePosition s) :
    (a.unlinkExitsTo id target).block b =
      if b = id then { a.block b with links := (a.block b).links.without target }
      else a.block b := by
  have step : ∀ (a : Arena) (s : Slot) (b : BlockId),
      (∀ s, (a.block (.trampoline s)).start = trampolinePosition s) →
      (if a.successor id s = target then a.unlink id s else a).block b =
        if b = id then
          { a.block b with
            links := if ((a.block b).links.get s).block = target then
                (a.block b).links.set (.trampoline s) s
              else (a.block b).links }
        else a.block b := by
    intro a s b hs
    by_cases ht : ((a.block id).links.get s).block = target
    · rw [if_pos (show a.successor id s = target from ht), block_unlink b (hs s)]
      by_cases hb : b = id
      · subst hb; simp [ht]
      · simp [hb]
    · rw [if_neg (show ¬ a.successor id s = target from ht)]
      by_cases hb : b = id
      · subst hb; simp [ht]
      · simp [hb]
  have hs' : ∀ s, ((if a.successor id .first = target then a.unlink id .first else a).block
      (.trampoline s)).start = trampolinePosition s := by
    intro s
    rw [step a .first _ hs]
    split
    · exact hs s
    · exact hs s
  unfold unlinkExitsTo
  simp only [Slot.all, List.foldl_cons, List.foldl_nil]
  rw [step _ .second b hs', step a .first b hs]
  by_cases hb : b = id
  · simp only [hb, if_true, Links.without]
    by_cases h1 : ((a.block id).links.get .first).block = target
    · simp only [h1, if_true]
      by_cases h2 : ((a.block id).links.get .second).block = target <;>
        simp_all [Links.get, Links.set]
    · simp only [h1, if_false]
      by_cases h2 : ((a.block id).links.get .second).block = target <;>
        simp_all [Links.get, Links.set]
  · simp [hb]

end Arena

end Recompiler
