import Recompiler.Proofs.Arena.Records

/-!
# The link graph

Every linked exit is recorded exactly once in the ring of the block it leads
to, and a ring records nothing else.  So a ring names every exit that has to be
sent back when its block is torn down, and tearing down sends back those exits
and no others: `block_vacate` says what any record is afterwards.
-/

namespace Recompiler

namespace Arena

/-- Exits and rings agree, and exits hold the position they lead to. -/
structure Linked (a : Arena) : Prop where
  /-- The trampolines are never touched. -/
  stub : ∀ s, a.block (.trampoline s) = .trampoline s
  distinct : ∀ t, (a.block t).ring.Distinct
  /-- Linked exits lead to compiled code. -/
  live : ∀ d s, (a.successor d s).isTrampoline = false → a.isLive (a.successor d s) = true
  /-- Linked exits are exits the block has. -/
  exit : ∀ d s, (a.successor d s).isTrampoline = false →
    s.index < (a.block d).kind.exitCount
  /-- Linked exits are recorded. -/
  recorded : ∀ d s, (a.successor d s).isTrampoline = false →
    ⟨d, s⟩ ∈ (a.block (a.successor d s)).ring.toList
  /-- What is recorded is linked. -/
  entry : ∀ t e, e ∈ (a.block t).ring.toList → a.successor e.block e.slot = t
  position : ∀ d s, a.slotPosition d s = (a.block (a.successor d s)).start
  /-- What is not compiled is linked to nothing. -/
  clean : ∀ d, a.isLive d = false → (a.block d).links = .unlinked ∧ (a.block d).ring = .empty

namespace Linked

variable {a : Arena} (h : a.Linked)

include h

theorem stub_start (s : Slot) : (a.block (.trampoline s)).start = trampolinePosition s := by
  rw [h.stub]; rfl

theorem isLive_trampoline {id : BlockId} (hi : id.isTrampoline = true) :
    a.isLive id = false := by
  obtain ⟨s, rfl⟩ := BlockId.isTrampoline_iff.mp hi
  rw [isLive, h.stub]
  rfl

theorem not_trampoline_of_isLive {id : BlockId} (hi : a.isLive id = true) :
    id.isTrampoline = false := by
  by_contra hc
  rw [Bool.not_eq_false] at hc
  rw [h.isLive_trampoline hc] at hi
  cases hi

theorem ring_eq_nil {t : BlockId} (ht : a.isLive t = false) :
    (a.block t).ring.toList = [] := by
  rw [(h.clean t ht).2, Ring.toList_empty]

theorem successor_of_not_isLive {d : BlockId} (hd : a.isLive d = false) (s : Slot) :
    a.successor d s = .trampoline s := by
  rw [successor, (h.clean d hd).1, Links.get_unlinked]
  rfl

theorem isLive_of_linked {d : BlockId} {s : Slot} (ht : (a.successor d s).isTrampoline = false) :
    a.isLive d = true :=
  BlockKind.isLive_of_lt_exitCount (h.exit d s ht)

/-- A ring names a block exactly when an exit of it leads to the ring's. -/
theorem mem_ring_iff {t d : BlockId} {s : Slot} (ht : t.isTrampoline = false) :
    ⟨d, s⟩ ∈ (a.block t).ring.toList ↔ a.successor d s = t := by
  constructor
  · exact h.entry t ⟨d, s⟩
  · intro hs
    have := h.recorded d s (hs ▸ ht)
    rwa [hs] at this

end Linked

theorem Linked.of_unlinked {a : Arena} (hstub : ∀ s, a.block (.trampoline s) = .trampoline s)
    (hlinks : ∀ d, (a.block d).links = .unlinked) (hring : ∀ d, (a.block d).ring = .empty) :
    a.Linked := by
  have hsucc : ∀ d s, a.successor d s = .trampoline s := fun d s => by
    rw [successor, hlinks, Links.get_unlinked]
    rfl
  have hhome : ∀ d s, (a.successor d s).isTrampoline = true := fun d s => by
    rw [hsucc, BlockId.isTrampoline_trampoline]
  refine ⟨hstub, fun t => ?_, fun d s hT => ?_, fun d s hT => ?_, fun d s hT => ?_,
    fun t e he => ?_, fun d s => ?_, fun d _ => ⟨hlinks d, hring d⟩⟩
  · rw [hring]
    exact Ring.Distinct.empty
  · cases (hhome d s).symm.trans hT
  · cases (hhome d s).symm.trans hT
  · cases (hhome d s).symm.trans hT
  · rw [hring, Ring.toList_empty] at he
    cases he
  · rw [hsucc, hstub, slotPosition, hlinks, Links.get_unlinked]
    rfl

/-- The link graph is a matter of links and rings, and of kind and place of
what is compiled. -/
theorem Linked.congr {a b : Arena} (h : a.Linked)
    (hstub : ∀ s, b.block (.trampoline s) = .trampoline s)
    (hlinks : ∀ d, (b.block d).links = (a.block d).links)
    (hring : ∀ d, (b.block d).ring = (a.block d).ring)
    (hkind : ∀ d, a.isLive d = true →
      (b.block d).kind = (a.block d).kind ∧ (b.block d).start = (a.block d).start) :
    b.Linked := by
  have hsucc : ∀ d s, b.successor d s = a.successor d s := fun d s => by
    rw [successor, hlinks]; rfl
  refine ⟨hstub, fun t => hring t ▸ h.distinct t, ?_, ?_, ?_, ?_, ?_, ?_⟩
  · intro d s ht
    rw [hsucc] at ht ⊢
    rw [isLive, Descriptor.isLive, (hkind _ (h.live d s ht)).1]
    exact h.live d s ht
  · intro d s ht
    rw [hsucc] at ht
    rw [(hkind d (h.isLive_of_linked ht)).1]
    exact h.exit d s ht
  · intro d s ht
    rw [hsucc] at ht ⊢
    rw [hring]
    exact h.recorded d s ht
  · intro t e he
    rw [hsucc]
    exact h.entry t e (hring t ▸ he)
  · intro d s
    rw [slotPosition, hsucc, hlinks]
    cases hT : (a.successor d s).isTrampoline with
    | true =>
        obtain ⟨t, ht⟩ := BlockId.isTrampoline_iff.mp hT
        rw [ht, hstub, ← h.stub, ← ht]
        exact h.position d s
    | false =>
        rw [(hkind _ (h.live d s hT)).2]
        exact h.position d s
  · intro d hd
    rw [hlinks, hring]
    refine h.clean d (eq_false_of_ne_true fun hlive => ?_)
    rw [isLive, Descriptor.isLive, (hkind d hlive).1] at hd
    rw [show (a.block d).kind.isLive = a.isLive d from rfl, hlive] at hd
    cases hd

/-- A block that is not compiled may be changed at will, but for links. -/
theorem Linked.modify {a : Arena} (h : a.Linked) {id : BlockId} (hid : id.isTrampoline = false)
    (hd : a.isLive id = false) {f : Descriptor → Descriptor}
    (hlinks : (f (a.block id)).links = .unlinked) (hring : (f (a.block id)).ring = .empty) :
    (a.modify id f).Linked := by
  obtain ⟨hl, hr⟩ := h.clean id hd
  refine h.congr (fun s => ?_) (fun d => ?_) (fun d => ?_) fun d hdl => ?_
  · rw [block_modify, if_neg, h.stub]
    rintro ⟨rfl, _⟩
    rw [BlockId.isTrampoline_trampoline] at hid
    cases hid
  · rw [block_modify]
    split
    · next he => rw [← he.1, hlinks, hl]
    · rfl
  · rw [block_modify]
    split
    · next he => rw [← he.1, hring, hr]
    · rfl
  · rw [block_modify, if_neg]
    · exact ⟨rfl, rfl⟩
    · rintro ⟨rfl, _⟩
      rw [hd] at hdl
      cases hdl

theorem Linked.of_block {a b : Arena} (h : a.Linked) (hb : ∀ d, b.block d = a.block d) :
    b.Linked :=
  h.congr (fun s => (hb _).trans (h.stub s)) (fun d => by rw [hb]) (fun d => by rw [hb])
    fun d _ => by rw [hb]; exact ⟨rfl, rfl⟩

/-! ## Tearing a block down -/

/-- Takes a block out of the rings of the blocks that links lead to. -/
def forgetTargets (links : Links) (id : BlockId) (slots : List Slot) (a : Arena) : Arena :=
  slots.foldl
    (fun a s =>
      let target := (links.get s).block
      if target.isTrampoline then a else a.forgetExitsOf target id) a

def unlinkSources (id : BlockId) (entries : List ExitRef) (a : Arena) : Arena :=
  entries.foldl (fun a e => a.unlinkExitsTo e.block id) a

theorem vacate_eq (a : Arena) (id : BlockId) :
    a.vacate id =
      unlinkSources id (a.block id).ring.toList
        (forgetTargets (a.block id).links id Slot.all (a.modify id Descriptor.vacated)) :=
  rfl

theorem block_forgetTargets (links : Links) (id : BlockId) (slots : List Slot)
    (a : Arena) (b : BlockId) :
    (forgetTargets links id slots a).block b =
      if ∃ s ∈ slots, (links.get s).block = b ∧ b.isTrampoline = false then
        { a.block b with ring := (a.block b).ring.erase fun e => e.block = id }
      else a.block b := by
  induction slots generalizing a with
  | nil => simp [forgetTargets]
  | cons s rest ih =>
      simp only [forgetTargets, List.foldl_cons] at ih ⊢
      rw [ih]
      by_cases hT : (links.get s).block.isTrampoline
      · have hne : ¬((links.get s).block = b ∧ b.isTrampoline = false) := by
          rintro ⟨rfl, hb⟩
          rw [hT] at hb
          cases hb
        simp only [hT, if_true, List.mem_cons, exists_eq_or_imp, hne, false_or]
      · simp only [hT, Bool.false_eq_true, if_false, block_forgetExitsOf, List.mem_cons,
          exists_eq_or_imp]
        by_cases hb : b = (links.get s).block
        · subst hb
          simp only [if_true, Ring.erase_erase, hT, and_self, true_or, ite_self]
        · simp only [hb, if_false, Ne.symm hb, false_and, false_or]

theorem block_unlinkSources (id : BlockId) (entries : List ExitRef) (a : Arena) (b : BlockId)
    (hs : ∀ s, (a.block (.trampoline s)).start = trampolinePosition s) :
    (unlinkSources id entries a).block b =
      if ∃ e ∈ entries, e.block = b then
        { a.block b with links := (a.block b).links.without id }
      else a.block b := by
  induction entries generalizing a with
  | nil => simp [unlinkSources]
  | cons e rest ih =>
      have hs' : ∀ s, ((a.unlinkExitsTo e.block id).block (.trampoline s)).start =
          trampolinePosition s := fun s => by
        rw [← (Alike.unlinkExitsTo a e.block id).start]; exact hs s
      simp only [unlinkSources, List.foldl_cons] at ih ⊢
      rw [ih _ hs', block_unlinkExitsTo b hs]
      by_cases hb : b = e.block
      · subst hb
        simp only [if_true, Links.without_without, List.mem_cons, exists_eq_or_imp,
          true_or, ite_self]
      · simp only [hb, if_false, List.mem_cons, exists_eq_or_imp, Ne.symm hb, false_or]

/-- Where no exit of a block leads, its name is not in the ring: so going
through the targets takes it out of every ring. -/
theorem block_forgetTargets_vacated {a : Arena} (h : a.Linked) (id b : BlockId) :
    (forgetTargets (a.block id).links id Slot.all (a.modify id Descriptor.vacated)).block b =
      if b = id then (a.block b).vacated
      else { a.block b with ring := (a.block b).ring.erase fun e => e.block = id } := by
  rw [block_forgetTargets, block_modify_of_unused _ _ _ rfl]
  by_cases hb : b = id
  · subst hb
    simp [Descriptor.vacated]
  simp only [hb, if_false]
  split
  · rfl
  · next hno =>
      have : (a.block b).ring.erase (fun e => e.block = id) = (a.block b).ring := by
        apply Ring.erase_eq_self
        intro e he
        rw [decide_eq_false_iff_not]
        rintro rfl
        refine hno ⟨e.slot, Slot.mem_all _, h.entry b e he, ?_⟩
        by_contra hT
        rw [Bool.not_eq_false] at hT
        rw [h.ring_eq_nil (h.isLive_trampoline hT)] at he
        cases he
      rw [this]

/-- **What tearing a block down leaves.**  The block itself is free and clean;
of every other the exits that led to it are sent back and the entries that
named it are gone. -/
theorem block_vacate {a : Arena} (h : a.Linked) {id : BlockId}
    (hid : id.isTrampoline = false) (b : BlockId) :
    (a.vacate id).block b =
      if b = id then (a.block b).vacated
      else
        { a.block b with
          links := (a.block b).links.without id
          ring := (a.block b).ring.erase fun e => e.block = id } := by
  have hforgot := block_forgetTargets_vacated h id
  have hstub : ∀ s, ((forgetTargets (a.block id).links id Slot.all
      (a.modify id Descriptor.vacated)).block (.trampoline s)).start = trampolinePosition s := by
    intro s
    rw [hforgot]
    split
    · exact h.stub_start s
    · exact h.stub_start s
  rw [vacate_eq, block_unlinkSources _ _ _ _ hstub, hforgot]
  by_cases hb : b = id
  · subst hb
    simp [Descriptor.vacated]
  simp only [hb, if_false]
  split
  · rfl
  · next hno =>
      have : (a.block b).links.without id = (a.block b).links := by
        apply Links.without_eq_self
        intro s hs
        exact hno ⟨⟨b, s⟩, (h.mem_ring_iff hid).mpr hs, rfl⟩
      rw [this]

theorem link_vacate {a : Arena} (h : a.Linked) {id : BlockId} (hid : id.isTrampoline = false)
    (d : BlockId) (s : Slot) :
    ((a.vacate id).block d).links.get s =
      if d = id ∨ a.successor d s = id then .trampoline s else (a.block d).links.get s := by
  rw [block_vacate h hid]
  by_cases hd : d = id
  · simp [hd, Descriptor.vacated]
  · simp only [hd, if_false, false_or, Links.get_without]
    rfl

theorem successor_vacate {a : Arena} (h : a.Linked) {id : BlockId}
    (hid : id.isTrampoline = false) (d : BlockId) (s : Slot) :
    (a.vacate id).successor d s =
      if d = id ∨ a.successor d s = id then .trampoline s else a.successor d s := by
  rw [successor, link_vacate h hid]
  split
  · rfl
  · rfl

theorem mem_ring_vacate {a : Arena} (h : a.Linked) {id : BlockId}
    (hid : id.isTrampoline = false) {t : BlockId} {e : ExitRef} :
    e ∈ ((a.vacate id).block t).ring.toList ↔
      t ≠ id ∧ e.block ≠ id ∧ e ∈ (a.block t).ring.toList := by
  rw [block_vacate h hid]
  by_cases ht : t = id
  · simp [ht, Descriptor.vacated]
  · simp [ht, Ring.mem_toList_erase, and_comm]

theorem start_vacate (a : Arena) (id b : BlockId) :
    ((a.vacate id).block b).start = (a.block b).start := by
  have h := congrArg Descriptor.start (core_vacate a id b)
  rw [Descriptor.start_core] at h
  rw [h]
  split <;> rfl

/-- An exit that is still linked is one of another block to another block. -/
theorem of_linked_vacate {a : Arena} (h : a.Linked) {id : BlockId} (hid : id.isTrampoline = false)
    {d : BlockId} {s : Slot} (ht : ((a.vacate id).successor d s).isTrampoline = false) :
    d ≠ id ∧ a.successor d s ≠ id ∧ (a.vacate id).successor d s = a.successor d s := by
  rw [successor_vacate h hid] at ht ⊢
  split at ht
  · rw [BlockId.isTrampoline_trampoline] at ht
    cases ht
  · next hn =>
      rw [not_or] at hn
      exact ⟨hn.1, hn.2, if_neg (not_or.mpr hn)⟩

theorem Linked.vacate {a : Arena} (h : a.Linked) {id : BlockId}
    (hid : id.isTrampoline = false) : (a.vacate id).Linked := by
  refine ⟨?_, ?_, ?_, ?_, ?_, ?_, ?_, ?_⟩
  · intro s
    have hne : BlockId.trampoline s ≠ id := by
      rintro rfl
      rw [BlockId.isTrampoline_trampoline] at hid
      cases hid
    rw [block_vacate h hid, if_neg hne, h.stub]
    simp [Descriptor.trampoline]
  · intro t
    rw [block_vacate h hid]
    split
    · exact Ring.Distinct.empty
    · exact (h.distinct t).erase _
  · intro d s ht
    obtain ⟨_, hne, he⟩ := of_linked_vacate h hid ht
    rw [he] at ht ⊢
    rw [isLive_vacate, if_neg hne]
    exact h.live d s ht
  · intro d s ht
    obtain ⟨hd, _, he⟩ := of_linked_vacate h hid ht
    rw [he] at ht
    rw [block_vacate h hid, if_neg hd]
    exact h.exit d s ht
  · intro d s ht
    obtain ⟨hd, hne, he⟩ := of_linked_vacate h hid ht
    rw [he] at ht ⊢
    exact (mem_ring_vacate h hid).mpr ⟨hne, hd, h.recorded d s ht⟩
  · intro t e he
    obtain ⟨ht, hb, he⟩ := (mem_ring_vacate h hid).mp he
    have := h.entry t e he
    rw [successor_vacate h hid, if_neg (not_or.mpr ⟨hb, this ▸ ht⟩), this]
  · intro d s
    rw [slotPosition, successor, link_vacate h hid]
    split
    · rw [start_vacate]
      exact (h.stub_start s).symm
    · rw [start_vacate]
      exact h.position d s
  · intro d hd
    rw [block_vacate h hid]
    rw [isLive_vacate] at hd
    split at hd
    · next hdi =>
        rw [if_pos hdi]
        exact ⟨rfl, rfl⟩
    · next hdi =>
        obtain ⟨hlinks, hring⟩ := h.clean d hd
        rw [if_neg hdi, hlinks, hring]
        exact ⟨Links.without_unlinked id, Ring.erase_empty _⟩

/-! ## Linking an exit -/

section RecordLink

variable {a : Arena} {target : BlockId} (e : ExitRef)

private def pushed (a : Arena) (e : ExitRef) (target : BlockId) : Arena :=
  a.modify target fun d => { d with ring := d.ring.push e }

private theorem links_pushed (b : BlockId) :
    ((a.pushed e target).block b).links = (a.block b).links :=
  field_modify a target b Descriptor.links fun _ => rfl

private theorem start_pushed (b : BlockId) :
    ((a.pushed e target).block b).start = (a.block b).start :=
  field_modify a target b Descriptor.start fun _ => rfl

private theorem ring_pushed (ht : a.isLive target = true) (b : BlockId) :
    ((a.pushed e target).block b).ring =
      if b = target then (a.block b).ring.push e else (a.block b).ring := by
  rw [pushed, block_modify_of_lt (lt_capacity_of_isLive ht)]
  split
  · rfl
  · rfl

private theorem recordLink_eq :
    a.recordLink e target =
      match (a.block target).ring.evicted? with
      | some old =>
          if (a.pushed e target).successor old.block old.slot = target then
            ((a.pushed e target).unlink old.block old.slot).count fun c =>
              { c with displaced := c.displaced + 1 }
          else a.pushed e target
      | none => a.pushed e target :=
  rfl

theorem ring_recordLink (ht : a.isLive target = true) (b : BlockId) :
    ((a.recordLink e target).block b).ring =
      if b = target then (a.block b).ring.push e else (a.block b).ring := by
  rw [recordLink_eq, ← ring_pushed e ht b]
  split
  · split
    · rw [block_count, unlink, ring_setLink]
    · rfl
  · rfl

theorem link_recordLink
    (hs : ∀ s, (a.block (.trampoline s)).start = trampolinePosition s)
    (hentry : ∀ x ∈ (a.block target).ring.toList, a.successor x.block x.slot = target)
    (d : BlockId) (s : Slot) :
    ((a.recordLink e target).block d).links.get s =
      if (a.block target).ring.evicted? = some ⟨d, s⟩ then .trampoline s
      else (a.block d).links.get s := by
  rw [recordLink_eq]
  cases he : (a.block target).ring.evicted? with
  | none => simp [links_pushed]
  | some old =>
      have hold : old ∈ (a.block target).ring.toList :=
        Ring.mem_iff_entry.mpr ⟨_, (Ring.evicted?_eq _).symm.trans he⟩
      have hsucc : (a.pushed e target).successor old.block old.slot = target := by
        rw [successor, links_pushed]
        exact hentry old hold
      simp only [hsucc, if_true, block_count]
      rw [block_unlink d (by rw [start_pushed]; exact hs _)]
      obtain ⟨ob, os⟩ := old
      simp only [Option.some.injEq, ExitRef.mk.injEq]
      by_cases hd : d = ob
      · subst hd
        by_cases hos : os = s
        · subst hos
          simp [Links.get_set]
        · simp [Links.get_set, hos, links_pushed]
      · simp [hd, Ne.symm hd, links_pushed]

end RecordLink

theorem of_link_ok {a a' : Arena} {source target : BlockId} {slot : Slot}
    (hl : a.link source slot target = .ok a') :
    (target.isTrampoline = true ∨ a.isLive target = true) ∧
      slot.index < (a.block source).kind.exitCount := by
  unfold link at hl
  split at hl
  · cases hl
  next ht =>
  split at hl
  · cases hl
  next hx =>
  refine ⟨?_, Nat.lt_of_not_le hx⟩
  cases h1 : target.isTrampoline
  · cases h2 : a.isLive target
    · simp [h1, h2] at ht
    · exact Or.inr rfl
  · exact Or.inl rfl

theorem isLive_source_of_link_ok {a a' : Arena} {source target : BlockId} {slot : Slot}
    (hl : a.link source slot target = .ok a') : a.isLive source = true :=
  BlockKind.isLive_of_lt_exitCount (of_link_ok hl).2

theorem link_eq_self {a a' : Arena} {source target : BlockId} {slot : Slot}
    (hl : a.link source slot target = .ok a') (hc : a.successor source slot = target) :
    a' = a := by
  unfold link at hl
  split at hl
  · cases hl
  split at hl
  · cases hl
  simp only [hc, if_true] at hl
  cases hl
  rfl

def forgetCurrent (a : Arena) (source : BlockId) (slot : Slot) : Arena :=
  let current := a.successor source slot
  if current.isTrampoline then a else a.eraseRing current (· = ⟨source, slot⟩)

theorem Alike.forgetCurrent (a : Arena) (source : BlockId) (slot : Slot) :
    a.Alike (a.forgetCurrent source slot) := by
  unfold Arena.forgetCurrent
  simp only
  split
  · exact Alike.refl a
  · exact Alike.eraseRing ..

theorem links_forgetCurrent (a : Arena) (source : BlockId) (slot : Slot) (b : BlockId) :
    ((a.forgetCurrent source slot).block b).links = (a.block b).links := by
  unfold forgetCurrent
  simp only
  split
  · rfl
  · exact links_eraseRing ..

theorem ring_forgetCurrent {a : Arena} (h : a.Linked) (source : BlockId) (slot : Slot)
    (b : BlockId) :
    ((a.forgetCurrent source slot).block b).ring =
      if b = a.successor source slot then (a.block b).ring.erase (· = ⟨source, slot⟩)
      else (a.block b).ring := by
  unfold forgetCurrent
  by_cases hT : (a.successor source slot).isTrampoline
  · simp only [hT, if_true]
    by_cases hb : b = a.successor source slot
    · rw [if_pos hb, Ring.erase_eq_self]
      rw [h.ring_eq_nil (h.isLive_trampoline (hb ▸ hT))]
      simp
    · rw [if_neg hb]
  · have hlive := h.live source slot (eq_false_of_ne_true hT)
    simp only [hT, Bool.false_eq_true, if_false, eraseRing]
    rw [block_modify_of_lt (lt_capacity_of_isLive hlive)]
    split
    · rfl
    · rfl

/-- A link that changes something, step by step. -/
theorem link_eq {a a' : Arena} {source target : BlockId} {slot : Slot}
    (hl : a.link source slot target = .ok a') (hc : a.successor source slot ≠ target) :
    a' =
      ((if target.isTrampoline then a.forgetCurrent source slot
        else (a.forgetCurrent source slot).recordLink ⟨source, slot⟩ target).setLink
          source slot target).count fun c => { c with links := c.links + 1 } := by
  unfold link at hl
  split at hl
  · cases hl
  split at hl
  · cases hl
  simp only [hc, if_false] at hl
  cases hl
  rfl

/-- The exit that linking to a block unlinks, if there is one. -/
def displaced? (a : Arena) (target : BlockId) : Option ExitRef :=
  if target.isTrampoline then none else (a.block target).ring.evicted?

/-- The exit that is unlinked led to the same block. -/
theorem Linked.successor_of_displaced {a : Arena} (h : a.Linked) {target d : BlockId} {s : Slot}
    (hd : a.displaced? target = some ⟨d, s⟩) :
    a.successor d s = target ∧ target.isTrampoline = false := by
  unfold displaced? at hd
  split at hd
  · cases hd
  · next hT =>
      exact ⟨h.entry target ⟨d, s⟩
        (Ring.mem_iff_entry.mpr ⟨_, (Ring.evicted?_eq _).symm.trans hd⟩),
        eq_false_of_ne_true hT⟩

theorem link_setLink (a : Arena) {source : BlockId} (hs : source.number < a.capacity) (slot : Slot)
    (target d : BlockId) (s : Slot) :
    ((a.setLink source slot target).block d).links.get s =
      if d = source ∧ s = slot then ⟨target, (a.block target).start⟩
      else (a.block d).links.get s := by
  rw [setLink, block_modify_of_lt hs]
  by_cases hd : d = source
  · subst hd
    by_cases hs : s = slot
    · simp [hs, Links.get_set]
    · simp [hs, Ne.symm hs, Links.get_set]
  · simp [hd]

section Link

variable {a a' : Arena} (h : a.Linked) {source target : BlockId} {slot : Slot}
  (hl : a.link source slot target = .ok a') (hc : a.successor source slot ≠ target)

include h hl hc

theorem ring_link (b : BlockId) :
    (a'.block b).ring =
      if b = a.successor source slot then (a.block b).ring.erase (· = ⟨source, slot⟩)
      else if b = target ∧ target.isTrampoline = false then
        (a.block b).ring.push ⟨source, slot⟩
      else (a.block b).ring := by
  rw [link_eq hl hc, block_count, ring_setLink]
  cases hT : target.isTrampoline with
  | true =>
      simp only [if_true, ring_forgetCurrent h, Bool.true_eq_false, and_false, if_false]
  | false =>
      have halive : (a.forgetCurrent source slot).isLive target = true := by
        rw [← (Alike.forgetCurrent a source slot).isLive]
        simpa [hT] using (of_link_ok hl).1
      simp only [Bool.false_eq_true, if_false, and_true]
      rw [ring_recordLink _ halive, ring_forgetCurrent h]
      by_cases hb : b = target
      · subst hb
        simp [Ne.symm hc]
      · simp [hb]

theorem link_link (d : BlockId) (s : Slot) :
    (a'.block d).links.get s =
      if d = source ∧ s = slot then ⟨target, (a.block target).start⟩
      else if a.displaced? target = some ⟨d, s⟩ then .trampoline s
      else (a.block d).links.get s := by
  have hsource := lt_capacity_of_isLive (isLive_source_of_link_ok hl)
  have halike := Alike.forgetCurrent a source slot
  have hlinks := links_forgetCurrent a source slot
  have hring : ((a.forgetCurrent source slot).block target).ring = (a.block target).ring := by
    rw [ring_forgetCurrent h, if_neg (Ne.symm hc)]
  have hset : ∀ c : Arena, a.Alike c →
      (∀ d s, (c.block d).links.get s =
        if a.displaced? target = some ⟨d, s⟩ then .trampoline s
        else (a.block d).links.get s) →
      ((c.setLink source slot target).block d).links.get s =
        if d = source ∧ s = slot then ⟨target, (a.block target).start⟩
        else if a.displaced? target = some ⟨d, s⟩ then .trampoline s
        else (a.block d).links.get s := by
    intro c hac hcl
    rw [link_setLink c (capacity_of_frame (frame_of_outline hac.outline) ▸ hsource), hac.start, hcl]
  rw [link_eq hl hc, block_count]
  generalize a.forgetCurrent source slot = b at halike hlinks hring ⊢
  cases hT : target.isTrampoline with
  | true =>
      simp only [if_true]
      refine hset _ halike fun d s => ?_
      simp [displaced?, hT, hlinks]
  | false =>
      simp only [Bool.false_eq_true, if_false]
      refine hset _ (halike.trans (Alike.recordLink ..)) fun d s => ?_
      rw [link_recordLink]
      · simp [displaced?, hT, hring, hlinks]
      · intro s
        rw [← halike.start]
        exact h.stub_start s
      · intro x hx
        rw [successor, hlinks]
        exact h.entry target x (hring ▸ hx)

theorem successor_link (d : BlockId) (s : Slot) :
    a'.successor d s =
      if d = source ∧ s = slot then target
      else if a.displaced? target = some ⟨d, s⟩ then .trampoline s
      else a.successor d s := by
  rw [successor, link_link h hl hc]
  split
  · rfl
  · split
    · rfl
    · rfl

theorem mem_ring_link {t : BlockId} {e : ExitRef} :
    e ∈ (a'.block t).ring.toList ↔
      if e = ⟨source, slot⟩ then t = target ∧ target.isTrampoline = false
      else e ∈ (a.block t).ring.toList ∧ ¬(t = target ∧ a.displaced? target = some e) := by
  rw [ring_link h hl hc]
  by_cases htc : t = a.successor source slot
  · have htt : t ≠ target := fun heq => hc (htc ▸ heq)
    rw [if_pos htc, Ring.mem_toList_erase]
    by_cases he : e = ⟨source, slot⟩
    · simp [he, htt]
    · simp [he, htt]
  · have hself : ⟨source, slot⟩ ∉ (a.block t).ring.toList :=
      fun hm => htc (h.entry t _ hm).symm
    rw [if_neg htc]
    by_cases htt : t = target ∧ target.isTrampoline = false
    · obtain ⟨rfl, hT⟩ := htt
      rw [if_pos ⟨rfl, hT⟩, Ring.mem_push (h.distinct t)]
      by_cases he : e = ⟨source, slot⟩
      · simp [he, hT]
      · simp [he, displaced?, hT]
    · rw [if_neg htt]
      by_cases he : e = ⟨source, slot⟩
      · subst he
        simp [hself, htt]
      · rw [if_neg he]
        constructor
        · intro hm
          refine ⟨hm, ?_⟩
          rintro ⟨rfl, hd⟩
          unfold displaced? at hd
          split at hd
          · cases hd
          · next hT => exact htt ⟨rfl, eq_false_of_ne_true hT⟩
        · exact fun hm => hm.1

/-- A linked exit is the one just linked, or one that was linked and stays. -/
theorem successor_link_cases {d : BlockId} {s : Slot}
    (ht : (a'.successor d s).isTrampoline = false) :
    (d = source ∧ s = slot ∧ a'.successor d s = target ∧ target.isTrampoline = false) ∨
      (¬(d = source ∧ s = slot) ∧ a.displaced? target ≠ some ⟨d, s⟩ ∧
        a'.successor d s = a.successor d s) := by
  rw [successor_link h hl hc] at ht ⊢
  split at ht
  · next hds => exact Or.inl ⟨hds.1, hds.2, by rw [if_pos hds], ht⟩
  · next hds =>
      split at ht
      · rw [BlockId.isTrampoline_trampoline] at ht
        cases ht
      · next hdisp => exact Or.inr ⟨hds, hdisp, by rw [if_neg hds, if_neg hdisp]⟩

theorem clean_link {d : BlockId} (hd : a.isLive d = false) :
    (a'.block d).links = .unlinked ∧ (a'.block d).ring = .empty := by
  obtain ⟨hlinks, hring⟩ := h.clean d hd
  constructor
  · refine Links.ext_get fun s => ?_
    have hds : ¬(d = source ∧ s = slot) := by
      rintro ⟨rfl, _⟩
      rw [isLive_source_of_link_ok hl] at hd
      cases hd
    rw [link_link h hl hc, if_neg hds, hlinks, Links.get_unlinked, ite_self]
  · have htarget := (of_link_ok hl).1
    rw [ring_link h hl hc, hring, if_neg (c := d = target ∧ _), Ring.erase_empty, ite_self]
    rintro ⟨rfl, hT⟩
    rw [hT, hd] at htarget
    simp at htarget

theorem distinct_link (t : BlockId) : (a'.block t).ring.Distinct := by
  rw [ring_link h hl hc]
  split
  · exact (h.distinct t).erase _
  · next hne =>
      split
      · exact (h.distinct t).push fun hm => hne (h.entry t _ hm).symm
      · exact h.distinct t

theorem isLive_successor_link {d : BlockId} {s : Slot}
    (ht : (a'.successor d s).isTrampoline = false) : a.isLive (a'.successor d s) = true := by
  obtain ⟨_, _, he, hT⟩ | ⟨_, _, he⟩ := successor_link_cases h hl hc ht
  · have htarget := (of_link_ok hl).1
    rw [he]
    simpa [hT] using htarget
  · rw [he] at ht ⊢
    exact h.live d s ht

theorem recorded_link {d : BlockId} {s : Slot} (ht : (a'.successor d s).isTrampoline = false) :
    ⟨d, s⟩ ∈ (a'.block (a'.successor d s)).ring.toList := by
  rw [mem_ring_link h hl hc]
  obtain ⟨rfl, rfl, he, hT⟩ | ⟨hds, hdisp, he⟩ := successor_link_cases h hl hc ht
  · simp [he, hT]
  · rw [he] at ht ⊢
    have hne : (⟨d, s⟩ : ExitRef) ≠ ⟨source, slot⟩ := by
      simpa [ExitRef.mk.injEq] using hds
    rw [if_neg hne]
    exact ⟨h.recorded d s ht, fun hx => hdisp hx.2⟩

theorem successor_of_mem_ring_link {t d : BlockId} {s : Slot}
    (he : ⟨d, s⟩ ∈ (a'.block t).ring.toList) : a'.successor d s = t := by
  rw [mem_ring_link h hl hc] at he
  rw [successor_link h hl hc]
  simp only [ExitRef.mk.injEq] at he
  split at he
  · next hds => rw [if_pos hds, he.1]
  · next hds =>
      have hsucc := h.entry t ⟨d, s⟩ he.1
      rw [if_neg hds, if_neg, hsucc]
      intro hdisp
      rw [(h.successor_of_displaced hdisp).1] at hsucc
      exact he.2 ⟨hsucc.symm, hdisp⟩

theorem slotPosition_link (d : BlockId) (s : Slot) :
    a'.slotPosition d s = (a.block (a'.successor d s)).start := by
  rw [slotPosition, successor_link h hl hc, link_link h hl hc]
  split
  · rfl
  · split
    · exact (h.stub_start s).symm
    · exact h.position d s

end Link

theorem Linked.link {a a' : Arena} (h : a.Linked) {source target : BlockId} {slot : Slot}
    (hl : a.link source slot target = .ok a') : a'.Linked := by
  by_cases hc : a.successor source slot = target
  · rw [link_eq_self hl hc]
    exact h
  have halike := Alike.link hl
  refine ⟨?_, distinct_link h hl hc, ?_, ?_, fun _ _ => recorded_link h hl hc,
    fun _ _ => successor_of_mem_ring_link h hl hc, ?_, ?_⟩
  · intro s
    obtain ⟨hlinks, hring⟩ :=
      clean_link h hl hc (h.isLive_trampoline (BlockId.isTrampoline_trampoline s))
    refine Descriptor.ext_core ?_ hlinks hring
    rw [← halike.core, h.stub]
  · intro d s ht
    rw [← halike.isLive]
    exact isLive_successor_link h hl hc ht
  · intro d s ht
    rw [← halike.kind]
    obtain ⟨rfl, rfl, _, _⟩ | ⟨_, _, he⟩ := successor_link_cases h hl hc ht
    · exact (of_link_ok hl).2
    · exact h.exit d s (he ▸ ht)
  · intro d s
    rw [slotPosition_link h hl hc, halike.start]
  · intro d hd
    exact clean_link h hl hc ((halike.isLive d).trans hd)

/-! ## Unlinked exits

An exit that is not linked lies at the trampoline of its own slot, as long as
nobody sends it to the other one.
-/

/-- Every unlinked exit leads to the trampoline of its slot. -/
def Homed (a : Arena) : Prop :=
  ∀ d s, (a.successor d s).isTrampoline = true → a.successor d s = .trampoline s

namespace Homed

variable {a : Arena} (h : a.Homed)

include h

theorem of_links {b : Arena} (hl : ∀ d, (b.block d).links = (a.block d).links) : b.Homed := by
  intro d s
  rw [successor, hl]
  exact h d s

theorem modify (id : BlockId) {f : Descriptor → Descriptor}
    (hl : (f (a.block id)).links = .unlinked) : (a.modify id f).Homed := by
  intro d s ht
  rw [successor, block_modify] at ht ⊢
  split at ht
  · next he =>
      rw [if_pos he, ← he.1, hl, Links.get_unlinked]
      rfl
  · next he =>
      rw [if_neg he]
      exact h d s ht

theorem vacate (hl : a.Linked) {id : BlockId} (hid : id.isTrampoline = false) :
    (a.vacate id).Homed := by
  intro d s ht
  rw [successor_vacate hl hid] at ht ⊢
  split
  · rfl
  · next hn =>
      rw [if_neg hn] at ht
      exact h d s ht

theorem link {a' : Arena} (hlinked : a.Linked) {source target : BlockId} {slot : Slot}
    (htarget : a.isLive target = true ∨ target = .trampoline slot)
    (hl : a.link source slot target = .ok a') : a'.Homed := by
  by_cases hc : a.successor source slot = target
  · rw [link_eq_self hl hc]
    exact h
  intro d s ht
  rw [successor_link hlinked hl hc] at ht ⊢
  split
  · next hds =>
      rw [if_pos hds] at ht
      rcases htarget with hlive | hhome
      · rw [hlinked.not_trampoline_of_isLive hlive] at ht
        cases ht
      · rw [hhome, hds.2]
  · next hds =>
      rw [if_neg hds] at ht
      split
      · rfl
      · next hdisp =>
          rw [if_neg hdisp] at ht
          exact h d s ht

end Homed

/-! ## What is left

Tearing blocks down leaves the others as they were, except that exits which led
to one that is gone are at home again.
-/

/-- An arena that differs in blocks torn down and exits sent home only. -/
structure Shrinks (a a' : Arena) : Prop where
  core : ∀ b, a'.isLive b = true → (a'.block b).core = (a.block b).core
  link : ∀ d s, a'.successor d s = a.successor d s ∨ a'.successor d s = .trampoline s
  generation : ∀ b, (a'.block b).generation = (a.block b).generation

namespace Shrinks

theorem refl (a : Arena) : a.Shrinks a := ⟨fun _ _ => rfl, fun _ _ => Or.inl rfl, fun _ => rfl⟩

theorem isLive {a b : Arena} (h : a.Shrinks b) {d : BlockId} (hd : b.isLive d = true) :
    a.isLive d = true := by
  have := congrArg Descriptor.isLive (h.core d hd)
  rw [Descriptor.isLive_core, Descriptor.isLive_core] at this
  exact this.symm.trans hd

theorem trans {a b c : Arena} (h : a.Shrinks b) (h' : b.Shrinks c) : a.Shrinks c := by
  refine ⟨fun d hd => (h'.core d hd).trans (h.core d (h'.isLive hd)), fun d s => ?_,
    fun d => (h'.generation d).trans (h.generation d)⟩
  rcases h'.link d s with he | he
  · rw [he]
    exact h.link d s
  · exact Or.inr he

theorem of_block {a b c : Arena} (h : a.Shrinks b)
    (hcore : ∀ d, (c.block d).core = (b.block d).core)
    (hlinks : ∀ d, (c.block d).links = (b.block d).links) : a.Shrinks c := by
  refine h.trans ⟨fun d _ => hcore d, fun d s => Or.inl ?_, fun d => ?_⟩
  · rw [successor, hlinks]
    rfl
  · rw [← Descriptor.generation_core, hcore, Descriptor.generation_core]

theorem count (a : Arena) (f : Counters → Counters) : a.Shrinks (a.count f) :=
  (refl a).of_block (fun _ => rfl) fun _ => rfl

theorem vacate {a : Arena} (hl : a.Linked) {id : BlockId} (hid : id.isTrampoline = false) :
    a.Shrinks (a.vacate id) := by
  refine ⟨fun b hb => ?_, fun d s => ?_, fun b => ?_⟩
  · rw [isLive_vacate] at hb
    rw [core_vacate]
    split at hb
    · cases hb
    · next hne => rw [if_neg hne]
  · rw [successor_vacate hl hid]
    split
    · exact Or.inr rfl
    · exact Or.inl rfl
  · rw [← Descriptor.generation_core, core_vacate]
    split
    · rfl
    · rfl

theorem modify {a : Arena} (hl : a.Linked) (id : BlockId) (hd : a.isLive id = false)
    {f : Descriptor → Descriptor} (hlive : (f (a.block id)).isLive = false)
    (hlinks : (f (a.block id)).links = .unlinked)
    (hgeneration : ∀ d, (f d).generation = d.generation) : a.Shrinks (a.modify id f) := by
  refine ⟨fun b hb => ?_, fun d s => Or.inl ?_,
    fun b => field_modify a id b Descriptor.generation hgeneration⟩
  · rw [Arena.isLive, block_modify] at hb
    rw [block_modify]
    split at hb
    · next he =>
        rw [← he.1, hlive] at hb
        cases hb
    · next hn => rw [if_neg hn]
  · rw [successor, successor, block_modify]
    split
    · next he => rw [← he.1, hlinks, (hl.clean id hd).1]
    · rfl

theorem homed {a b : Arena} (h : a.Shrinks b) (hh : a.Homed) : b.Homed := by
  intro d s hs
  rcases h.link d s with he | he
  · rw [he] at hs ⊢
    exact hh d s hs
  · exact he

end Shrinks

end Arena

end Recompiler
