import Recompiler.Proofs.Arena.New
import Recompiler.Proofs.Store.Open

/-!
# The link graph over any history

A store of compiled code sees regions opened, code written, blocks closed,
blocks torn down and exits linked, in any order.  Each of these keeps layout
and link graph, so both hold of every store there ever is.
-/

namespace Recompiler

namespace CodeStore

/-- What may be done to a store. -/
inductive Action where
  | openRegion
  | emit (op : Operation)
  | fill (byte : UInt8) (n : Nat)
  | emitProgram (ops : List Operation)
  | close (kind : BlockKind) (program : List Operation)
  | discard (id : BlockId)
  | link (source : BlockId) (slot : Slot) (target : BlockId)
  deriving DecidableEq

def perform (s : CodeStore) : Action → Except Fault CodeStore
  | .openRegion => do
      let (_, s) ← s.openRegion
      return s
  | .emit op => do
      let arena ← s.arena.emit op
      return { s with arena }
  | .fill byte n => do
      let arena ← s.arena.fill byte n
      return { s with arena }
  | .emitProgram ops => do
      let arena ← s.arena.emitProgram ops
      return { s with arena }
  | .close kind program => do
      let (_, arena) ← s.arena.close kind program
      return { s with arena }
  | .discard id => s.discard id
  | .link source slot target => do
      let arena ← s.arena.link source slot target
      return { s with arena }

/-- Stores that come of a new one by actions that were allowed and did not
fail. -/
inductive Reached (settings : Settings) (allowed : CodeStore → Action → Prop) :
    CodeStore → Prop
  | new : Reached settings allowed (.new settings)
  | perform {s s' : CodeStore} {a : Action} (h : Reached settings allowed s)
      (ha : allowed s a) (hp : s.perform a = .ok s') : Reached settings allowed s'

/-- Whether an action links an exit, if it does, to compiled code or to the
trampoline of its own slot. -/
def LinksHome (s : CodeStore) : Action → Prop
  | .link _ slot target => s.arena.isLive target = true ∨ target = .trampoline slot
  | _ => True

/-! ## One action -/

theorem of_perform_ok {s s' : CodeStore} {action : Action} (h : s.perform action = .ok s') :
    match action with
    | .openRegion => ∃ id, s.openRegion = .ok (id, s')
    | .emit _ | .fill _ _ | .emitProgram _ => ∃ pen, s' = { s with arena := { s.arena with pen } }
    | .close kind program => ∃ id a, s.arena.close kind program = .ok (id, a) ∧
        s' = { s with arena := a }
    | .discard id => s.discard id = .ok s'
    | .link source slot target => ∃ a, s.arena.link source slot target = .ok a ∧
        s' = { s with arena := a } := by
  cases action with
  | openRegion =>
      obtain ⟨⟨id, _⟩, ho, h⟩ := bind_eq_ok_iff.mp h
      cases h
      exact ⟨id, ho⟩
  | emit _ | emitProgram _ =>
      obtain ⟨a, he, h⟩ := bind_eq_ok_iff.mp h
      cases h
      exact ⟨_, by rw [Arena.of_checked_ok he]⟩
  | fill byte n =>
      obtain ⟨a, he, h⟩ := bind_eq_ok_iff.mp h
      cases h
      exact ⟨_, by rw [Arena.of_fill_ok he]⟩
  | close kind program =>
      obtain ⟨⟨id, a⟩, hc, h⟩ := bind_eq_ok_iff.mp h
      cases h
      exact ⟨id, a, hc, rfl⟩
  | discard id => exact h
  | link source slot target =>
      obtain ⟨a, hl, h⟩ := bind_eq_ok_iff.mp h
      cases h
      exact ⟨a, hl, rfl⟩

/-- A store whose arena is laid out and linked as it should be. -/
structure Sound (s : CodeStore) : Prop where
  arranged : s.arena.Arranged
  linked : s.arena.Linked

theorem Sound.discard {s s' : CodeStore} {id : BlockId} (h : s.Sound)
    (hd : s.discard id = .ok s') : s'.Sound := by
  rcases of_discard_ok hd with ⟨_, rfl⟩ | ⟨hid, s₁, _, rfl⟩
  · exact h
  · exact ⟨h.arranged.vacate id, h.linked.vacate hid⟩

/-- **Every action keeps layout and link graph,** links to the wrong trampoline
included. -/
theorem Sound.perform {s s' : CodeStore} {action : Action} (h : s.Sound)
    (hp : s.perform action = .ok s') : s'.Sound := by
  have hp := of_perform_ok hp
  cases action with
  | openRegion =>
      obtain ⟨id, ho⟩ := hp
      obtain ⟨_, hact, _, _, hre⟩ := reopened_of_ok h.arranged ho
      exact ⟨hre.arranged h.arranged hact, linked_openRegion h.arranged h.linked ho⟩
  | emit _ | fill _ _ | emitProgram _ =>
      obtain ⟨pen, rfl⟩ := hp
      exact ⟨h.arranged.setPen pen, h.linked.of_block fun _ => rfl⟩
  | close _ _ =>
      obtain ⟨id, a, hc, rfl⟩ := hp
      exact ⟨h.arranged.close hc, Arena.Linked.close h.arranged hc h.linked⟩
  | discard id => exact h.discard hp
  | link _ _ _ =>
      obtain ⟨a, hl, rfl⟩ := hp
      exact ⟨h.arranged.link hl, h.linked.link hl⟩

theorem homed_perform {s s' : CodeStore} {action : Action} (h : s.Sound) (hh : s.arena.Homed)
    (ha : LinksHome s action) (hp : s.perform action = .ok s') : s'.arena.Homed := by
  have hp := of_perform_ok hp
  cases action with
  | openRegion =>
      obtain ⟨id, ho⟩ := hp
      exact homed_openRegion h.arranged h.linked ho hh
  | emit _ | fill _ _ | emitProgram _ =>
      obtain ⟨pen, rfl⟩ := hp
      exact hh.of_links fun _ => rfl
  | close _ _ =>
      obtain ⟨id, a, hc, rfl⟩ := hp
      exact Arena.Homed.close h.arranged hc h.linked hh
  | discard id =>
      rcases of_discard_ok hp with ⟨_, rfl⟩ | ⟨hid, s₁, _, rfl⟩
      · exact hh
      · exact hh.vacate h.linked hid
  | link _ _ _ =>
      obtain ⟨a, hl, rfl⟩ := hp
      exact hh.link h.linked ha hl

theorem sound_new {settings : Settings} (hs : settings.Valid) : (CodeStore.new settings).Sound :=
  ⟨Arena.Arranged.new hs, Arena.Linked.new hs⟩

theorem Reached.sound {settings : Settings} {allowed : CodeStore → Action → Prop} {s : CodeStore}
    (hs : settings.Valid) (h : Reached settings allowed s) : s.Sound := by
  induction h with
  | new => exact sound_new hs
  | perform _ _ hp ih => exact ih.perform hp

theorem Reached.homed {settings : Settings} {s : CodeStore} (hs : settings.Valid)
    (h : Reached settings LinksHome s) : s.arena.Homed := by
  induction h with
  | new => exact Arena.Homed.new hs
  | perform h ha hp ih => exact homed_perform (h.sound hs) ih ha hp

/-! ## The link graph -/

/-- What links, rings and what compiled code jumps to have to do with each
other. -/
structure LinkGraph (a : Arena) : Prop where
  /-- An exit is at home, or it is an exit of a compiled block that leads to
  one, and is recorded there exactly once. -/
  exit : ∀ d s, a.successor d s = .trampoline s ∨
    (a.isLive (a.successor d s) = true ∧ a.isLive d = true ∧
      s.index < (a.block d).kind.exitCount ∧
      (a.block (a.successor d s)).ring.toList.count ⟨d, s⟩ = 1)
  entry : ∀ t e, e ∈ (a.block t).ring.toList → a.successor e.block e.slot = t
  /-- Compiled code jumps where the exit leads. -/
  position : ∀ d s, a.slotPosition d s = (a.block (a.successor d s)).start
  /-- What is not compiled leads nowhere, and nothing leads to it. -/
  free : ∀ d, a.Pooled d → (a.block d).kind = .free →
    (∀ s, a.successor d s = .trampoline s) ∧ ∀ x s, a.successor x s ≠ d
  trampoline : ∀ s, (a.block (.trampoline s)).ring.toList = []

/-- **The link graph agrees in both directions,** whatever regions were opened,
closed, torn down and linked, as long as exits are linked to compiled code or
sent home. -/
theorem linkGraph_of_reached {settings : Settings} (hs : settings.Valid) {s : CodeStore}
    (h : Reached settings LinksHome s) : LinkGraph s.arena := by
  have hl := (h.sound hs).linked
  have hh := h.homed hs
  refine ⟨fun d t => ?_, hl.entry, hl.position, fun d hd hk => ?_, fun t => ?_⟩
  · cases hT : (s.arena.successor d t).isTrampoline with
    | true => exact Or.inl (hh d t hT)
    | false =>
        refine Or.inr ⟨hl.live d t hT, hl.isLive_of_linked hT, hl.exit d t hT, ?_⟩
        exact List.count_eq_one_of_mem (hl.distinct _).nodup (hl.recorded d t hT)
  · have hdead : s.arena.isLive d = false := by
      rw [Arena.isLive, Descriptor.isLive, hk]
      rfl
    refine ⟨hl.successor_of_not_isLive hdead, fun x t hx => ?_⟩
    have hT : d.isTrampoline = false := by
      rw [BlockId.isTrampoline, decide_eq_false_iff_not]
      exact Nat.not_lt.mpr hd.1
    have := hl.live x t (hx ▸ hT)
    rw [hx, hdead] at this
    cases this
  · exact hl.ring_eq_nil (hl.isLive_trampoline (BlockId.isTrampoline_trampoline t))

/-- Two blocks that lead to each other. -/
theorem linkGraph_of_mutual_links :
    Settings.small.Valid ∧ ∃ s, Reached .small LinksHome s ∧
      s.arena.successor ⟨2⟩ .first = ⟨3⟩ ∧ s.arena.successor ⟨3⟩ .first = ⟨2⟩ ∧
      LinkGraph s.arena := by
  have h : Reached .small LinksHome (.new .small) := .new
  have h := h.perform (a := .openRegion) trivial rfl
  have h := h.perform (a := .close .dual []) trivial rfl
  have h := h.perform (a := .openRegion) trivial rfl
  have h := h.perform (a := .close .single []) trivial rfl
  have h := h.perform (a := .link ⟨2⟩ .first ⟨3⟩) (Or.inl rfl) rfl
  have h := h.perform (a := .link ⟨3⟩ .first ⟨2⟩) (Or.inl rfl) rfl
  exact ⟨Settings.valid_small, _, h, rfl, rfl, linkGraph_of_reached Settings.valid_small h⟩

end CodeStore

end Recompiler
