import Recompiler.Proofs.Arena.Places
import Recompiler.Proofs.Store.Age

/-!
# The age of links

A log names every block closed and every link made, in order of time.  The ring of
a block holds, place by place, the last `ringSize` links made to it, as far as they
still stand.  Every action keeps it so, whichever entries are taken out between.
-/

namespace Recompiler

/-! ## Logs -/

/-- What a log names. -/
inductive LinkEvent where
  | closed (id : BlockId)
  | linked (e : ExitRef) (target : BlockId)
  deriving DecidableEq

/-- The links made to a block since it was compiled, after one more event. -/
def LinkEvent.upon (target : BlockId) (made : List ExitRef) : LinkEvent → List ExitRef
  | .closed id => if id = target then [] else made
  | .linked e t => if t = target then made ++ [e] else made

/-- The links made to a block since it was compiled, in order of time. -/
def linksTo (target : BlockId) (log : List LinkEvent) : List ExitRef :=
  log.foldl (LinkEvent.upon target) []

theorem linksTo_concat (target : BlockId) (log : List LinkEvent) (event : LinkEvent) :
    linksTo target (log ++ [event]) = event.upon target (linksTo target log) :=
  List.foldl_concat ..

/-- The last time a log names the link of an exit to a block is before the last time
it names that of another. -/
def LinkedBefore (log : List LinkEvent) (target : BlockId) (x y : ExitRef) : Prop :=
  ∃ earlier later, log = earlier ++ later ∧ .linked x target ∈ earlier ∧
    .linked x target ∉ later ∧ .linked y target ∈ later

theorem linked_mem_of_mem_linksTo {target : BlockId} {log : List LinkEvent} {e : ExitRef}
    (h : e ∈ linksTo target log) : .linked e target ∈ log := by
  induction log using List.reverseRecOn with
  | nil => cases h
  | append_singleton log event ih =>
      rw [linksTo_concat] at h
      cases event with
      | closed id =>
          rw [LinkEvent.upon] at h
          split at h
          · cases h
          · exact List.mem_append_left _ (ih h)
      | linked x t =>
          rw [LinkEvent.upon] at h
          split at h
          · next ht =>
              rcases List.mem_append.mp h with h | h
              · exact List.mem_append_left _ (ih h)
              · rw [List.mem_singleton.mp h, ht]
                exact List.mem_concat_self
          · exact List.mem_append_left _ (ih h)

/-- Where the links made to a block are cut, the log can be cut. -/
theorem cut_of_linksTo {target : BlockId} {log : List LinkEvent} {made latest : List ExitRef}
    (h : linksTo target log = made ++ latest) :
    ∃ earlier later, log = earlier ++ later ∧ linksTo target earlier = made ∧
      ∀ e, .linked e target ∈ later ↔ e ∈ latest := by
  induction log using List.reverseRecOn generalizing latest with
  | nil =>
      obtain ⟨rfl, rfl⟩ := List.append_eq_nil_iff.mp h.symm
      exact ⟨[], [], rfl, rfl, fun _ => by simp⟩
  | append_singleton log event ih =>
      by_cases hlatest : latest = []
      · subst hlatest
        rw [List.append_nil] at h
        exact ⟨log ++ [event], [], by simp, h, fun _ => by simp⟩
      rw [linksTo_concat] at h
      cases event with
      | closed id =>
          rw [LinkEvent.upon] at h
          split at h
          · exact absurd (List.append_eq_nil_iff.mp h.symm).2 hlatest
          · obtain ⟨earlier, later, rfl, hmade, hmem⟩ := ih h
            exact ⟨earlier, later ++ [.closed id], by rw [List.append_assoc], hmade,
              fun e => by simp [hmem]⟩
      | linked x t =>
          rw [LinkEvent.upon] at h
          split at h
          · next ht =>
              obtain ⟨front, last, rfl⟩ := List.eq_nil_or_concat latest |>.resolve_left hlatest
              rw [List.concat_eq_append, ← List.append_assoc] at h
              obtain ⟨hfront, hlast⟩ := List.append_inj' h rfl
              obtain ⟨earlier, later, rfl, hmade, hmem⟩ := ih hfront
              refine ⟨earlier, later ++ [.linked x t], by rw [List.append_assoc], hmade,
                fun e => ?_⟩
              rw [List.concat_eq_append, ← hlast, ht]
              simp [hmem]
          · next ht =>
              obtain ⟨earlier, later, rfl, hmade, hmem⟩ := ih h
              refine ⟨earlier, later ++ [.linked x t], by rw [List.append_assoc], hmade,
                fun e => ?_⟩
              simp [hmem, Ne.symm ht]

namespace CodeStore

/-- What an action that does not fail adds to the log.  Linking an exit to where it
leads already makes no link. -/
def Action.events (s : CodeStore) : Action → List LinkEvent
  | .close _ _ => s.arena.opened.toList.map .closed
  | .link source slot target =>
      if s.arena.successor source slot = target then [] else [.linked ⟨source, slot⟩ target]
  | _ => []

/-- Stores that come of a new one, with the log of what was closed and linked.  The
index and the watches may change as in a `History`. -/
inductive LinkHistory (settings : Settings) : List LinkEvent → CodeStore → Prop
  | new : LinkHistory settings [] (.new settings)
  | perform {log : List LinkEvent} {s s' : CodeStore} {a : Action}
      (h : LinkHistory settings log s) (hp : s.perform a = .ok s') :
      LinkHistory settings (log ++ a.events s) s'
  | index {log : List LinkEvent} {s : CodeStore} {id : BlockId} (h : LinkHistory settings log s)
      (hid : s.arena.isLive id = true) (watch : WatchId) (page : Vector UInt8 pageSize)
      (first last : Offset) : LinkHistory settings log (s.indexBlock id watch page first last)
  | watch {log : List LinkEvent} {s : CodeStore} (h : LinkHistory settings log s)
      (watches : Watches) : LinkHistory settings log { s with watches }

def Remembers (log : List LinkEvent) (s : CodeStore) : Prop :=
  ∀ t, (s.arena.block t).ring.Holds (linksTo t log)

namespace Remembers

variable {log : List LinkEvent} {s s' : CodeStore} (h : s.Remembers log)

include h

theorem congr {t : CodeStore} (hring : ∀ b, (t.arena.block b).ring = (s.arena.block b).ring) :
    t.Remembers log := by
  intro b
  rw [hring]
  exact h b

theorem modify (id : BlockId) {f : Descriptor → Descriptor} {a : Arena}
    (hring : (f (s.arena.block id)).ring = .empty ∨
      (f (s.arena.block id)).ring = (s.arena.block id).ring)
    (ha : ∀ b, a.block b = (s.arena.modify id f).block b) :
    ({ s with arena := a } : CodeStore).Remembers log := by
  intro b
  show ((a.block b).ring).Holds _
  rw [ha, Arena.block_modify]
  split
  · next hb =>
      rw [← hb.1]
      rcases hring with hring | hring
      · rw [hring]
        exact .empty _
      · rw [hring]
        exact h id
  · exact h b

/-- Tearing a block down empties its ring, and places of other rings. -/
theorem discard {id : BlockId} (hl : s.arena.Linked) (hd : s.discard id = .ok s') :
    s'.Remembers log := by
  rcases of_discard_ok hd with ⟨_, rfl⟩ | ⟨hid, s₁, _, rfl⟩
  · exact h
  · intro b
    show (((s.arena.vacate id).block b).ring).Holds _
    rw [Arena.block_vacate hl hid]
    split
    · exact .empty _
    · exact (h b).erase _

theorem openRegion {id : BlockId} (hs : s.Sound) (ho : s.openRegion = .ok (id, s')) :
    s'.Remembers log := by
  refine (openRegion_induction (P := Remembers log) ?_ ?_ ?_ hs.arranged hs.linked ho h).2
  · intro s s' id hl hid he h
    rcases of_evict_ok he with ⟨_, rfl⟩ | ⟨_, s₁, hd, rfl⟩
    · exact h
    · exact (h.discard hl hd).congr fun _ => rfl
  · intro s id _ hid hd h
    exact h.modify id (f := Descriptor.recycled) (Or.inl rfl) fun _ => rfl
  · intro s id size a hl hid hd hb h
    exact h.modify id (f := fun d => { d with size }) (Or.inr rfl) hb

theorem close (hs : s.Sound) {kind : BlockKind} {program : List Operation} {id : BlockId}
    {a : Arena} (hc : s.arena.close kind program = .ok (id, a)) :
    ({ s with arena := a } : CodeStore).Remembers (log ++ [.closed id]) := by
  intro b
  show ((a.block b).ring).Holds _
  rw [Arena.field_close hs.arranged hc Descriptor.ring fun _ _ _ => rfl, linksTo_concat,
    LinkEvent.upon]
  by_cases hb : b = id
  · rw [if_pos hb]
    exact .empty _
  · rw [if_neg hb, if_neg (Ne.symm hb)]
    exact h b

/-- A link takes the next place of one ring, and empties a place of another. -/
theorem link (hs : s.Sound) {source target : BlockId} {slot : Slot} {a : Arena}
    (hl : s.arena.link source slot target = .ok a)
    (hc : s.arena.successor source slot ≠ target) :
    ({ s with arena := a } : CodeStore).Remembers (log ++ [.linked ⟨source, slot⟩ target]) := by
  intro b
  show ((a.block b).ring).Holds _
  rw [Arena.ring_link hs.linked hl hc, linksTo_concat, LinkEvent.upon]
  by_cases hcurrent : b = s.arena.successor source slot
  · have hne : target ≠ b := fun hb => hc (hcurrent.symm.trans hb.symm)
    rw [if_pos hcurrent, if_neg hne]
    exact (h b).erase _
  rw [if_neg hcurrent]
  by_cases hb : target = b
  · subst hb
    rw [if_pos rfl]
    cases hT : target.isTrampoline with
    | true =>
        rw [if_neg fun hf => Bool.false_ne_true hf.2.symm,
          (hs.linked.clean target (hs.linked.isLive_trampoline hT)).2]
        exact .empty _
    | false =>
        rw [if_pos ⟨rfl, rfl⟩]
        refine (h target).push (hs.linked.distinct target) fun hm => ?_
        exact hc (hs.linked.entry target _ hm)
  · rw [if_neg hb, if_neg fun ht => hb ht.1.symm]
    exact h b

/-- **Every action keeps the rings in step with the log.** -/
theorem perform (hs : s.Sound) {action : Action} (hp : s.perform action = .ok s') :
    s'.Remembers (log ++ action.events s) := by
  have hp := of_perform_ok hp
  cases action with
  | openRegion =>
      obtain ⟨id, ho⟩ := hp
      rw [show log ++ Action.events s .openRegion = log from List.append_nil log]
      exact h.openRegion hs ho
  | emit _ | fill _ _ | emitProgram _ =>
      obtain ⟨pen, rfl⟩ := hp
      show Remembers (log ++ []) _
      rw [List.append_nil]
      exact h.congr fun _ => rfl
  | close _ _ =>
      obtain ⟨id, a, hc, rfl⟩ := hp
      rw [Action.events, (Arena.of_close_ok hc).1]
      exact h.close hs hc
  | discard id =>
      show Remembers (log ++ []) _
      rw [List.append_nil]
      exact h.discard hs.linked hp
  | link source slot target =>
      obtain ⟨a, hl, rfl⟩ := hp
      rw [Action.events]
      by_cases hc : s.arena.successor source slot = target
      · rw [if_pos hc, List.append_nil, Arena.link_eq_self hl hc]
        exact h
      · rw [if_neg hc]
        exact h.link hs hl hc

end Remembers

namespace LinkHistory

variable {settings : Settings} (hs : settings.Valid) {log : List LinkEvent} {s : CodeStore}

theorem history (h : LinkHistory settings log s) : ∃ closed, History settings closed s := by
  induction h with
  | new => exact ⟨_, .new⟩
  | perform _ hp ih => exact ⟨_, ih.choose_spec.perform hp⟩
  | index _ hid watch page first last ih =>
      exact ⟨_, ih.choose_spec.index hid watch page first last⟩
  | watch _ watches ih => exact ⟨_, ih.choose_spec.watch watches⟩

include hs

theorem sound (h : LinkHistory settings log s) : s.Sound :=
  (h.history.choose_spec.aged hs).sound

theorem remembers (h : LinkHistory settings log s) : s.Remembers log := by
  induction h with
  | new =>
      intro b
      show (((Arena.new settings).block b).ring).Holds []
      rw [(Arena.block_new_clean hs b).2.1]
      exact .empty _
  | perform h hp ih => exact ih.perform (h.sound hs) hp
  | @index log s id _ _ watch page first last ih =>
      exact ih.congr fun b => Arena.field_modify s.arena id b Descriptor.ring fun _ => rfl
  | watch _ _ ih => exact ih.congr fun _ => rfl

end LinkHistory

end CodeStore

end Recompiler
