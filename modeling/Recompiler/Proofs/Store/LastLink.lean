import Recompiler.Proofs.Store.LinkAge

/-!
# Where an exit was linked last

An exit leads home, to the trampoline of its own slot, or where it was linked last
since its block was compiled.  Nothing but a link sends it elsewhere: opening
regions, tearing blocks down and displacing from rings only ever send exits home.
So an exit that leads to the trampoline of the other slot was linked there.
-/

namespace Recompiler

/-- The last thing a log has of an exit is that it was linked to a block: neither was
it linked again after that, nor was its own block closed. -/
def LinkedLast (log : List LinkEvent) (x : ExitRef) (target : BlockId) : Prop :=
  ∃ earlier later, log = earlier ++ .linked x target :: later ∧
    .closed x.block ∉ later ∧ ∀ t, .linked x t ∉ later

theorem linkedLast_concat (log : List LinkEvent) (x : ExitRef) (target : BlockId) :
    LinkedLast (log ++ [.linked x target]) x target :=
  ⟨log, [], rfl, List.not_mem_nil, fun _ => List.not_mem_nil⟩

theorem LinkedLast.concat {log : List LinkEvent} {x : ExitRef} {target : BlockId}
    (h : LinkedLast log x target) {event : LinkEvent} (hclosed : event ≠ .closed x.block)
    (hlinked : ∀ t, event ≠ .linked x t) : LinkedLast (log ++ [event]) x target := by
  obtain ⟨earlier, later, rfl, hc, hl⟩ := h
  refine ⟨earlier, later ++ [event], by simp, ?_, fun t => ?_⟩
  · simp [hc, Ne.symm hclosed]
  · simp [hl t, Ne.symm (hlinked t)]

namespace CodeStore

/-! ## Exits lead home or where they were sent -/

/-- Every exit is at home, or leads where it was linked last. -/
def Traced (log : List LinkEvent) (s : CodeStore) : Prop :=
  ∀ d slot, s.arena.successor d slot = .trampoline slot ∨
    LinkedLast log ⟨d, slot⟩ (s.arena.successor d slot)

namespace Traced

variable {log : List LinkEvent} {s s' : CodeStore} (h : s.Traced log)

include h

/-- What keeps exits where they are or sends them home needs no entry. -/
theorem of_kept (hlink : ∀ d slot, s'.arena.successor d slot = s.arena.successor d slot ∨
    s'.arena.successor d slot = .trampoline slot) : s'.Traced log := by
  intro d slot
  rcases hlink d slot with he | he
  · rw [he]
    exact h d slot
  · exact Or.inl he

theorem discard {id : BlockId} (hl : s.arena.Linked) (hd : s.discard id = .ok s') :
    s'.Traced log := by
  rcases of_discard_ok hd with ⟨_, rfl⟩ | ⟨hid, s₁, _, rfl⟩
  · exact h
  · exact h.of_kept (Arena.Shrinks.vacate hl hid).link

theorem openRegion {id : BlockId} (hs : s.Sound) (ho : s.openRegion = .ok (id, s')) :
    s'.Traced log := by
  refine (openRegion_induction (P := Traced log) ?_ ?_ ?_ hs.arranged hs.linked ho h).2
  · intro s s' id hl hid he h
    rcases of_evict_ok he with ⟨_, rfl⟩ | ⟨_, s₁, hd, rfl⟩
    · exact h
    · exact (h.discard hl hd).of_kept fun _ _ => Or.inl rfl
  · intro s id hl hid hd h
    exact h.of_kept (Arena.Shrinks.modify hl id hd (f := Descriptor.recycled) rfl rfl
      fun _ => rfl).link
  · intro s id size a hl hid hd hb h
    have hshrinks := Arena.Shrinks.modify hl id hd (f := fun d => { d with size }) hd
      (hl.clean id hd).1 fun _ => rfl
    refine h.of_kept fun d slot => ?_
    have hlink := hshrinks.link d slot
    rw [Arena.successor] at hlink
    rw [Arena.successor, hb]
    exact hlink

theorem close (hs : s.Sound) {kind : BlockKind} {program : List Operation} {id : BlockId}
    {a : Arena} (hc : s.arena.close kind program = .ok (id, a)) :
    ({ s with arena := a } : CodeStore).Traced (log ++ [.closed id]) := by
  intro d slot
  have hlinks := Arena.field_close hs.arranged hc Descriptor.links (fun _ _ _ => rfl) d
  by_cases hd : d = id
  · rw [if_pos hd] at hlinks
    refine Or.inl ?_
    rw [Arena.successor, hlinks]
    exact congrArg Link.block (Links.get_unlinked slot)
  · rw [if_neg hd] at hlinks
    have hsucc : a.successor d slot = s.arena.successor d slot := by
      rw [Arena.successor, hlinks]
      rfl
    show a.successor d slot = _ ∨ LinkedLast _ _ (a.successor d slot)
    rw [hsucc]
    refine (h d slot).imp_right fun hlast => hlast.concat (fun he => ?_) fun t he => ?_
    · exact hd (LinkEvent.closed.inj he).symm
    · cases he

theorem link (hs : s.Sound) {source target : BlockId} {slot : Slot} {a : Arena}
    (hl : s.arena.link source slot target = .ok a)
    (hc : s.arena.successor source slot ≠ target) :
    ({ s with arena := a } : CodeStore).Traced (log ++ [.linked ⟨source, slot⟩ target]) := by
  intro d t
  show a.successor d t = _ ∨ LinkedLast _ _ (a.successor d t)
  rw [Arena.successor_link hs.linked hl hc]
  by_cases hself : d = source ∧ t = slot
  · rw [if_pos hself, hself.1, hself.2]
    exact Or.inr (linkedLast_concat ..)
  rw [if_neg hself]
  by_cases hdisplaced : s.arena.displaced? target = some ⟨d, t⟩
  · rw [if_pos hdisplaced]
    exact Or.inl rfl
  · rw [if_neg hdisplaced]
    refine (h d t).imp_right fun hlast => hlast.concat (fun he => ?_) fun _ he => hself ?_
    · cases he
    · have hx := ExitRef.mk.inj (LinkEvent.linked.inj he).1
      exact ⟨hx.1.symm, hx.2.symm⟩

/-- **No action but a link sends an exit anywhere but home.** -/
theorem perform (hs : s.Sound) {action : Action} (hp : s.perform action = .ok s') :
    s'.Traced (log ++ action.events s) := by
  have hp := of_perform_ok hp
  cases action with
  | openRegion =>
      obtain ⟨id, ho⟩ := hp
      rw [show log ++ Action.events s .openRegion = log from List.append_nil log]
      exact h.openRegion hs ho
  | emit _ | fill _ _ | emitProgram _ =>
      obtain ⟨pen, rfl⟩ := hp
      show Traced (log ++ []) _
      rw [List.append_nil]
      exact h
  | close _ _ =>
      obtain ⟨id, a, hc, rfl⟩ := hp
      rw [Action.events, (Arena.of_close_ok hc).1]
      exact h.close hs hc
  | discard id =>
      show Traced (log ++ []) _
      rw [List.append_nil]
      exact h.discard hs.linked hp
  | link source slot target =>
      obtain ⟨a, hl, rfl⟩ := hp
      rw [Action.events]
      by_cases hc : s.arena.successor source slot = target
      · rw [if_pos hc, List.append_nil, Arena.link_eq_self hl hc]
        exact h
      · rw [if_neg hc]
        exact h.link hs hl hc

end Traced

end CodeStore

/-- Where an exit leads, and how it came to lead there. -/
inductive Arena.Leads (log : List LinkEvent) (a : Arena) (x : ExitRef) : Prop
  /-- To compiled code that it was linked to. -/
  | linked (hlive : a.isLive (a.successor x.block x.slot) = true)
      (hlast : LinkedLast log x (a.successor x.block x.slot))
  | home (h : a.successor x.block x.slot = .trampoline x.slot)
  /-- To the trampoline of the other slot, because it was linked to it. -/
  | astray {t : Slot} (hne : t ≠ x.slot) (h : a.successor x.block x.slot = .trampoline t)
      (hlast : LinkedLast log x (.trampoline t))

namespace CodeStore.LinkHistory

variable {settings : Settings} (hs : settings.Valid) {log : List LinkEvent} {s : CodeStore}

include hs

theorem traced (h : LinkHistory settings log s) : s.Traced log := by
  induction h with
  | new =>
      exact fun d slot => Or.inl (Arena.successor_new hs d slot)
  | perform h hp ih => exact ih.perform (h.sound hs) hp
  | @index log s id _ _ watch page first last ih =>
      refine ih.of_kept fun d slot => Or.inl ?_
      have hlinks : ((s.indexBlock id watch page first last).arena.block d).links =
          (s.arena.block d).links :=
        Arena.field_modify s.arena id d Descriptor.links fun _ => rfl
      rw [Arena.successor, hlinks]
      rfl
  | watch _ _ ih => exact ih

/-- **An exit leads to compiled code or home,** or it was linked to the wrong
trampoline, whatever was opened, written, closed, torn down and linked. -/
theorem leads (h : LinkHistory settings log s) (x : ExitRef) : s.arena.Leads log x := by
  have htraced := h.traced hs x.block x.slot
  cases hT : (s.arena.successor x.block x.slot).isTrampoline with
  | false =>
      refine .linked ((h.sound hs).linked.live x.block x.slot hT)
        (htraced.resolve_left fun hhome => ?_)
      rw [hhome, BlockId.isTrampoline_trampoline] at hT
      cases hT
  | true =>
      obtain ⟨t, ht⟩ := BlockId.isTrampoline_iff.mp hT
      by_cases hslot : t = x.slot
      · exact .home (ht.trans (congrArg BlockId.trampoline hslot))
      · rw [ht] at htraced
        refine .astray hslot ht (htraced.resolve_left fun hhome => ?_)
        exact hslot (BlockId.trampoline_inj.mp hhome)

end CodeStore.LinkHistory

end Recompiler
