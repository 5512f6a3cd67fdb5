import Recompiler.Proofs.Store.LinkAge

/-!
# Displaced exits

Linking an exit to a block unlinks another one exactly when the link made
`ringSize` times ago still stands, and that one is older than all others.  It may do
so while most places are empty: a link that was taken back leaves an empty place,
which is not filled before its turn.
-/

namespace Recompiler

namespace Arena

def linkAt (a : Arena) (e : ExitRef) : Link := (a.block e.block).links.get e.slot

/-- Whether an exit leads elsewhere once another one was linked. -/
def Displaces (a a' : Arena) (e x : ExitRef) : Prop := x ≠ e ∧ a'.linkAt x ≠ a.linkAt x

instance (a a' : Arena) (e x : ExitRef) : Decidable (a.Displaces a' e x) :=
  inferInstanceAs (Decidable (_ ∧ _))

/-! ## What one link displaces -/

/-- Only a link that puts an exit out of a ring is counted. -/
theorem displaced_recordLink {a : Arena} (e : ExitRef) {target : BlockId}
    (hentry : ∀ x ∈ (a.block target).ring.toList, a.successor x.block x.slot = target) :
    (a.recordLink e target).counters.displaced =
      a.counters.displaced + if (a.block target).ring.evicted?.isSome then 1 else 0 := by
  unfold recordLink
  cases he : (a.block target).ring.evicted? with
  | none => rfl
  | some old =>
      have hold : old ∈ (a.block target).ring.toList :=
        Ring.mem_iff_entry.mpr ⟨_, (Ring.evicted?_eq _).symm.trans he⟩
      have hlinks : ((a.modify target fun d => { d with ring := d.ring.push e }).block
          old.block).links = (a.block old.block).links :=
        field_modify a target old.block Descriptor.links fun _ => rfl
      have hsucc : (a.modify target fun d => { d with ring := d.ring.push e }).successor
          old.block old.slot = target := by
        rw [successor, hlinks]
        exact hentry old hold
      simp only [if_pos hsucc]
      rfl

section Link

variable {a a' : Arena} (h : a.Linked) {source target : BlockId} {slot : Slot}
  (hl : a.link source slot target = .ok a')

include h hl

theorem displaced_link (hc : a.successor source slot ≠ target) :
    a'.counters.displaced =
      a.counters.displaced + if (a.displaced? target).isSome then 1 else 0 := by
  have hcounters : (a.forgetCurrent source slot).counters = a.counters := by
    unfold forgetCurrent
    simp only
    split
    · rfl
    · rfl
  have hring : ((a.forgetCurrent source slot).block target).ring = (a.block target).ring := by
    rw [ring_forgetCurrent h, if_neg (Ne.symm hc)]
  rw [link_eq hl hc, displaced?]
  cases hT : target.isTrampoline with
  | true =>
      rw [if_pos rfl, if_pos rfl, ← hcounters]
      rfl
  | false =>
      have hentry : ∀ x ∈ ((a.forgetCurrent source slot).block target).ring.toList,
          (a.forgetCurrent source slot).successor x.block x.slot = target := fun x hx => by
        rw [successor, links_forgetCurrent]
        exact h.entry target x (hring ▸ hx)
      have hrecord := displaced_recordLink ⟨source, slot⟩ hentry
      rw [hcounters, hring] at hrecord
      exact hrecord

/-- **Whom a link displaces** is whom the ring of the target puts out. -/
theorem displaces_iff {x : ExitRef} :
    a.Displaces a' ⟨source, slot⟩ x ↔
      a.successor source slot ≠ target ∧ a.displaced? target = some x := by
  by_cases hc : a.successor source slot = target
  · rw [link_eq_self hl hc]
    exact ⟨fun hx => absurd rfl hx.2, fun hx => absurd hc hx.1⟩
  obtain ⟨d, s⟩ := x
  have hlink : a'.linkAt ⟨d, s⟩ = _ := link_link h hl hc d s
  constructor
  · rintro ⟨hne, hx⟩
    rw [hlink, if_neg fun hds => hne (by rw [hds.1, hds.2])] at hx
    by_cases hd : a.displaced? target = some ⟨d, s⟩
    · exact ⟨hc, hd⟩
    · rw [if_neg hd] at hx
      exact absurd rfl hx
  · rintro ⟨_, hd⟩
    obtain ⟨hsucc, hT⟩ := h.successor_of_displaced hd
    have hne : ¬(d = source ∧ s = slot) := fun hds => hc (hds.1 ▸ hds.2 ▸ hsucc)
    refine ⟨fun he => hne (ExitRef.mk.inj he), fun heq => ?_⟩
    rw [hlink, if_neg hne, if_pos hd] at heq
    have hhome : target = .trampoline s := hsucc.symm.trans (congrArg Link.block heq.symm)
    rw [hhome, BlockId.isTrampoline_trampoline] at hT
    cases hT

theorem linkAt_of_displaces {x : ExitRef} (hx : a.Displaces a' ⟨source, slot⟩ x) :
    a'.linkAt x = .trampoline x.slot := by
  obtain ⟨hc, hd⟩ := (displaces_iff h hl).mp hx
  obtain ⟨d, s⟩ := x
  have hlink : a'.linkAt ⟨d, s⟩ = _ := link_link h hl hc d s
  rw [hlink, if_neg fun hds => hx.1 (by rw [hds.1, hds.2]), if_pos hd]

theorem displaced_of_displaces {x : ExitRef} (hx : a.Displaces a' ⟨source, slot⟩ x) :
    a'.counters.displaced = a.counters.displaced + 1 := by
  obtain ⟨hc, hd⟩ := (displaces_iff h hl).mp hx
  rw [displaced_link h hl hc, hd]
  rfl

theorem displaced_of_not_displaces (hno : ∀ x, ¬a.Displaces a' ⟨source, slot⟩ x) :
    a'.counters.displaced = a.counters.displaced := by
  by_cases hc : a.successor source slot = target
  · rw [link_eq_self hl hc]
  · rw [displaced_link h hl hc]
    cases hd : a.displaced? target with
    | none => rfl
    | some x => exact absurd ((displaces_iff h hl).mpr ⟨hc, hd⟩) (hno x)

end Link

end Arena

namespace CodeStore

/-- Whom a link to compiled code displaces: the exit of the link made `ringSize` times ago,
if that is its last link to the block and it still leads there. -/
theorem LinkHistory.displaces_iff {settings : Settings} (hs : settings.Valid)
    {log : List LinkEvent} {s : CodeStore} (h : LinkHistory settings log s)
    {source target : BlockId} {slot : Slot} (ht : s.arena.isLive target = true) {a : Arena}
    (hl : s.arena.link source slot target = .ok a) {x : ExitRef} :
    s.arena.Displaces a ⟨source, slot⟩ x ↔
      s.arena.successor source slot ≠ target ∧
        ringSize ≤ (linksTo target log).length ∧
        (linksTo target log)[(linksTo target log).length - ringSize]? = some x ∧
        s.arena.successor x.block x.slot = target ∧
        x ∉ (linksTo target log).drop ((linksTo target log).length - ringSize + 1) := by
  have hlinked := (h.sound hs).linked
  have hT := hlinked.not_trampoline_of_isLive ht
  rw [Arena.displaces_iff hlinked hl, Arena.displaced?, if_neg (ne_true_of_eq_false hT),
    (h.remembers hs target).evicted?_eq_some_iff, hlinked.mem_ring_iff hT]

/-! ## The oldest link goes first -/

/-- What a link to compiled code does to the exits that lead there. -/
structure DisplacesOldest (log : List LinkEvent) (a a' : Arena) (e : ExitRef)
    (target : BlockId) : Prop where
  linked : a'.successor e.block e.slot = target
  unique : ∀ x y, a.Displaces a' e x → a.Displaces a' e y → x = y
  /-- Who is displaced led to the same block, and goes home. -/
  home : ∀ x, a.Displaces a' e x →
    a.successor x.block x.slot = target ∧ a'.linkAt x = .trampoline x.slot
  /-- The log names the link of every exit that leads to the block. -/
  logged : ∀ y, a.successor y.block y.slot = target → .linked y target ∈ log
  oldest : ∀ x y, a.Displaces a' e x → a.successor y.block y.slot = target → y ≠ x →
    LinkedBefore log target x y
  kept : ∀ y, a.successor y.block y.slot = target → ¬a.Displaces a' e y →
    a'.successor y.block y.slot = target
  counted : ∀ x, a.Displaces a' e x → a'.counters.displaced = a.counters.displaced + 1
  uncounted : (∀ x, ¬a.Displaces a' e x) → a'.counters.displaced = a.counters.displaced

/-- **Of the exits that lead to a block the one linked first is displaced,** if one is,
whatever was opened, written, closed, torn down and linked before. -/
theorem displacesOldest_of_linkHistory {settings : Settings} (hs : settings.Valid)
    {log : List LinkEvent} {s s' : CodeStore} {source target : BlockId} {slot : Slot}
    (h : LinkHistory settings log s) (ht : s.arena.isLive target = true)
    (hp : s.perform (.link source slot target) = .ok s') :
    DisplacesOldest log s.arena s'.arena ⟨source, slot⟩ target := by
  obtain ⟨a, hl, rfl⟩ := of_perform_ok hp
  have hlinked := (h.sound hs).linked
  have hT := hlinked.not_trampoline_of_isLive ht
  have hlatest : ∀ y : ExitRef, s.arena.successor y.block y.slot = target →
      y ∈ (linksTo target log).drop ((linksTo target log).length - ringSize) := fun y hy =>
    (h.remembers hs target).mem_drop ((hlinked.mem_ring_iff hT).mpr hy)
  have hself : a.successor source slot = target := by
    by_cases hc : s.arena.successor source slot = target
    · rw [Arena.link_eq_self hl hc, hc]
    · rw [Arena.successor_link hlinked hl hc, if_pos ⟨rfl, rfl⟩]
  refine
    { linked := hself, unique := fun x y hx hy => ?_, home := fun x hx => ?_,
      logged := fun y hy => ?_, oldest := fun x y hx hy hne => ?_, kept := fun y hy hno => ?_,
      counted := fun x hx => Arena.displaced_of_displaces hlinked hl hx,
      uncounted := Arena.displaced_of_not_displaces hlinked hl }
  · have hx := ((Arena.displaces_iff hlinked hl).mp hx).2
    have hy := ((Arena.displaces_iff hlinked hl).mp hy).2
    exact Option.some.inj (hx.symm.trans hy)
  · exact ⟨((h.displaces_iff hs ht hl).mp hx).2.2.2.1, Arena.linkAt_of_displaces hlinked hl hx⟩
  · exact linked_mem_of_mem_linksTo (List.mem_of_mem_drop (hlatest y hy))
  · obtain ⟨_, _, hat, _, hlater⟩ := (h.displaces_iff hs ht hl).mp hx
    obtain ⟨hlt, hget⟩ := List.getElem?_eq_some_iff.mp hat
    obtain ⟨earlier, later, hlog, hmade, hmem⟩ := cut_of_linksTo (List.take_append_drop
      ((linksTo target log).length - ringSize + 1) (linksTo target log)).symm
    refine ⟨earlier, later, hlog, linked_mem_of_mem_linksTo ?_, fun hm => hlater ((hmem x).mp hm),
      (hmem y).mpr ?_⟩
    · rw [hmade, List.take_succ_eq_append_getElem hlt, hget]
      exact List.mem_concat_self
    · have hy := hlatest y hy
      rw [List.drop_eq_getElem_cons hlt, hget] at hy
      exact (List.mem_cons.mp hy).resolve_left hne
  · by_cases he : y = ⟨source, slot⟩
    · rw [he]
      exact hself
    · have hsame : a.linkAt y = s.arena.linkAt y := by
        by_contra hdiff
        exact hno ⟨he, hdiff⟩
      exact (congrArg Link.block hsame).trans hy

def recordLinks (p : List LinkEvent × CodeStore) (a : Action) :
    Except Fault (List LinkEvent × CodeStore) := do
  let s ← p.2.perform a
  return (p.1 ++ a.events p.2, s)

theorem LinkHistory.foldlM {settings : Settings} {as : List Action}
    {p q : List LinkEvent × CodeStore} (h : LinkHistory settings p.1 p.2)
    (hq : as.foldlM recordLinks p = .ok q) : LinkHistory settings q.1 q.2 := by
  induction as generalizing p with
  | nil =>
      cases hq
      exact h
  | cons a rest ih =>
      obtain ⟨r, hr, hq⟩ := bind_eq_ok_iff.mp hq
      obtain ⟨s, hs, hr⟩ := bind_eq_ok_iff.mp hr
      cases hr
      exact ih (h.perform hs) hq

/-- Four blocks, of which the first two have exits: an exit of the first is linked to the
third, then one of the second is linked there and to the fourth, again and again. -/
def restless (times : Nat) : List Action :=
  [.openRegion, .close .single [], .openRegion, .close .dual [], .openRegion, .close .normal [],
    .openRegion, .close .normal [], .link ⟨2⟩ .first ⟨4⟩] ++
    (List.replicate times [.link ⟨3⟩ .first ⟨4⟩, .link ⟨3⟩ .first ⟨5⟩]).flatten

/-- Two exits lead to the block, and the older one is displaced. -/
theorem displacesOldest_of_restless :
    Settings.small.Valid ∧ ∃ log s s', LinkHistory .small log s ∧
      s.arena.isLive ⟨4⟩ = true ∧ s.perform (.link ⟨3⟩ .first ⟨4⟩) = .ok s' ∧
      s.arena.successor ⟨3⟩ .second = ⟨4⟩ ∧
      s.arena.Displaces s'.arena ⟨⟨3⟩, .first⟩ ⟨⟨2⟩, .first⟩ ∧
      DisplacesOldest log s.arena s'.arena ⟨⟨3⟩, .first⟩ ⟨4⟩ := by
  obtain ⟨⟨log, s⟩, hlog, hs⟩ := exists_of_succeeds
    (x := (restless 14 ++ [Action.link ⟨3⟩ .second ⟨4⟩]).foldlM recordLinks ([], .new .small))
    (p := fun q => q.2.arena.isLive ⟨4⟩ = true ∧ q.2.arena.successor ⟨3⟩ .second = ⟨4⟩ ∧
      succeeds (q.2.perform (.link ⟨3⟩ .first ⟨4⟩)) fun s' =>
        q.2.arena.Displaces s'.arena ⟨⟨3⟩, .first⟩ ⟨⟨2⟩, .first⟩)
    (by decide +kernel)
  obtain ⟨hlive, hsecond, hlink⟩ := of_decide_eq_true hs
  obtain ⟨s', hp, hdisplaced⟩ := exists_of_succeeds hlink
  have h : LinkHistory .small log s := LinkHistory.foldlM (p := ([], .new .small)) .new hlog
  exact ⟨Settings.valid_small, log, s, s', h, hlive, hp, hsecond, of_decide_eq_true hdisplaced,
    displacesOldest_of_linkHistory Settings.valid_small h hlive hp⟩

/-! ## Displacing is a matter of turns -/

/-- When a link to compiled code displaces an exit. -/
structure DisplacesInTurn (log : List LinkEvent) (a a' : Arena) (e : ExitRef)
    (target : BlockId) : Prop where
  /-- The exit of the link made `ringSize` times ago is displaced, if that link still
  stands, and no other. -/
  turn : ∀ x, a.Displaces a' e x ↔
    a.successor e.block e.slot ≠ target ∧
      ringSize ≤ (linksTo target log).length ∧
      (linksTo target log)[(linksTo target log).length - ringSize]? = some x ∧
      a.successor x.block x.slot = target ∧
      x ∉ (linksTo target log).drop ((linksTo target log).length - ringSize + 1)
  /-- Before `ringSize` links were made to a block since it was compiled none is. -/
  few : (linksTo target log).length < ringSize → ∀ x, ¬a.Displaces a' e x
  /-- Once `ringSize` exits lead to it one is. -/
  full : a.successor e.block e.slot ≠ target → (a.block target).ring.toList.length = ringSize →
    ∃ x, a.Displaces a' e x
  counted : ∀ x, a.Displaces a' e x → a'.counters.displaced = a.counters.displaced + 1
  uncounted : (∀ x, ¬a.Displaces a' e x) → a'.counters.displaced = a.counters.displaced

/-- **An exit is displaced when its turn comes,** not when the ring is full. -/
theorem displacesInTurn_of_linkHistory {settings : Settings} (hs : settings.Valid)
    {log : List LinkEvent} {s s' : CodeStore} {source target : BlockId} {slot : Slot}
    (h : LinkHistory settings log s) (ht : s.arena.isLive target = true)
    (hp : s.perform (.link source slot target) = .ok s') :
    DisplacesInTurn log s.arena s'.arena ⟨source, slot⟩ target := by
  obtain ⟨a, hl, rfl⟩ := of_perform_ok hp
  have hlinked := (h.sound hs).linked
  refine
    { turn := fun x => h.displaces_iff hs ht hl, few := fun hfew x hx => ?_,
      full := fun hc hfull => ?_,
      counted := fun x hx => Arena.displaced_of_displaces hlinked hl hx,
      uncounted := Arena.displaced_of_not_displaces hlinked hl }
  · exact Nat.not_le.mpr hfew ((h.displaces_iff hs ht hl).mp hx).2.1
  · obtain ⟨x, hx⟩ := Ring.evicted?_of_full hfull
    refine ⟨x, (Arena.displaces_iff hlinked hl).mpr ⟨hc, ?_⟩⟩
    rw [Arena.displaced?, if_neg (ne_true_of_eq_false (hlinked.not_trampoline_of_isLive ht))]
    exact hx

/-- The first of `ringSize` links to a block still stands, and the others were taken back. -/
theorem displacesInTurn_of_restless :
    Settings.small.Valid ∧ ∃ log s s', LinkHistory .small log s ∧
      s.arena.isLive ⟨4⟩ = true ∧ s.perform (.link ⟨3⟩ .first ⟨4⟩) = .ok s' ∧
      linksTo ⟨4⟩ log = ⟨⟨2⟩, .first⟩ :: List.replicate 15 ⟨⟨3⟩, .first⟩ ∧
      DisplacesInTurn log s.arena s'.arena ⟨⟨3⟩, .first⟩ ⟨4⟩ := by
  obtain ⟨⟨log, s⟩, hlog, hs⟩ := exists_of_succeeds
    (x := (restless 15).foldlM recordLinks ([], .new .small))
    (p := fun q => q.2.arena.isLive ⟨4⟩ = true ∧
      linksTo ⟨4⟩ q.1 = ⟨⟨2⟩, .first⟩ :: List.replicate 15 ⟨⟨3⟩, .first⟩ ∧
      succeeds (q.2.perform (.link ⟨3⟩ .first ⟨4⟩)) fun _ => true)
    (by decide +kernel)
  obtain ⟨hlive, hmade, hlink⟩ := of_decide_eq_true hs
  obtain ⟨s', hp, _⟩ := exists_of_succeeds hlink
  have h : LinkHistory .small log s := LinkHistory.foldlM (p := ([], .new .small)) .new hlog
  exact ⟨Settings.valid_small, log, s, s', h, hlive, hp, hmade,
    displacesInTurn_of_linkHistory Settings.valid_small h hlive hp⟩

/-- An exit is displaced from a ring with one entry, and that is counted as if the ring
had been full. -/
theorem displaces_from_empty_places :
    ∃ log s s', LinkHistory .small log s ∧ s.arena.isLive ⟨4⟩ = true ∧
      s.perform (.link ⟨3⟩ .first ⟨4⟩) = .ok s' ∧
      (s.arena.block ⟨4⟩).ring.toList = [⟨⟨2⟩, .first⟩] ∧
      s.arena.Displaces s'.arena ⟨⟨3⟩, .first⟩ ⟨⟨2⟩, .first⟩ ∧
      s'.arena.counters.displaced = s.arena.counters.displaced + 1 := by
  obtain ⟨⟨log, s⟩, hlog, hs⟩ := exists_of_succeeds
    (x := (restless 15).foldlM recordLinks ([], .new .small))
    (p := fun q => q.2.arena.isLive ⟨4⟩ = true ∧
      (q.2.arena.block ⟨4⟩).ring.toList = [⟨⟨2⟩, .first⟩] ∧
      succeeds (q.2.perform (.link ⟨3⟩ .first ⟨4⟩)) fun s' =>
        q.2.arena.Displaces s'.arena ⟨⟨3⟩, .first⟩ ⟨⟨2⟩, .first⟩ ∧
          s'.arena.counters.displaced = q.2.arena.counters.displaced + 1)
    (by decide +kernel)
  obtain ⟨hlive, hring, hlink⟩ := of_decide_eq_true hs
  obtain ⟨s', hp, hdisplaced⟩ := exists_of_succeeds hlink
  have h : LinkHistory .small log s := LinkHistory.foldlM (p := ([], .new .small)) .new hlog
  exact ⟨log, s, s', h, hlive, hp, hring, of_decide_eq_true hdisplaced⟩

end CodeStore

end Recompiler
