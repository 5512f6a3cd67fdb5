import Recompiler.Proofs.Emulator.Stores
import Recompiler.Proofs.Store.Overwritten

/-!
# Opening makes room

A region that is opened is joined with those after it until it has the scratch space
of a block.  The list of regions does not end before that: the active region starts
where all that comes after it together has that space, and however regions were
split, joined and spilled, there are no gaps.  No region is joined that is not needed.
-/

namespace Recompiler

/-- A region is joined only where those before it do not suffice. -/
theorem Arena.lt_of_joined {a : Arena} {size : Nat} {ids before after : List BlockId}
    {x : BlockId} (h : a.joined size ids = before ++ x :: after) :
    size + a.span before < a.blockBytes := by
  -- The induction is on the regions before the one in question, a step of the loop each.
  induction before generalizing size ids with
  | nil =>
      cases ids with
      | nil => cases h
      | cons _ _ =>
          rw [joined] at h
          split at h
          · next hlt => exact hlt
          · cases h
  | cons id before ih =>
      cases ids with
      | nil => cases h
      | cons _ rest =>
          rw [joined] at h
          split at h
          · obtain ⟨rfl, hrest⟩ := List.cons.inj h
            rw [span_cons, ← Nat.add_assoc]
            exact ih hrest
          · cases h

namespace CodeStore

/-- **Opening joins no more regions than are needed.** -/
theorem least_of_openRegion {s s' : CodeStore} {id : BlockId} (ha : s.arena.Arranged)
    (ho : s.openRegion = .ok (id, s')) {taken rest : List BlockId}
    (hre : Reopened s.arena s'.arena id taken rest) {before after : List BlockId} {x : BlockId}
    (hx : taken = before ++ x :: after) :
    (s.arena.block id).size + s.arena.span before < s.arena.blockBytes := by
  obtain ⟨hactive, hjoined⟩ := List.cons.inj (hre.eq_overwritten ha ho)
  rw [← hactive]
  exact Arena.lt_of_joined (hjoined.trans hx)

/-- Where nothing is compiled there is no source, and no link leads there or from
there. -/
theorem vacant_of_dead {s : CodeStore} (h : s.Filed) (hl : s.arena.Linked) {b : BlockId}
    (hb : b.isTrampoline = false) (hdead : s.arena.isLive b = false) :
    s.arena.sourceOf b = none ∧ (s.arena.block b).links = .unlinked ∧
      (s.arena.block b).ring = .empty ∧ ∀ d t, s.arena.successor d t ≠ b := by
  obtain ⟨hlinks, hring⟩ := hl.clean b hdead
  refine ⟨h.dead b hdead, hlinks, hring, fun d t hd => ?_⟩
  have hlive := hl.live d t (hd ▸ hb)
  rw [hd, hdead] at hlive
  cases hlive

/-- The active region of a store was opened: it was joined with the regions `taken`,
and `rest` are those after it. -/
structure MakesRoom (settings : Settings) (s : CodeStore) (id : BlockId)
    (taken rest : List BlockId) (s' : CodeStore) : Prop where
  active : id = s.arena.active
  opened : s'.arena.opened = some id
  /-- The regions joined are the next ones, and no other is touched. -/
  after : (s.arena.around id).2 = taken ++ rest
  regions : s'.arena.regions = (s.arena.around id).1 ++ id :: rest
  start : (s'.arena.block id).start = (s.arena.block id).start
  size : (s'.arena.block id).size = (s.arena.block id).size + s.arena.span taken
  room : settings.blockBytes ≤ (s'.arena.block id).size
  /-- The region lies in the arena, behind the fixed stubs. -/
  within : stubBytes ≤ (s'.arena.block id).start ∧
    (s'.arena.block id).start + (s'.arena.block id).size ≤
      stubBytes + settings.arenaBytes + settings.blockBytes
  /-- Before each region that is joined there is too little room. -/
  least : ∀ before x after, taken = before ++ x :: after →
    (s.arena.block id).size + s.arena.span before < settings.blockBytes
  /-- What was joined is free again, the last first. -/
  free : s'.arena.free = taken.reverse ++ s.arena.free
  /-- No code is left in the region, and nothing leads there. -/
  vacant : ∀ b, b = id ∨ b ∈ taken →
    s'.arena.isLive b = false ∧ s'.arena.sourceOf b = none ∧
      (s'.arena.block b).links = .unlinked ∧ (s'.arena.block b).ring = .empty ∧
      ∀ d t, s'.arena.successor d t ≠ b
  kept : ∀ b, b ≠ id → b ∉ taken → (s'.arena.block b).core = (s.arena.block b).core

/-- **Opening always makes room.**  Whatever was done before, and however regions were
split, joined and spilled: opening does not fail where no region is open, the region
then has the scratch space of a block and lies in the arena, and only as many regions
were joined as that takes. -/
theorem makesRoom_of_occurs {settings : Settings} {s : CodeStore} (h : Occurs settings s)
    (hclosed : s.arena.opened = none) :
    ∃ id s' taken rest, s.openRegion = .ok (id, s') ∧ MakesRoom settings s id taken rest s' := by
  have harr := h.sound.arranged
  obtain ⟨id, s', ho⟩ := h.filed.openRegion_ok harr hclosed
  obtain ⟨_, hact, taken, rest, hre⟩ := reopened_of_ok harr ho
  have hs' : Occurs settings s' := h.perform (a := .openRegion) (by rw [perform, ho]; rfl)
  have harr' := hs'.sound.arranged
  have hlinked := hs'.sound.linked
  obtain ⟨hi, htiles, _⟩ := harr'.tiles
  have hmem : id ∈ s'.arena.regions := hre.regions ▸ List.mem_append_right _ List.mem_cons_self
  obtain ⟨hlo, _, hhi⟩ := htiles.bounds hmem
  have hends := hs'.cut.aligned.ends
  rw [← htiles.eq_add_span, Arena.length, hs'.cut.sizes.arenaBytes,
    hs'.cut.sizes.blockBytes] at hends
  have hsize := h.cut.sizes.blockBytes
  refine ⟨id, s', taken, rest, ho, ?_⟩
  constructor
  case active => exact hact
  case opened => exact hre.opened
  case after => exact hre.after
  case regions => exact hre.regions
  case start =>
    rw [← Descriptor.start_core, hre.core, if_pos rfl]
    exact Descriptor.start_cleared _
  case size => exact hre.size_self harr hact
  case room =>
    rw [← hs'.cut.sizes.blockBytes]
    exact (harr'.opened id hre.opened).2.2
  case within => exact ⟨hlo, Nat.le_trans hhi hends⟩
  case least =>
    intro before x after hx
    rw [← hsize]
    exact least_of_openRegion harr ho hre hx
  case free => exact hre.free
  case vacant =>
    intro b hb
    have hdead : s'.arena.isLive b = false := by rw [hre.isLive_eq, if_pos hb]
    have hT : b.isTrampoline = false := by
      rcases hb with rfl | hb
      · exact harr'.not_trampoline_of_region hmem
      · refine (harr.bounds_of_mem_after (hact ▸ harr.active) ?_).1
        rw [hre.after]
        exact List.mem_append_left _ hb
    exact ⟨hdead, vacant_of_dead hs'.filed hlinked hT hdead⟩
  case kept =>
    intro b hne hb
    rw [hre.core, if_neg hne, if_neg hb]

/-- The last of three linked blocks spilled, and the arena starts over: both regions
after the first are joined to it, the one that spilled among them. -/
theorem makesRoom_of_spilled :
    ∃ s, Occurs .small s ∧ s.arena.opened = none ∧ s.arena.regions = [⟨2⟩, ⟨3⟩, ⟨4⟩] ∧
      (s.arena.block ⟨3⟩).size = 240 ∧ (s.arena.block ⟨4⟩).size = 700 ∧
      s.arena.successor ⟨4⟩ .second = ⟨2⟩ ∧
      ∃ id s' taken rest, s.openRegion = .ok (id, s') ∧
        MakesRoom .small s id taken rest s' := by
  obtain ⟨s, hs, htest⟩ := exists_of_succeeds
    (p := fun s => s.arena.opened = none ∧ s.arena.regions = [⟨2⟩, ⟨3⟩, ⟨4⟩] ∧
      (s.arena.block ⟨3⟩).size = 240 ∧ (s.arena.block ⟨4⟩).size = 700 ∧
      s.arena.successor ⟨4⟩ .second = ⟨2⟩)
    (x := [Action.openRegion, .fill 0x90 240, .close .dual [], .openRegion, .fill 0x90 240,
      .close .single [], .openRegion, .fill 0x90 700, .close .dual [], .link ⟨2⟩ .first ⟨3⟩,
      .link ⟨4⟩ .second ⟨2⟩].foldlM CodeStore.perform (.new .small)) (by decide +kernel)
  obtain ⟨hopened, hregions, hthird, hfourth, hlink⟩ := of_decide_eq_true htest
  have h : Occurs .small s := Occurs.foldlM (.new Settings.valid_small) hs
  exact ⟨s, h, hopened, hregions, hthird, hfourth, hlink, makesRoom_of_occurs h hopened⟩

end CodeStore

end Recompiler
