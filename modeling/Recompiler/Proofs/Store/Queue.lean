import Recompiler.Proofs.Store.Alignment

/-!
# The queue of compiled blocks

Regions come up to be opened in a cycle: from the active one to the last, then
from the first on.  The compiled blocks in that order are a queue.  Opening
takes blocks off its front, closing puts one at its end, and nothing else does
more than take blocks out.

Starting over early leaves out the regions at the end, but those start too late
to hold compiled code.
-/

namespace Recompiler

namespace Arena

/-- The regions in the order in which they come up. -/
def cycle (a : Arena) : List BlockId :=
  a.active :: (a.around a.active).2 ++ (a.around a.active).1

/-- The compiled blocks in the order in which their regions come up. -/
def queue (a : Arena) : List BlockId := a.cycle.filter a.isLive

theorem cycle_of_frame {a b : Arena} (h : b.frame = a.frame) : b.cycle = a.cycle := by
  rw [cycle, cycle, around, around, regions_of_frame h, active_of_frame h]

theorem cycle_append {a : Arena} {before after : List BlockId}
    (h : a.regions = before ++ a.active :: after) (hnot : a.active ∉ before) :
    a.cycle = a.active :: after ++ before := by
  rw [cycle, around_append h hnot]

theorem cycle_of_first {a : Arena} (h : a.regions.head? = some a.active) :
    a.cycle = a.regions := by
  obtain ⟨rest, hr⟩ := List.head?_eq_some_iff.mp h
  have hcycle : a.cycle = a.active :: rest ++ [] := cycle_append hr List.not_mem_nil
  rw [hcycle, List.append_nil, hr]

/-- Looking for what was compiled first loses nothing that is compiled. -/
theorem filter_isLive_filter {a b : Arena} (hl : ∀ x, b.isLive x = true → a.isLive x = true)
    (ids : List BlockId) : (ids.filter a.isLive).filter b.isLive = ids.filter b.isLive := by
  rw [List.filter_filter]
  refine List.filter_congr fun x _ => ?_
  cases hb : b.isLive x with
  | false => rfl
  | true => rw [hl x hb]; rfl

theorem queue_of_cycle {a b : Arena} (hc : b.cycle = a.cycle)
    (hl : ∀ x, b.isLive x = true → a.isLive x = true) :
    b.queue = a.queue.filter b.isLive := by
  rw [queue, queue, hc, filter_isLive_filter hl]

namespace Arranged

variable {a : Arena} (h : a.Arranged)

include h

theorem mem_cycle {x : BlockId} : x ∈ a.cycle ↔ x ∈ a.regions := by
  rw [regions_eq_around h.active, cycle]
  simp only [List.mem_append, List.mem_cons]
  tauto

theorem mem_queue (hl : a.Linked) {x : BlockId} : x ∈ a.queue ↔ a.isLive x = true := by
  rw [queue, List.mem_filter, h.mem_cycle]
  exact and_iff_right_of_imp (h.mem_regions_of_isLive hl)

/-! ## Closing a block -/

/-- From a region on that starts too late nothing is compiled. -/
theorem filter_isLive_of_late (hearly : ∀ x, a.isLive x = true → (a.block x).start ≤ a.lastStart)
    {before after : List BlockId} {id : BlockId} (hsplit : a.regions = before ++ id :: after)
    (hlate : a.lastStart < (a.block id).start) : (id :: after).filter a.isLive = [] := by
  refine List.filter_eq_nil_iff.mpr fun x hx hlive => ?_
  obtain ⟨hi, htiles, _⟩ := h.tiles
  rw [hsplit, tiles_append] at htiles
  obtain ⟨mid, _, htail⟩ := htiles
  have hstart : mid ≤ (a.block x).start := (htail.bounds hx).1
  have hx := hearly x hlive
  rw [htail.1] at hlate
  omega

/-- **Making the next region active puts the block before it last,** also where
that means to start over. -/
theorem queue_advance (hearly : ∀ x, a.isLive x = true → (a.block x).start ≤ a.lastStart)
    {id : BlockId} (hid : id ∈ a.regions) :
    (a.advance id).queue = ((a.around id).2 ++ (a.around id).1 ++ [id]).filter a.isLive := by
  have hsplit := regions_eq_around hid
  have hwrap : (advance.wrap a).queue = a.regions.filter a.isLive :=
    congrArg (List.filter a.isLive) (cycle_of_first (a := advance.wrap a) h.first)
  unfold Arena.advance
  cases hafter : (a.around id).2 with
  | nil =>
      rw [hafter] at hsplit
      show (advance.wrap a).queue = _
      rw [hwrap, hsplit, List.nil_append]
  | cons next rest =>
      rw [hafter] at hsplit
      have hnext : a.regions = ((a.around id).1 ++ [id]) ++ next :: rest := by
        rw [List.append_assoc]
        exact hsplit
      by_cases hs : (a.block next).start ≤ a.lastStart
      · have hnot : next ∉ (a.around id).1 ++ [id] := by
          have hnodup := List.Nodup.of_append_left h.nodup
          rw [hnext, List.nodup_append] at hnodup
          exact fun hm => hnodup.2.2 next hm next List.mem_cons_self rfl
        have hcycle : ({ a with active := next } : Arena).cycle =
            next :: rest ++ ((a.around id).1 ++ [id]) := cycle_append hnext hnot
        simp only [if_pos hs]
        rw [queue, hcycle, List.append_assoc]
        rfl
      · have hlate := h.filter_isLive_of_late hearly hnext (Nat.lt_of_not_le hs)
        simp only [if_neg hs]
        rw [hwrap, hnext]
        simp only [List.filter_append, hlate, List.append_nil, List.nil_append]

theorem queue_of_trimmed {a' : Arena} {id : BlockId} {written : Nat} (hid : id ∈ a.regions)
    (ht : Trimmed a id written a') :
    ((a'.around id).2 ++ (a'.around id).1 ++ [id]).filter a'.isLive =
      ((a.around id).2 ++ (a.around id).1 ++ [id]).filter a.isLive := by
  have hlive : a'.isLive = a.isLive := funext (ht.field Descriptor.isLive fun _ _ _ => rfl)
  rw [hlive]
  cases ht with
  | stays _ | grows _ _ _ => rfl
  | splits rest free hfree _ =>
      have hnot : id ∉ (a.around id).1 := fun hm =>
        h.not_mem_around hid (List.mem_append_left _ hm)
      have hdead : a.isLive rest = false := h.free rest (hfree ▸ List.mem_cons_self)
      rw [around_append (a := a.carve id rest free _) rfl hnot, List.cons_append, List.cons_append,
        List.filter_cons_of_neg (by rw [hdead]; exact Bool.false_ne_true)]

/-- **Closing puts the block closed last.** -/
theorem queue_close (ha : a.Aligned) {a' : Arena} {kind : BlockKind} {program : List Operation}
    {id : BlockId} (hc : a.close kind program = .ok (id, a')) :
    a'.queue = (a.queue ++ [id]).filter a'.isLive := by
  have hearly := (ha.close h hc).early
  obtain ⟨ho, b, ht, rfl⟩ := of_close_ok hc
  obtain ⟨hact, hdead, _⟩ := h.opened id ho
  have hid : id ∈ a.regions := hact ▸ h.active
  have hsealed := h.sealed kind program ho
  have hlive : b.isLive = (a.sealed id kind program).isLive :=
    funext (ht.field Descriptor.isLive fun _ _ _ => rfl)
  have hlive' : (b.advance id).isLive = b.isLive :=
    funext fun x => by rw [isLive, block_advance]; rfl
  have hother : ∀ x ∈ (a.around id).2 ++ (a.around id).1,
      (a.sealed id kind program).isLive x = a.isLive x := by
    intro x hx
    have hne : x ≠ id := fun he =>
      h.not_mem_around hid (List.mem_append.mpr (List.mem_append.mp (he ▸ hx)).symm)
    rw [isLive, block_sealed kind program (h.region_lt_capacity hid), if_neg hne]
    rfl
  have hqueue : a.queue.filter (a.sealed id kind program).isLive =
      ((a.around id).2 ++ (a.around id).1).filter (a.sealed id kind program).isLive := by
    rw [queue, cycle, ← hact, List.cons_append,
      List.filter_cons_of_neg (by rw [hdead]; exact Bool.false_ne_true), List.filter_filter]
    refine List.filter_congr fun x hx => ?_
    rw [hother x hx, Bool.and_self]
  show (b.advance id).queue = (a.queue ++ [id]).filter (b.advance id).isLive
  rw [(hsealed.of_trimmed rfl hid ht).queue_advance ?_ (ht.mem_regions hid),
    hsealed.queue_of_trimmed hid ht, hlive', hlive, List.filter_append a.queue, hqueue,
    ← List.filter_append]
  · rfl
  · intro x hx
    have := hearly x (show (b.advance id).isLive x = true by rw [hlive']; exact hx)
    rwa [block_count, block_advance, lastStart, show (Arena.count _ _).arenaBytes = _ from
      arenaBytes_advance b id, show (Arena.count _ _).blockBytes = _ from
      blockBytes_advance b id] at this

end Arranged

end Arena

/-! ## Opening a region -/

namespace CodeStore.Reopened

open Arena

variable {a a' : Arena} {id : BlockId} {taken rest : List BlockId}
  (h : Reopened a a' id taken rest)

include h

theorem isLive_of_isLive (x : BlockId) (hx : a'.isLive x = true) : a.isLive x = true := by
  rw [h.isLive_eq] at hx
  split at hx
  · cases hx
  · exact hx

/-- **Opening takes blocks off the front of the queue:** those in the active
region and in the regions joined to it. -/
theorem queue_eq (harr : a.Arranged) (hid : id = a.active) :
    a.queue = (id :: taken).filter a.isLive ++ a'.queue := by
  have harr' := h.arranged harr hid
  have hnot : id ∉ (a.around id).1 := fun hm =>
    harr.not_mem_around (hid ▸ harr.active) (List.mem_append_left _ hm)
  have hcycle : a'.cycle = id :: rest ++ (a.around id).1 := by
    have hact : a'.active = id := h.active.trans hid.symm
    rw [← hact] at hnot ⊢
    exact cycle_append (hact ▸ h.regions) hnot
  have hkept : (rest ++ (a.around id).1).filter a'.isLive =
      (rest ++ (a.around id).1).filter a.isLive := by
    refine List.filter_congr fun x hx => ?_
    obtain ⟨_, hne, htaken⟩ := h.kept harr hid x (List.mem_append.mpr (List.mem_append.mp hx).symm)
    rw [h.isLive_eq, if_neg (not_or.mpr ⟨hne, htaken⟩)]
  have hdead : a'.isLive id = false := by rw [h.isLive_eq, if_pos (Or.inl rfl)]
  rw [queue, queue, hcycle, List.cons_append,
    List.filter_cons_of_neg (p := a'.isLive) (by rw [hdead]; exact Bool.false_ne_true), hkept,
    cycle, ← hid, h.after, ← List.filter_append]
  simp

theorem queue_filter (harr : a.Arranged) (hid : id = a.active) :
    a'.queue = a.queue.filter a'.isLive := by
  have hfront : ((id :: taken).filter a.isLive).filter a'.isLive = [] := by
    rw [filter_isLive_filter h.isLive_of_isLive, List.filter_eq_nil_iff]
    intro x hx
    rw [h.isLive_eq, if_pos (List.mem_cons.mp hx)]
    exact Bool.false_ne_true
  rw [h.queue_eq harr hid, List.filter_append, hfront, List.nil_append, queue,
    filter_isLive_filter fun _ hx => hx]

end CodeStore.Reopened

end Recompiler
