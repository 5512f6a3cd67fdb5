import Recompiler.Proofs.Guarded.Outcome
import Recompiler.Proofs.Guarded.Pool
import Recompiler.Proofs.Guarded.Range
import Recompiler.Proofs.Store.Countdown

/-!
# The countdown of a watch

A watch that indexes nothing counts the writes that change its page, and is released
by the last of them.  Any other write, and the invalidation of any range, leaves the
countdown of a watch where it stands, unless a block is taken off it: then it starts
anew.  A watch is put up for a page with its countdown at the start.
-/

namespace Recompiler

namespace CodeStore

theorem continues_set {s : CodeStore} {w : WatchId} (hw : w.number < s.watches.capacity)
    {v : Watch} (hdelay : v.delay = (s.watches.watch w).delay)
    (hcountdown : v.countdown = (s.watches.watch w).countdown) (id : WatchId) :
    (s.watches.watch id).Continues ((s.watches.set w v).watch id) False := by
  rw [Watches.watch_set _ _ _ _ hw]
  split
  · next he => exact ⟨he ▸ hdelay, False.elim, fun _ => he ▸ hcountdown⟩
  · exact .refl _ not_false

end CodeStore

namespace GuardedMemory

/-! ## Writes -/

/-- Whether a write within a page counts toward the release of a watch: it changes the
watch's page while the watch indexes nothing. -/
def Idles (g : GuardedMemory) (id : WatchId) (width : Width) (addr value : UInt32) : Prop :=
  g.memory.watch? (pageOf addr) = some id ∧ g.memory.changedBy width addr value ≠ [] ∧
    (g.code.watches.watch id).blocks = []

instance (g : GuardedMemory) (id : WatchId) (width : Width) (addr value : UInt32) :
    Decidable (g.Idles id width addr value) :=
  inferInstanceAs (Decidable (_ ∧ _))

/-- What a write is to lose a watch: the blocks that were compiled from a byte it
changes. -/
theorem Freed.loses_iff {running : Option BlockId} {g g' : GuardedMemory}
    {changed : List UInt32} {freed : List BlockId} {outcome : WriteResult}
    (h : g.Freed running changed freed outcome g') (id : WatchId) :
    g.code.Loses g'.code id ↔
      ∃ b src, g.code.arena.sourceOf b = some src ∧ src.watch = id ∧ src.meets changed := by
  rw [h.code.loses_iff]
  refine exists_congr fun b => exists_congr fun src => and_congr_right fun hs =>
    and_congr_right fun _ => ?_
  rw [h.met]
  constructor
  · rintro ⟨t, ht, hmeets⟩
    rw [hs, Option.some.injEq] at ht
    exact ht ▸ hmeets
  · exact fun hmeets => ⟨src, hs, hmeets⟩

/-- A write within a page changes something just if it is stored and differs from what
memory holds. -/
theorem changedBy_ne_nil_iff {g : GuardedMemory} {width : Width} {addr value : UInt32}
    (hc : crossesPage width addr = false) :
    g.memory.changedBy width addr value ≠ [] ↔
      (g.memory.accepts addr && g.memory.readWidth width addr ≠ width.truncate value) = true := by
  have hspan : span width addr ≠ [] := by cases width <;> exact List.cons_ne_nil _ _
  rw [Memory.changedBy_of_within hc]
  split
  · next hstored => exact iff_of_true hspan hstored
  · next hsame => exact iff_of_false (absurd rfl) hsame

def counted (g : GuardedMemory) (id : WatchId) (memory : Memory) : GuardedMemory where
  code := { g.code with
    watches := g.code.watches.set id { g.code.watches.watch id with
      countdown := (g.code.watches.watch id).countdown - 1 } }
  memory := memory

@[simp]
theorem memory_counted (g : GuardedMemory) (id : WatchId) (memory : Memory) :
    (g.counted id memory).memory = memory := rfl

theorem watch_counted {g : GuardedMemory} {id : WatchId} (hlt : id.number < g.code.watches.capacity)
    (memory : Memory) (x : WatchId) : (g.counted id memory).code.watches.watch x =
      if id = x then { g.code.watches.watch id with
        countdown := (g.code.watches.watch id).countdown - 1 }
      else g.code.watches.watch x :=
  Watches.watch_set _ _ _ _ hlt

namespace Coherent

variable {l : Limits} {g : GuardedMemory} (h : g.Coherent l)

include h

/-- **How a watched page is changed:** the changes are counted and what is met is torn
down; or nothing is met and nothing counts, as the watch indexes something; or the watch
is idle and counts. -/
theorem writeWatched_cases {id : WatchId} (hused : id ∈ g.code.watches.used) (width : Width)
    (addr value : UInt32) (running : Option BlockId) :
    ((g.code.watches.watch id).blocks ≠ [] ∧ ∃ outcome code,
      ({ g.code with watches := g.code.watches.set id ((g.code.watches.watch id).noteChanges
        (offsetOf addr) (lastOf (offsetOf addr) width)) } : CodeStore).Strips code ∧
      g.writeWatched id width addr value running =
        (outcome, ⟨code, g.memory.storeWidth width addr value⟩)) ∨
    ((g.code.watches.watch id).blocks ≠ [] ∧ g.writeWatched id width addr value running =
      (.written, { g with memory := g.memory.storeWidth width addr value })) ∨
    (g.code.watches.watch id).blocks = [] ∧ g.writeWatched id width addr value running =
      if (g.code.watches.watch id).countdown ≤ 1 then
        (.released, (g.counted id (g.memory.storeWidth width addr value)).releaseWatch id)
      else (.written, g.counted id (g.memory.storeWidth width addr value)) := by
  have hindexes := h.store.indexed.indexes id
  unfold GuardedMemory.writeWatched
  simp only
  split
  · next hcount =>
      have hsome : (g.code.watches.watch id).blocks ≠ [] := by
        intro hnone
        refine hcount ((Watch.coverageBetween_eq_zero_iff ..).mpr fun k _ _ => ?_)
        rw [hindexes.coverage, hnone]
        rfl
      have hnoted := h.noteChanges hused (offsetOf addr) (lastOf (offsetOf addr) width)
      obtain ⟨ids, _, _, f, heq, _⟩ := hnoted.store.invalidate
        (by rw [Watches.capacity_set]; exact h.lt_capacity hused) (le_lastOf ..) running
      rw [heq]
      exact Or.inl ⟨hsome, _, _,
        (hnoted.store.indexed.filed.strips_withoutAll ids).count f, rfl⟩
  · split
    · next hactive =>
        rw [hindexes.active, ne_eq, List.length_eq_zero_iff] at hactive
        exact Or.inr (Or.inl ⟨hactive, rfl⟩)
    · next hactive =>
        rw [not_not, hindexes.active, List.length_eq_zero_iff] at hactive
        exact Or.inr (Or.inr ⟨hactive, rfl⟩)

section Write

variable {width : Width} {addr : UInt32} (hc : crossesPage width addr = false) (value : UInt32)
  (running : Option BlockId)

include hc

/-- **A write that finds its watch idle counts,** and the last to count releases. -/
theorem writeWithin_of_idles {id : WatchId} (hi : g.Idles id width addr value) :
    g.writeWithin width addr value running =
      if (g.code.watches.watch id).countdown ≤ 1 then
        (.released, (g.counted id
          (g.memory.storeWidth width addr (width.truncate value))).releaseWatch id)
      else (.written, g.counted id (g.memory.storeWidth width addr (width.truncate value))) := by
  obtain ⟨hid, hchanges, hnone⟩ := hi
  rw [writeWithin_of_watched ((changedBy_ne_nil_iff hc).mp hchanges) running hid]
  rcases h.writeWatched_cases ((h.mapped _ _).mp hid).1 width addr (width.truncate value)
    running with ⟨hsome, _⟩ | ⟨hsome, _⟩ | ⟨_, heq⟩
  · exact absurd hnone hsome
  · exact absurd hnone hsome
  · exact heq

/-- **Any other write** leaves the countdown of a watch alone, unless the watch loses a
block to it. -/
theorem continues_writeWithin {id : WatchId} (hn : ¬g.Idles id width addr value) :
    (g.code.watches.watch id).Continues
        ((g.writeWithin width addr value running).2.code.watches.watch id)
        (g.code.Loses (g.writeWithin width addr value running).2.code id) := by
  have hself : (g.code.watches.watch id).Continues (g.code.watches.watch id)
      (g.code.Loses g.code id) := (CodeStore.Strips.refl g.code).continues id
  by_cases hstored : (g.memory.accepts addr &&
      g.memory.readWidth width addr ≠ width.truncate value) = true
  · cases hid : g.memory.watch? (pageOf addr) with
    | none =>
        rw [writeWithin_of_unwatched hstored running hid]
        exact hself
    | some w =>
        have hused := ((h.mapped _ _).mp hid).1
        have hlt := h.lt_capacity hused
        rw [writeWithin_of_watched hstored running hid]
        rcases h.writeWatched_cases hused width addr (width.truncate value) running with
          ⟨_, outcome, code, hstrips, heq⟩ | ⟨_, heq⟩ | ⟨hnone, heq⟩
        · have hset := CodeStore.continues_set hlt (v := (g.code.watches.watch w).noteChanges
            (offsetOf addr) (lastOf (offsetOf addr) width)) rfl rfl id
          rw [heq]
          exact hset.trans (hstrips.continues id) (iff_of_eq (false_or _)).symm
        · rw [heq]
          exact hself
        · have hne : w ≠ id := by
            rintro rfl
            exact hn ⟨hid, (changedBy_ne_nil_iff hc).mpr hstored, hnone⟩
          rw [heq]
          split
          · show (g.code.watches.watch id).Continues
              (((g.code.watches.set w _).set w _).watch id) _
            rw [Watches.set_set, Watches.watch_set _ _ _ _ hlt, if_neg hne]
            exact hself
          · show (g.code.watches.watch id).Continues
              ((g.counted w (g.memory.storeWidth width addr _)).code.watches.watch id) _
            rw [watch_counted hlt, if_neg hne]
            exact hself
  · rcases writeWithin_of_same running hstored with hsame | hsame
    · rw [hsame]
      exact hself
    · rw [hsame]
      exact hself

/-- Unless it finds a watch idle, a write takes no page from under its watch. -/
theorem watch?_writeWithin (hn : ∀ id, ¬g.Idles id width addr value) (page : Nat) :
    (g.writeWithin width addr value running).2.memory.watch? page = g.memory.watch? page := by
  have hmarks := (Memory.patched_storeWidth hc g.memory (width.truncate value)).marks.watch page
  by_cases hstored : (g.memory.accepts addr &&
      g.memory.readWidth width addr ≠ width.truncate value) = true
  · cases hid : g.memory.watch? (pageOf addr) with
    | none =>
        rw [writeWithin_of_unwatched hstored running hid]
        exact hmarks
    | some w =>
        rw [writeWithin_of_watched hstored running hid]
        rcases h.writeWatched_cases ((h.mapped _ _).mp hid).1 width addr (width.truncate value)
          running with ⟨_, outcome, code, _, heq⟩ | ⟨_, heq⟩ | ⟨hnone, _⟩
        · rw [heq]
          exact hmarks
        · rw [heq]
          exact hmarks
        · exact absurd ⟨hid, (changedBy_ne_nil_iff hc).mpr hstored, hnone⟩ (hn w)
  · rcases writeWithin_of_same running hstored with hsame | hsame
    · rw [hsame]
    · rw [hsame]

section Idle

variable {id : WatchId} (hi : g.Idles id width addr value)

include hi

/-- The last write to count takes the page from under its watch, and no other does. -/
theorem watch?_writeWithin_of_idles (page : Nat) :
    (g.writeWithin width addr value running).2.memory.watch? page =
      if (g.code.watches.watch id).countdown ≤ 1 ∧ pageOf addr = page then none
      else g.memory.watch? page := by
  have hmarks := Memory.patched_storeWidth hc g.memory (width.truncate value)
  have hpage := ((h.mapped _ _).mp hi.1).2
  have hused := ((h.mapped _ _).mp hi.1).1
  have hlt := Memory.lt_pageCount_of_watch? hi.1
  rw [h.writeWithin_of_idles hc value running hi]
  split
  · next hlast =>
      show (Memory.setWatch _ _ none).watch? page = _
      rw [Memory.watch?_setWatch, watch_counted (h.lt_capacity hused), if_pos rfl, memory_counted,
        hmarks.marks.pageCount, hmarks.marks.watch]
      simp only [hpage, hlast, true_and]
      by_cases hp : pageOf addr = page
      · rw [if_pos hp, if_pos ⟨hp, hp ▸ hlt⟩]
      · rw [if_neg hp, if_neg fun hboth => hp hboth.1]
  · next hmore =>
      rw [if_neg fun hboth => hmore hboth.1, memory_counted, hmarks.marks.watch]

theorem watch?_writeWithin_of_idles_of_some {page : Nat} {x : WatchId}
    (hx : g.memory.watch? page = some x) :
    (g.writeWithin width addr value running).2.memory.watch? page =
      if (g.code.watches.watch id).countdown ≤ 1 ∧ x = id then none else some x := by
  rw [h.watch?_writeWithin_of_idles hc value running hi, hx]
  refine if_congr (and_congr_right fun _ => ?_) rfl rfl
  constructor
  · rintro rfl
    exact Option.some.inj (hx.symm.trans hi.1)
  · rintro rfl
    exact ((h.mapped _ _).mp hi.1).2.symm.trans ((h.mapped _ _).mp hx).2

theorem countdown_writeWithin_of_idles (hmore : 1 < (g.code.watches.watch id).countdown) :
    ((g.writeWithin width addr value running).2.code.watches.watch id).countdown =
      (g.code.watches.watch id).countdown - 1 := by
  have hused := ((h.mapped _ _).mp hi.1).1
  rw [h.writeWithin_of_idles hc value running hi]
  rw [if_neg (Nat.not_le.mpr hmore), watch_counted (h.lt_capacity hused), if_pos rfl]

theorem changes_writeWithin_of_idles (hlast : (g.code.watches.watch id).countdown ≤ 1) :
    ((g.writeWithin width addr value running).2.code.watches.watch id).changes = none := by
  have hused := ((h.mapped _ _).mp hi.1).1
  rw [h.writeWithin_of_idles hc value running hi]
  simp only [if_pos hlast]
  show (((g.code.watches.set id _).set id _).watch id).changes = none
  rw [Watches.set_set, Watches.watch_set _ _ _ _ (h.lt_capacity hused), if_pos rfl]
  rfl

end Idle

end Write

/-! ## Ranges -/

/-- The invalidation of a range takes blocks off their watches, and does no more to
these. -/
theorem strips_invalidateRange (start stop : UInt32) (running : Option BlockId) :
    g.code.Strips (g.invalidate start stop running).2.2.code := by
  by_cases hle : stop < start
  · unfold GuardedMemory.invalidate
    rw [if_pos hle]
    exact .refl _
  · rw [g.invalidate_eq_sweep hle]
    have hsweep : ∀ n, n ≤ pageOf stop + 1 - pageOf start →
        g.code.Strips (g.sweep start stop running n).2.2.code := by
      intro n hn
      induction n with
      | zero => exact .refl _
      | succ n ih =>
          obtain ⟨freed, hr⟩ := h.swept_sweep hle running (Nat.le_of_succ_le hn)
          refine (ih (Nat.le_of_succ_le hn)).trans ?_
          rw [sweep_succ]
          unfold sweepPage
          cases hw : (g.sweep start stop running n).2.2.memory.watch? (pageOf start + n) with
          | none => exact .refl _
          | some id =>
              have hused := ((hr.coherent.mapped _ _).mp hw).1
              obtain ⟨ids, _, _, f, heq, _⟩ := hr.coherent.store.invalidate
                (hr.coherent.lt_capacity hused) (firstIn_le_lastIn hle _) running
              simp only
              rw [heq]
              exact (hr.coherent.store.indexed.filed.strips_withoutAll ids).count f
    exact hsweep _ (by omega)

/-! ## Watches of pages -/

/-- **How a page comes under a watch:** it is under one, or one is put up, which was free
or was the oldest in use and cleared for it. -/
theorem watchPage_cases {page : Nat} {id : WatchId} {g' : GuardedMemory}
    (hw : g.watchPage page = .ok (some id, g')) :
    (g.memory.watch? page = some id ∧ g' = g) ∨
      (g.memory.watch? page = none ∧ (∃ rest, g.code.watches.free = id :: rest) ∧
        g' = g.installWatch id page) ∨
      g.memory.watch? page = none ∧ g.code.watches.free = [] ∧
        (∃ rest, g.code.watches.used = id :: rest) ∧
        g' = (g.clearWatch id).installWatch id page := by
  unfold GuardedMemory.watchPage at hw
  cases hwatch : g.memory.watch? page with
  | some x =>
      simp only [hwatch] at hw
      cases hw
      exact Or.inl ⟨rfl, rfl⟩
  | none =>
      simp only [hwatch] at hw
      by_cases hbarred : g.memory.pageCount ≤ page ∨ g.memory.isNoCode page = true
      · rw [if_pos hbarred] at hw
        cases hw
      · rw [if_neg hbarred] at hw
        cases hf : g.code.watches.free with
        | cons x rest =>
            simp only [hf] at hw
            cases hw
            exact Or.inr (Or.inl ⟨rfl, ⟨rest, rfl⟩, rfl⟩)
        | nil =>
            obtain ⟨oldest, rest, hu⟩ := h.exists_used hf
            have hfree : (g.clearWatch oldest).code.watches.free = [oldest] := by
              show oldest :: g.code.watches.free = _
              rw [hf]
            simp only [hf, hu, hfree] at hw
            cases hw
            exact Or.inr (Or.inr ⟨rfl, rfl, ⟨rest, hu⟩, rfl⟩)

end Coherent

/-- A watch put up for a page that was under none: the first that is free, or else the
oldest in use, whose page is then under none.  What the others count stays, and what
compiling takes off them. -/
structure PutAnew (settings : Settings) (g : GuardedMemory) (page : Nat) (w : WatchId)
    (g' : GuardedMemory) : Prop where
  unwatched : g.memory.watch? page = none
  next : (g.code.watches.free ++ g.code.watches.used).head? = some w
  watch? : ∀ n, g'.memory.watch? n =
    if n = page then some w
    else if g.code.watches.free = [] ∧ g.memory.watch? n = some w then none
    else g.memory.watch? n
  fresh : g'.code.watches.watch w = .fresh page settings.releaseDelay.toNat
  others : ∀ id, id ≠ w → g'.code.watches.watch id = g.code.watches.watch id
  overwrites : ∀ id, id ≠ w → (g'.code.Overwrites id ↔ g.code.Overwrites id)

namespace PutAnew

variable {settings : Settings} {g g' : GuardedMemory} {page : Nat} {w : WatchId}
  (h : PutAnew settings g page w g')

include h

theorem watch?_of_some {n : Nat} {id : WatchId} (hid : g.memory.watch? n = some id) :
    g'.memory.watch? n = if g.code.watches.free = [] ∧ id = w then none else some id := by
  have hn : n ≠ page := by
    rintro rfl
    exact Option.some_ne_none id (hid.symm.trans h.unwatched)
  rw [h.watch?, if_neg hn, hid]
  exact if_congr (and_congr_right fun _ => Option.some_inj) rfl rfl

/-- What is under a watch then was under it before, or that watch was put up. -/
theorem watch?_cases {n : Nat} {id : WatchId} (hid : g'.memory.watch? n = some id) :
    g.memory.watch? n = some id ∨ id = w := by
  rw [h.watch?] at hid
  by_cases he : n = page
  · rw [if_pos he, Option.some.injEq] at hid
    exact Or.inr hid.symm
  · rw [if_neg he, Option.ite_none_left_eq_some] at hid
    exact Or.inl hid.2

end PutAnew

namespace Pooled

variable {settings : Settings} {l : Limits} {g : GuardedMemory} (h : g.Pooled settings l)

include h

theorem delay_eq {page : Nat} {id : WatchId} (hid : g.memory.watch? page = some id) :
    (g.code.watches.watch id).delay = settings.releaseDelay.toNat := by
  obtain ⟨log, hlog⟩ := h.recorded
  exact hlog.ordered.delay id ((h.coherent.mapped _ _).mp hid).1

theorem putAnew_install {page : Nat} (hpage : page < g.memory.pageCount)
    (hnone : g.memory.watch? page = none) {w : WatchId} {rest : List WatchId}
    (hfree : g.code.watches.free = w :: rest) : PutAnew settings g page w (g.installWatch w page) := by
  have hin : w ∈ g.code.watches.free := hfree ▸ List.mem_cons_self
  obtain ⟨log, hlog⟩ := h.recorded
  have hset := fun id => Watches.watch_set g.code.watches w id
    (.fresh page (g.code.watches.watch w).delay) (hlog.ordered.lt_of_free hin)
  constructor
  case unwatched => exact hnone
  case next => rw [hfree, List.cons_append, List.head?_cons]
  case watch? =>
    intro n
    show (g.memory.setWatch page (some w)).watch? n = _
    rw [Memory.watch?_setWatch, if_neg (c := g.code.watches.free = [] ∧ _) (by simp [hfree])]
    by_cases hn : n = page
    · rw [if_pos hn, if_pos ⟨hn.symm, hn ▸ hpage⟩]
    · rw [if_neg hn, if_neg fun hboth => hn hboth.1.symm]
  case fresh =>
    refine (hset w).trans ?_
    rw [if_pos rfl, hlog.ordered.idle w hin]
    rfl
  case others =>
    intro id hne
    exact (hset id).trans (if_neg hne.symm)
  case overwrites => exact fun _ _ => Iff.rfl

/-- **Where none is free the oldest goes.** -/
theorem putAnew_reclaim {page : Nat} (hpage : page < g.memory.pageCount)
    (hnone : g.memory.watch? page = none) (hfree : g.code.watches.free = []) {w : WatchId}
    {rest : List WatchId} (hused : g.code.watches.used = w :: rest) :
    PutAnew settings g page w ((g.clearWatch w).installWatch w page) := by
  have hin : w ∈ g.code.watches.used := hused ▸ List.mem_cons_self
  have hlt := h.coherent.lt_capacity hin
  have hcleared := h.clearWatch hin
  have hbare : (g.clearWatch w).memory.bare = g.memory.bare := Coherent.bare_clearWatch g w
  have hgone : ∀ n, (g.clearWatch w).memory.watch? n =
      if g.memory.watch? n = some w then none else g.memory.watch? n := by
    intro n
    rw [clearWatch_of_lt hlt, Memory.watch?_setWatch]
    refine if_congr ?_ rfl rfl
    rw [h.coherent.mapped, and_iff_right hin]
    refine and_iff_left_of_imp fun hn => ?_
    exact Memory.lt_pageCount_of_watch? ((h.coherent.mapped n w).mpr ⟨hin, hn⟩)
  have hputs : PutAnew settings (g.clearWatch w) page w ((g.clearWatch w).installWatch w page) := by
    refine hcleared.putAnew_install ?_ ?_ rfl
    · rw [← Memory.pageCount_bare, hbare, Memory.pageCount_bare]
      exact hpage
    · rw [hgone, hnone]
      exact ite_self none
  constructor
  case unwatched => exact hnone
  case next => rw [hfree, hused, List.nil_append, List.head?_cons]
  case watch? =>
    intro n
    have hsome : (g.clearWatch w).code.watches.free ≠ [] := List.cons_ne_nil w _
    rw [hputs.watch?]
    simp only [hsome, hfree, hgone, false_and, true_and, if_false]
  case fresh => exact hputs.fresh
  case others =>
    intro id hne
    rw [hputs.others id hne, clearWatch_of_lt hlt]
    exact (Watches.watch_set _ _ _ _ hlt).trans (if_neg hne.symm)
  case overwrites =>
    intro id hne
    refine (hputs.overwrites id hne).trans ((h.coherent.frees_clearWatch hin).overwrites_iff ?_)
    intro x src hx hid hmem
    obtain ⟨src', hx', hw⟩ := h.coherent.mem_blocks_iff.mp hmem
    rw [hx, Option.some.injEq] at hx'
    exact hne (hid.symm.trans ((congrArg Source.watch hx').trans hw))

theorem putAnew {page : Nat} (hnone : g.memory.watch? page = none) {w : WatchId}
    {g' : GuardedMemory} (hw : g.watchPage page = .ok (some w, g')) :
    PutAnew settings g page w g' := by
  have hwatched := h.coherent.of_watchPage_ok hw
  have hpage := Memory.lt_pageCount_of_watch? hwatched.watch
  rw [← Memory.pageCount_bare, hwatched.bare, Memory.pageCount_bare] at hpage
  rcases h.coherent.watchPage_cases hw with
    ⟨hsome, _⟩ | ⟨_, ⟨rest, hfree⟩, rfl⟩ | ⟨_, hfree, ⟨rest, hused⟩, rfl⟩
  · rw [hnone] at hsome
    cases hsome
  · exact h.putAnew_install hpage hnone hfree
  · exact h.putAnew_reclaim hpage hnone hfree hused

end Pooled

end GuardedMemory

end Recompiler
