import Recompiler.Proofs.Guarded.Pool
import Recompiler.Proofs.Store.Commute

/-!
# Flushing

To discard all compiled code the oldest watch is cleared, again and again, until none
is in use.  This comes to an end, as each time one watch less is in use; and it is
complete, as every block that is compiled is listed on one of them.  What is left is
told all at once: of every record what code was compiled into its region is gone, and
with it every link; every watch is as good as new; and the rest is as it was.
-/

namespace Recompiler

theorem Descriptor.core_eq_vacated {d : Descriptor} (hlive : d.isLive = false)
    (hsource : d.source = none) : d.core = d.vacated := by
  have hkind : d.kind = .free := by
    unfold isLive BlockKind.isLive at hlive
    cases hk : d.kind <;> rw [hk] at hlive <;> first | rfl | cases hlive
  rw [core, vacated, ← hkind, ← hsource]

namespace Memory

theorem eq_bare {m : Memory} (h : m.Unwatched) : m = m.bare := by
  obtain ⟨pages⟩ := m
  refine congrArg Memory.mk (Array.ext_getElem? fun i => ?_)
  have hwatch : (pages[i]?).bind Page.watch = none := h.watch i
  have hcode : (pages[i]?).elim false Page.hasCode = false := h.hasCode i
  rw [Array.getElem?_map]
  cases hp : pages[i]? with
  | none => rfl
  | some p =>
      rw [hp, Option.bind_some] at hwatch
      rw [hp, Option.elim_some] at hcode
      rw [Option.map_some, Page.bare, ← hwatch, ← hcode]

end Memory

namespace GuardedMemory

/-! ## Clearing the oldest watch, again and again -/

/-- The oldest watch is cleared as long as one is in use; these are the ones cleared,
in order, and what is left in the end. -/
inductive Empties : GuardedMemory → List WatchId → GuardedMemory → Prop
  | done {g : GuardedMemory} (h : g.code.watches.used = []) : Empties g [] g
  | clear {g g' : GuardedMemory} {id : WatchId} {rest ids : List WatchId}
      (hused : g.code.watches.used = id :: rest) (h : Empties (g.clearWatch id) ids g') :
      Empties g (id :: ids) g'

theorem used_clearWatch {g : GuardedMemory} {id : WatchId} {rest : List WatchId}
    (hnodup : g.code.watches.used.Nodup) (hused : g.code.watches.used = id :: rest) :
    (g.clearWatch id).code.watches.used = rest := by
  show g.code.watches.used.filter (· ≠ id) = rest
  rw [hused] at hnodup ⊢
  have hnot := (List.nodup_cons.mp hnodup).1
  rw [List.filter_cons_of_neg (by simp), List.filter_eq_self]
  intro x hx
  rw [decide_eq_true_iff]
  rintro rfl
  exact hnot hx

theorem free_foldl_clearWatch (g : GuardedMemory) (ids : List WatchId) :
    (ids.foldl clearWatch g).code.watches.free = ids.reverse ++ g.code.watches.free := by
  induction ids generalizing g with
  | nil => rfl
  | cons id rest ih =>
      rw [List.foldl_cons, ih, List.reverse_cons, List.append_assoc]
      rfl

theorem capacity_foldl_clearWatch (g : GuardedMemory) (ids : List WatchId) :
    (ids.foldl clearWatch g).code.watches.capacity = g.code.watches.capacity := by
  induction ids generalizing g with
  | nil => rfl
  | cons id rest ih =>
      exact (ih _).trans ((Watches.capacity_set ..).trans (Watches.capacity_set ..))

theorem bare_foldl_clearWatch (g : GuardedMemory) (ids : List WatchId) :
    (ids.foldl clearWatch g).memory.bare = g.memory.bare := by
  induction ids generalizing g with
  | nil => rfl
  | cons id rest ih => exact (ih _).trans (Coherent.bare_clearWatch g id)

theorem counters_foldl_clearWatch (g : GuardedMemory) (ids : List WatchId) :
    (ids.foldl clearWatch g).code.arena.counters = g.code.arena.counters := by
  have hvacate : ∀ (blocks : List BlockId) (a : Arena),
      (blocks.foldl Arena.vacate a).counters = a.counters := by
    intro blocks
    induction blocks with
    | nil => exact fun _ => rfl
    | cons b rest ih => exact fun a => (ih _).trans (Arena.counters_vacate a b)
  induction ids generalizing g with
  | nil => rfl
  | cons id rest ih => exact (ih _).trans (hvacate _ _)

namespace Coherent

variable {l : Limits} {g : GuardedMemory} (h : g.Coherent l)

include h

theorem nodup_used : g.code.watches.used.Nodup :=
  (List.nodup_append.mp h.store.indexed.nodup).2.1

omit h in
/-- Clearing the watches in use one after the other is clearing the oldest again and
again. -/
theorem empties_foldl (ids : List WatchId) {g : GuardedMemory} (h : g.Coherent l)
    (hused : g.code.watches.used = ids) : g.Empties ids (ids.foldl GuardedMemory.clearWatch g) := by
  induction ids generalizing g with
  | nil => exact .done hused
  | cons id rest ih =>
      have hid : id ∈ g.code.watches.used := hused ▸ List.mem_cons_self
      exact .clear hused (ih (h.clearWatch hid) (used_clearWatch h.nodup_used hused))

/-- **Flushing is what clearing the oldest watch comes to,** and it comes to an end after
as many rounds as there are watches in use. -/
theorem empties_iff {ids : List WatchId} {g' : GuardedMemory} :
    g.Empties ids g' ↔ ids = g.code.watches.used ∧ g' = g.flush := by
  constructor
  · intro he
    unfold GuardedMemory.flush
    induction he with
    | done hused => rw [hused]; exact ⟨rfl, rfl⟩
    | clear hused _ ih =>
        have hid := hused ▸ List.mem_cons_self
        obtain ⟨hids, hlast⟩ := ih (h.clearWatch hid)
        rw [used_clearWatch h.nodup_used hused] at hids hlast
        rw [hused, hids]
        exact ⟨rfl, hlast⟩
  · rintro ⟨rfl, rfl⟩
    exact empties_foldl _ h rfl

theorem used_flush : g.flush.code.watches.used = [] := by
  have he := h.empties_iff.mpr ⟨rfl, rfl⟩
  generalize g.code.watches.used = ids at he
  generalize g.flush = g' at he
  clear h
  induction he with
  | done hused => exact hused
  | clear _ _ ih => exact ih

omit h in
theorem frees_foldl_clearWatch (ids : List WatchId) {g : GuardedMemory} (h : g.Coherent l)
    (hnodup : ids.Nodup) (hids : ∀ id ∈ ids, id ∈ g.code.watches.used) :
    ∃ freed, g.code.Frees freed (ids.foldl GuardedMemory.clearWatch g).code := by
  induction ids generalizing g with
  | nil => exact ⟨[], .refl _⟩
  | cons id rest ih =>
      obtain ⟨hnot, hnodup⟩ := List.nodup_cons.mp hnodup
      have hid := hids id List.mem_cons_self
      have hrest : ∀ x ∈ rest, x ∈ (g.clearWatch id).code.watches.used := by
        intro x hx
        have hne : x ≠ id := by
          rintro rfl
          exact hnot hx
        exact List.mem_filter.mpr ⟨hids x (List.mem_cons_of_mem _ hx), decide_eq_true hne⟩
      obtain ⟨freed, hfreed⟩ := ih (h.clearWatch hid) hnodup hrest
      exact ⟨_, (h.frees_clearWatch hid).append hfreed⟩

/-! ## What is left -/

theorem watch?_flush (page : Nat) : g.flush.memory.watch? page = none := by
  cases hw : g.flush.memory.watch? page with
  | none => rfl
  | some id =>
      have hused := ((h.flush.mapped page id).mp hw).1
      rw [h.used_flush] at hused
      cases hused

theorem unwatched_flush : g.flush.memory.Unwatched :=
  ⟨h.watch?_flush, fun page => (h.flush.marked page).trans (by rw [h.watch?_flush]; rfl)⟩

theorem memory_flush : g.flush.memory = g.memory.bare :=
  (Memory.eq_bare h.unwatched_flush).trans (bare_foldl_clearWatch g _)

/-- **No block is left.** -/
theorem sourceOf_flush (b : BlockId) : g.flush.code.arena.sourceOf b = none := by
  cases hs : g.flush.code.arena.sourceOf b with
  | none => rfl
  | some src =>
      have hw := h.flush.watch?_page hs
      rw [h.watch?_flush] at hw
      cases hw

theorem isLive_flush (b : BlockId) : g.flush.code.arena.isLive b = false := by
  rw [h.flush.store.indexed.live, h.sourceOf_flush]
  rfl

/-- Of every record nothing is left but what it says of the region. -/
theorem block_flush (b : BlockId) :
    g.flush.code.arena.block b = (g.code.arena.block b).vacated := by
  obtain ⟨freed, hfreed⟩ := frees_foldl_clearWatch _ h h.nodup_used fun _ hx => hx
  have hcore : (g.flush.code.arena.block b).core = _ := hfreed.core b
  have hlive := h.isLive_flush b
  obtain ⟨hlinks, hring⟩ := h.flush.store.linked.clean b hlive
  have hempty := Descriptor.core_eq_vacated hlive (h.sourceOf_flush b)
  refine Descriptor.ext_core ?_ hlinks hring
  rw [Descriptor.core_vacated, ← Descriptor.vacated_core, hempty]
  rw [hempty] at hcore
  rw [← Descriptor.vacated_vacated, hcore]
  split
  · rfl
  · rfl

theorem arena_flush : g.flush.code.arena =
    { g.code.arena with pool := g.code.arena.pool.map Descriptor.vacated } := by
  obtain ⟨freed, hfreed⟩ := frees_foldl_clearWatch _ h h.nodup_used fun _ hx => hx
  apply Arena.ext_block
  · refine Eq.trans hfreed.outline ?_
    simp [Arena.outline, Arena.capacity]
  · exact counters_foldl_clearWatch g _
  · intro b
    rw [h.block_flush]
    unfold Arena.block
    rw [Array.getD_eq_getD_getElem?, Array.getD_eq_getD_getElem?, Array.getElem?_map]
    cases g.code.arena.pool[b.number]? with
    | none => rfl
    | some _ => rfl

end Coherent

def discarded (g : GuardedMemory) (delay : Nat) : GuardedMemory where
  code :=
    { arena := { g.code.arena with pool := g.code.arena.pool.map Descriptor.vacated }
      watches :=
        { pool := Array.replicate g.code.watches.capacity (.fresh 0 delay)
          free := g.code.watches.used.reverse ++ g.code.watches.free
          used := [] } }
  memory := g.memory.bare

/-- **Flushing discards everything, and nothing else.** -/
theorem Pooled.flush_eq {settings : Settings} {l : Limits} {g : GuardedMemory}
    (h : g.Pooled settings l) : g.flush = g.discarded settings.releaseDelay.toNat := by
  obtain ⟨log, hlog⟩ := h.flush.recorded
  have hordered := hlog.ordered
  have hused := h.coherent.used_flush
  have hcapacity : g.flush.code.watches.capacity = g.code.watches.capacity :=
    capacity_foldl_clearWatch g _
  have hpool : g.flush.code.watches.pool =
      Array.replicate g.code.watches.capacity (.fresh 0 settings.releaseDelay.toNat) := by
    apply Array.ext
    · rw [Array.size_replicate]
      exact hcapacity
    · intro i hi _
      have hmem := (hordered.pooled ⟨i⟩).mpr hi
      rw [hused, List.append_nil] at hmem
      have hidle := hordered.idle ⟨i⟩ hmem
      rw [Array.getElem_replicate, ← hidle, Watches.watch, Array.getD_eq_getD_getElem?,
        Array.getElem?_eq_getElem hi]
      rfl
  have hunbroken : g.flush.code.watches.broken = none := h.flush.coherent.store.indexed.unbroken
  have hwatches : g.flush.code.watches = (g.discarded settings.releaseDelay.toNat).code.watches := by
    rw [show g.flush.code.watches = ⟨g.flush.code.watches.pool, g.flush.code.watches.free,
      g.flush.code.watches.used, g.flush.code.watches.broken⟩ from rfl, hpool, hused, hunbroken]
    exact congrArg (fun free => Watches.mk _ free [] none) (free_foldl_clearWatch g _)
  rw [show g.flush = ⟨⟨g.flush.code.arena, g.flush.code.watches⟩, g.flush.memory⟩ from rfl,
    h.coherent.arena_flush, h.coherent.memory_flush, hwatches]
  rfl

end GuardedMemory

end Recompiler
