import Recompiler.Proofs.Emulator.Freed
import Recompiler.Proofs.Emulator.PageIndex
import Recompiler.Proofs.Guarded.Range

/-!
# Invalidating a range is filtering all blocks

A range is gone through page by page, the watch of a page bucket by bucket, and a
search stops early by its counts.  All of that comes to testing every block that is
listed anywhere; and where no block reaches a range, invalidating it does nothing.
-/

namespace Recompiler

namespace CodeStore

/-! ## Where no block is met -/

/-- A bucket none of whose blocks is met is left as it is. -/
theorem bucket_eq_self {w : Sweep} {first last : Offset} {k : Bucket}
    (h : hits w first last k = []) (running : Option BlockId) :
    w.bucket first last running k = w := by
  unfold Sweep.bucket
  exact if_pos (List.isEmpty_iff.mpr h)

theorem below_eq_self {w : Sweep} {first last : Offset}
    (h : ∀ k, hits w first last k = []) (running : Option BlockId) (n : Nat) :
    Sweep.below first last running n w = w := by
  induction n with
  | zero => rfl
  | succ n ih =>
      unfold Sweep.below
      split
      · rfl
      · split
        · rw [bucket_eq_self (h _), ih]
        · exact ih

/-- **A watch none of whose blocks is met is left as it is.** -/
theorem Indexed.invalidate_eq_self {s : CodeStore} (h : s.Indexed) {id : WatchId}
    {first last : Offset}
    (hnone : ∀ b src, s.arena.sourceOf b = some src → src.watch = id →
      src.overlaps first last = false) (running : Option BlockId) :
    s.invalidate id first last running = (0, false, s) := by
  have hhits : ∀ k, hits ⟨s.watches.watch id, s.arena, 0, false⟩ first last k = [] := by
    intro k
    rw [hits, List.filter_eq_nil_iff]
    intro b hb
    obtain ⟨src, hs, hw, _⟩ := ((h.indexes id).listed k b).mp hb
    rw [hs, Option.any_some, hnone b src hs hw]
    exact Bool.false_ne_true
  unfold CodeStore.invalidate Watch.invalidate
  simp only [below_eq_self hhits, Watches.set_watch]
  rfl

end CodeStore

namespace GuardedMemory

namespace Coherent

variable {l : Limits} {g : GuardedMemory} (h : g.Coherent l) {start stop : UInt32}
  (hnone : ∀ b src, g.code.arena.sourceOf b = some src → ¬src.reaches start stop)

include h hnone

theorem sweepPage_eq_self (hle : ¬stop < start) (running : Option BlockId) {page : Nat}
    (h1 : pageOf start ≤ page) (h2 : page ≤ pageOf stop) :
    sweepPage start stop running (0, false, g) page = (0, false, g) := by
  unfold sweepPage
  cases hw : g.memory.watch? page with
  | none => rfl
  | some id =>
      have hmiss : ∀ b src, g.code.arena.sourceOf b = some src → src.watch = id →
          src.overlaps (firstIn start page) (lastIn stop page) = false := by
        intro b src hs hwatch
        by_contra ho
        rw [Bool.not_eq_false] at ho
        have hreach := (h.watch_and_overlaps_iff hle h1 h2 hw hs).mp ⟨hwatch, ho⟩
        exact hnone b src hs hreach.1
      have hself := h.store.indexed.invalidate_eq_self hmiss running
      simp only [hself]
      rfl

/-- **A range that no block reaches is left as it is.** -/
theorem invalidate_eq_self (running : Option BlockId) :
    g.invalidate start stop running = (0, false, g) := by
  by_cases hle : stop < start
  · unfold GuardedMemory.invalidate
    rw [if_pos hle]
  · rw [g.invalidate_eq_sweep hle]
    have hsweep : ∀ n, n ≤ pageOf stop + 1 - pageOf start →
        g.sweep start stop running n = (0, false, g) := by
      intro n hn
      induction n with
      | zero => rfl
      | succ n ih =>
          rw [sweep_succ, ih (Nat.le_of_succ_le hn)]
          exact sweepPage_eq_self h hnone hle running (Nat.le_add_right ..) (by omega)
    exact hsweep _ (by omega)

end Coherent

end GuardedMemory

namespace CodeStore.Frees

/-- Which blocks were freed is a matter of membership. -/
theorem of_mem_iff {s s' : CodeStore} {ids ids' : List BlockId} (h : s.Frees ids s')
    (hids : ∀ b, b ∈ ids ↔ b ∈ ids') : s.Frees ids' s' := by
  constructor
  case outline => exact h.outline
  case core => simpa only [hids] using h.core
  case link => simpa only [hids] using h.link
  case listed => simpa only [hids] using h.listed

end CodeStore.Frees

namespace Emulator

/-- Of all blocks listed those that have an address in a range, each tested by
itself. -/
def overlapping (e : Emulator) (start stop : UInt32) : List BlockId :=
  e.listed.filter fun b =>
    (e.arena.sourceOf b).any fun src => src.start ≤ stop && start ≤ src.stop

/-- What the invalidation of a range answered, and left. -/
structure Invalidates (e : Emulator) (start stop : UInt32) (running : Option BlockId)
    (r : Nat × Bool × GuardedMemory) : Prop where
  /-- The test picks the compiled blocks that start in front of the end of the range
  and end behind its start. -/
  tested : ∀ b, b ∈ e.overlapping start stop ↔ e.arena.isLive b = true ∧
    ∃ src, e.arena.sourceOf b = some src ∧ src.start ≤ stop ∧ start ≤ src.stop
  count : r.1 = (e.overlapping start stop).length
  hit : r.2.1 = true ↔ ∃ b ∈ e.overlapping start stop, running = some b
  /-- These blocks are freed, and no others. -/
  frees : e.guarded.code.Frees (e.overlapping start stop) r.2.2.code
  /-- Lists and counts of every page are those of the blocks that are left. -/
  index : PageIndex { e with guarded := r.2.2 }
  /-- Done again, for whatever block, it changes nothing. -/
  again : ∀ running, r.2.2.invalidate start stop running = (0, false, r.2.2)

section Range

variable {e : Emulator} (h : e.Coherent) {start stop : UInt32}

include h

theorem Coherent.mem_overlapping_iff {b : BlockId} :
    b ∈ e.overlapping start stop ↔
      ∃ src, e.arena.sourceOf b = some src ∧ src.start ≤ stop ∧ start ≤ src.stop := by
  rw [overlapping, List.mem_filter, h.mem_listed_iff]
  constructor
  · rintro ⟨_, htest⟩
    obtain ⟨src, hs, htest⟩ := Option.any_eq_true .. |>.mp htest
    rw [Bool.and_eq_true, decide_eq_true_iff, decide_eq_true_iff] at htest
    exact ⟨src, hs, htest⟩
  · rintro ⟨src, hs, h1, h2⟩
    refine ⟨h.isLive_of_source hs, ?_⟩
    rw [hs, Option.any_some, Bool.and_eq_true, decide_eq_true_iff, decide_eq_true_iff]
    exact ⟨h1, h2⟩

theorem Coherent.invalidates (hle : start ≤ stop) (running : Option BlockId) :
    e.Invalidates start stop running (e.guarded.invalidate start stop running) := by
  obtain ⟨freed, hnodup, hmet, hcount, hhit, hfrees⟩ :=
    h.guarded.frees_invalidateRange start stop running
  have hkept := (h.guarded.invalidateRange start stop running).coherent
  have hmem : ∀ b, b ∈ freed ↔ b ∈ e.overlapping start stop := by
    intro b
    rw [hmet, h.mem_overlapping_iff]
    exact exists_congr fun src => and_congr_right fun _ => and_iff_right hle
  have hperm : freed.Perm (e.overlapping start stop) :=
    (List.perm_ext_iff_of_nodup hnodup (h.nodup_listed.filter _)).mpr hmem
  constructor
  case tested =>
    intro b
    rw [h.mem_overlapping_iff]
    constructor
    · rintro ⟨src, hs, htest⟩
      exact ⟨h.isLive_of_source hs, src, hs, htest⟩
    · exact And.right
  case count => exact hcount.trans hperm.length_eq
  case hit =>
    rw [hhit, List.any_eq_true]
    exact exists_congr fun b => and_congr (hmem b) decide_eq_true_iff
  case frees => exact hfrees.of_mem_iff hmem
  case index => exact (h.setGuarded hkept).pageIndex
  case again =>
    apply hkept.invalidate_eq_self
    intro b src hs hreach
    rw [hfrees.sourceOf] at hs
    split at hs
    · cases hs
    · next hb => exact hb ((hmet b).mpr ⟨src, hs, hreach⟩)

end Range

/-- **Invalidating a range frees what a test of every listed block picks.**  Whatever
was done before, and however many pages the range has: exactly the compiled blocks go
that have an address in it; it answers with their number, and whether the running one
is among them; the lists and counts of every page are those of the blocks that are
left; and done again it changes nothing. -/
theorem invalidates_of_visited {e : Emulator} (h : Visited e) {start stop : UInt32}
    (hle : start ≤ stop) (running : Option BlockId) :
    e.Invalidates start stop running (e.guarded.invalidate start stop running) :=
  h.coherent.invalidates hle running

/-- A range to the end of the address space meets the running block, which starts in
a bucket in front of it; another block is not met. -/
theorem invalidates_of_long_range :
    ∃ e, Visited e ∧ e.listed = [⟨3⟩, ⟨2⟩] ∧ e.overlapping 64 0xFFFFFFFF = [⟨2⟩] ∧
      (e.arena.sourceOf ⟨2⟩).map (·.buckets.1.val) = some 2 ∧
      (64 : UInt32) ≤ 0xFFFFFFFF ∧
      e.Invalidates 64 0xFFFFFFFF (some ⟨2⟩) (e.guarded.invalidate 64 0xFFFFFFFF (some ⟨2⟩)) := by
  obtain ⟨e, he, htest⟩ := exists_of_succeeds
    (p := fun e => e.listed = [⟨3⟩, ⟨2⟩] ∧ e.overlapping 64 0xFFFFFFFF = [⟨2⟩] ∧
      (e.arena.sourceOf ⟨2⟩).map (·.buckets.1.val) = some 2)
    (x := zeroed.performAll [.load 40 (List.replicate 30 0x90), .fetch 40, .fetch 0])
    (by decide +kernel)
  obtain ⟨hlisted, hoverlapping, hbucket⟩ := of_decide_eq_true htest
  have h : Reached (fun _ => True) e :=
    .performAll (fun _ _ => trivial) (.new unwatched_zeroed new_zeroed) he
  have hle : (64 : UInt32) ≤ 0xFFFFFFFF := by decide
  exact ⟨e, h.visited, hlisted, hoverlapping, hbucket, hle,
    invalidates_of_visited h.visited hle (some ⟨2⟩)⟩

end Emulator

end Recompiler
