import Recompiler.Proofs.Guarded.Freed
import Recompiler.Proofs.Watch.Pool

/-!
# The pool of watches of a memory

Whatever is done to memory and compiled code, nothing happens to the pool but that
watches in use change, are put up and are taken down.  And where a page is to come
under a watch and none is free, the one that goes is the one that has been up
longest, with the blocks of its page and no others.
-/

namespace Recompiler

open Watches (Recorded)

/-! ## Compiled code -/

namespace CodeStore

/-- A watch that lists nothing may be exchanged for a fresh one. -/
theorem Indexed.frees_fresh {s : CodeStore} (h : s.Indexed) {id : WatchId}
    (hid : id.number < s.watches.capacity)
    (hnone : ∀ b src, s.arena.sourceOf b = some src → src.watch ≠ id) (page delay : Nat)
    (free used : List WatchId) (broken : Option Corruption) :
    s.Frees [] { s with
      watches := { s.watches.set id (.fresh page delay) with free, used, broken } } := by
  refine .of_lists fun x k => ?_
  show ((s.watches.set id _).watch x).buckets[k.val] = _
  rw [Watches.watch_set _ _ _ _ hid]
  split
  · next he =>
      subst he
      have hempty : (s.watches.watch id).buckets[k.val] = [] := by
        rw [List.eq_nil_iff_forall_not_mem]
        intro b hb
        obtain ⟨src, hs, hw, _⟩ := ((h.indexes id).listed k b).mp hb
        exact hnone b src hs hw
      rw [hempty]
      simp [Watch.fresh]
  · rfl

namespace Indexed

variable {settings : Settings} {s : CodeStore} (h : s.Indexed) (hr : s.watches.Recorded settings)

include h hr

theorem recorded_without (b : BlockId) : (s.without b).watches.Recorded settings := by
  unfold CodeStore.without
  cases hs : s.arena.sourceOf b with
  | none => exact hr
  | some src => exact hr.change (h.used b src hs) rfl rfl

theorem recorded_withoutAll (ids : List BlockId) :
    (s.withoutAll ids).watches.Recorded settings :=
  (withoutAll_induction (P := fun t => t.Indexed ∧ t.watches.Recorded settings)
    (fun _ b _ ht => ⟨ht.1.without b, ht.1.recorded_without ht.2 b⟩) ⟨h, hr⟩).2

theorem recorded_discard {s' : CodeStore} {b : BlockId} (hd : s.discard b = .ok s') :
    s'.watches.Recorded settings := by
  rcases h.filed.eq_or_without hd with rfl | ⟨_, rfl⟩
  · exact hr
  · exact h.recorded_without hr b

theorem recorded_evict {s' : CodeStore} {b : BlockId} (he : s.evict b = .ok s') :
    s'.watches.Recorded settings := by
  rcases of_evict_ok he with ⟨_, rfl⟩ | ⟨_, s₁, hd, rfl⟩
  · exact hr
  · show s₁.watches.Recorded settings
    exact h.recorded_discard hr hd

theorem recorded_openRegion {s' : CodeStore} {b : BlockId} (hs : s.Sound)
    (ho : s.openRegion = .ok (b, s')) : s'.watches.Recorded settings := by
  refine (openRegion_induction (P := fun t => t.Indexed ∧ t.watches.Recorded settings) ?_ ?_ ?_
    hs.arranged hs.linked ho ⟨h, hr⟩).2.2
  · exact fun _ _ he ht => ⟨ht.1.evict he, ht.1.recorded_evict ht.2 he⟩
  · exact fun _ _ hd ht => ⟨ht.1.recycle hd, ht.2⟩
  · intro t id size a _ _ _ hb ht
    refine ⟨ht.1.congr (fun c => ?_) fun c => ?_, ht.2⟩
    · rw [Arena.sourceOf, hb]
      exact Arena.field_modify _ id c Descriptor.source fun _ => rfl
    · rw [Arena.isLive, hb]
      exact Arena.isLive_resize ..

end Indexed

theorem Coherent.recorded_compile {settings : Settings} {l : Limits} {s s' : CodeStore}
    {watch : WatchId} {page : Vector UInt8 pageSize} {eip : UInt32} {b : BlockId}
    (h : s.Coherent l) (hr : s.watches.Recorded settings) (hw : watch ∈ s.watches.used)
    (hc : s.compile l watch page eip = .ok (b, s')) : s'.watches.Recorded settings := by
  obtain ⟨code, _, _, ho, _, _, rfl⟩ := of_compile_ok hc
  have hopen := h.indexed.recorded_openRegion hr h.toSound ho
  refine hopen.change ?_ rfl rfl
  rw [(sameUse_openRegion h.toSound ho).used]
  exact hw

end CodeStore

/-! ## Memory -/

namespace GuardedMemory

/-- Coherent memory whose pool has a history. -/
structure Pooled (settings : Settings) (l : Limits) (g : GuardedMemory) : Prop where
  coherent : g.Coherent l
  recorded : g.code.watches.Recorded settings

namespace Pooled

variable {settings : Settings} {l : Limits} {g : GuardedMemory} (h : g.Pooled settings l)

include h

theorem discard {code : CodeStore} {b : BlockId} (hd : g.code.discard b = .ok code) :
    ({ g with code } : GuardedMemory).Pooled settings l :=
  ⟨h.coherent.discard hd, h.coherent.store.indexed.recorded_discard h.recorded hd⟩

/-! ### Writes -/

theorem recorded_invalidate {id : WatchId} (hid : id ∈ g.code.watches.used) {first last : Offset}
    (hfl : first ≤ last) (running : Option BlockId) :
    (g.code.invalidate id first last running).2.2.watches.Recorded settings := by
  obtain ⟨ids, _, _, f, heq, _⟩ :=
    h.coherent.store.invalidate (h.coherent.lt_capacity hid) hfl running
  rw [heq]
  exact h.coherent.store.indexed.recorded_withoutAll h.recorded ids

theorem recorded_writeWatched {id : WatchId} (hid : id ∈ g.code.watches.used) (width : Width)
    (addr value : UInt32) (running : Option BlockId) :
    (g.writeWatched id width addr value running).2.code.watches.Recorded settings := by
  unfold GuardedMemory.writeWatched
  simp only
  split
  · have hnoted := h.coherent.noteChanges hid (offsetOf addr) (lastOf (offsetOf addr) width)
    have hr := h.recorded.change hid
      (w := (g.code.watches.watch id).noteChanges (offsetOf addr) (lastOf (offsetOf addr) width))
      rfl rfl
    exact (Pooled.mk hnoted hr).recorded_invalidate hid (le_lastOf ..) running
  · split
    · exact h.recorded
    · have hr : (g.code.watches.set id { g.code.watches.watch id with
          countdown := (g.code.watches.watch id).countdown - 1 }).Recorded settings :=
        h.recorded.change hid rfl rfl
      split
      · exact hr.release hid
      · exact hr

theorem writeWithin {width : Width} {addr : UInt32} (hc : crossesPage width addr = false)
    (value : UInt32) (running : Option BlockId) :
    (g.writeWithin width addr value running).2.Pooled settings l := by
  refine ⟨(h.coherent.writeWithin hc value running).coherent, ?_⟩
  unfold GuardedMemory.writeWithin
  simp only
  split
  · exact h.recorded
  · split
    · exact h.recorded
    · split
      · next id hid =>
          exact h.recorded_writeWatched ((h.coherent.mapped _ _).mp hid).1 width addr _ running
      · exact h.recorded

/-- **A write keeps the pool in order,** page by page where it crosses one. -/
theorem write (width : Width) (addr value : UInt32) (running : Option BlockId) :
    (g.write width addr value running).2.Pooled settings l := by
  unfold GuardedMemory.write
  split
  · exact List.foldlRecOn
      (motive := fun r : WriteResult × GuardedMemory => r.2.Pooled settings l)
      _ _ h fun r hr i _ => hr.writeWithin (crossesPage_byte _) _ running
  · next hc => exact h.writeWithin (eq_false_of_ne_true hc) value running

theorem invalidateRange (start stop : UInt32) (running : Option BlockId) :
    (g.invalidate start stop running).2.2.Pooled settings l := by
  unfold GuardedMemory.invalidate
  split
  · exact h
  · next hle =>
      refine List.foldlRecOn
        (motive := fun r : Nat × Bool × GuardedMemory => r.2.2.Pooled settings l)
        _ _ h fun r hr page _ => ?_
      simp only
      split
      · exact hr
      · next id hid =>
          have hfl : (if page = pageOf start then offsetOf start else 0) ≤
              if page = pageOf stop then offsetOf stop else Fin.last (pageSize - 1) := by
            split
            · next h1 =>
                split
                · next h2 => exact offsetOf_le hle (h1.symm.trans h2)
                · exact Fin.le_last _
            · exact Fin.zero_le _
          exact ⟨(hr.coherent.invalidate hid hfl (.refl _) running).coherent,
            hr.recorded_invalidate ((hr.coherent.mapped _ _).mp hid).1 hfl running⟩

omit h in
theorem run {α : Type} (p : BusProgram α) (h : g.Pooled settings l) :
    (g.run p).2.Pooled settings l := by
  induction p generalizing g with
  | done a => exact h
  | read addr next ih => exact ih (g.memory.read addr) h
  | write width addr value next ih => exact ih (h.write width addr value none)

/-! ### Watches -/

theorem clearWatch {id : WatchId} (hid : id ∈ g.code.watches.used) :
    (g.clearWatch id).Pooled settings l :=
  ⟨h.coherent.clearWatch hid,
    (h.recorded.change (w := (g.code.watches.watch id).drain) hid rfl rfl).release hid⟩

omit h in
theorem foldl_clearWatch (ids : List WatchId) {g : GuardedMemory} (h : g.Pooled settings l)
    (hnodup : ids.Nodup) (hids : ∀ id ∈ ids, id ∈ g.code.watches.used) :
    (ids.foldl GuardedMemory.clearWatch g).Pooled settings l := by
  induction ids generalizing g with
  | nil => exact h
  | cons id rest ih =>
      obtain ⟨hnot, hnodup⟩ := List.nodup_cons.mp hnodup
      refine ih (h.clearWatch (hids id List.mem_cons_self)) hnodup fun x hx => ?_
      have hne : x ≠ id := by
        rintro rfl
        exact hnot hx
      exact List.mem_filter.mpr ⟨hids x (List.mem_cons_of_mem _ hx), decide_eq_true hne⟩

theorem flush : g.flush.Pooled settings l :=
  foldl_clearWatch _ h (List.nodup_append.mp h.coherent.store.indexed.nodup).2.1 fun _ hx => hx

theorem recorded_watchPage {page : Nat} {watch : Option WatchId} {g' : GuardedMemory}
    (hw : g.watchPage page = .ok (watch, g')) : g'.code.watches.Recorded settings := by
  unfold GuardedMemory.watchPage at hw
  split at hw
  · cases hw
    exact h.recorded
  · split at hw
    · cases hw
      exact h.recorded
    · simp only at hw
      split at hw
      · next id rest hf =>
          cases hw
          exact h.recorded.install (hf ▸ List.mem_cons_self) page
      · split at hw
        · cases hw
        · next oldest rest hu =>
            have hclear := h.clearWatch (hu ▸ List.mem_cons_self : oldest ∈ g.code.watches.used)
            split at hw
            · next hf =>
                cases hw
                exact hclear.recorded.install (hf ▸ List.mem_cons_self) page
            · cases hw

theorem watchPage {page : Nat} (hpage : page < g.memory.pageCount)
    (hcode : g.memory.isNoCode page = false) {id : WatchId} {g' : GuardedMemory}
    (hw : g.watchPage page = .ok (some id, g')) : g'.Pooled settings l := by
  obtain ⟨_, _, hok, hwatched⟩ := h.coherent.watchPage hpage hcode
  cases hw.symm.trans hok
  exact ⟨hwatched.coherent, h.recorded_watchPage hw⟩

end Pooled

/-! ## Putting a page under a watch -/

/-- What comes of putting a page under a watch: blocks are freed only where no
watch is free, and then those of the page that has been under one longest. -/
structure PutsUp (settings : Settings) (g : GuardedMemory) (page : Nat) (id : WatchId)
    (freed : List BlockId) (g' : GuardedMemory) : Prop where
  watch : g'.memory.watch? page = some id
  frees : g.code.Frees freed g'.code
  spared : g.memory.watch? page ≠ none ∨ g.code.watches.free ≠ [] → freed = []
  oldest : g.memory.watch? page = none → g.code.watches.free = [] →
    ∃ oldest rest, g.code.watches.used = oldest :: rest ∧
      (∀ log, Watches.History settings log g.code.watches →
        ∀ other ∈ rest, Watches.Outlasts log oldest other) ∧
      freed.Nodup ∧ ∀ b, b ∈ freed ↔ g.code.arena.isLive b = true ∧
        ∃ src, g.code.arena.sourceOf b = some src ∧
          src.page = (g.code.watches.watch oldest).page

namespace Coherent

variable {l : Limits} {g : GuardedMemory} (h : g.Coherent l)

include h

/-- The blocks of a watch are those of its page. -/
theorem mem_blocks_iff_page {id : WatchId} (hid : id ∈ g.code.watches.used) {b : BlockId} :
    b ∈ (g.code.watches.watch id).blocks ↔ g.code.arena.isLive b = true ∧
      ∃ src, g.code.arena.sourceOf b = some src ∧
        src.page = (g.code.watches.watch id).page := by
  rw [h.mem_blocks_iff]
  constructor
  · rintro ⟨src, hs, rfl⟩
    exact ⟨h.store.isLive_of_source hs, src, hs, h.store.indexed.page b src hs⟩
  · rintro ⟨_, src, hs, hp⟩
    have hwatch := h.watch?_page hs
    rw [hp, (h.mapped _ id).mpr ⟨hid, rfl⟩, Option.some.injEq] at hwatch
    exact ⟨src, hs, hwatch.symm⟩

theorem frees_install {id : WatchId} (hid : id ∈ g.code.watches.free) (page : Nat) :
    g.code.Frees [] (g.installWatch id page).code :=
  h.store.indexed.frees_fresh ((h.store.indexed.pooled id).mp (List.mem_append_left _ hid))
    (fun _ _ hb => h.store.indexed.watch_ne_of_free hid hb) _ _ _ _ _

theorem frees_clearWatch {id : WatchId} (hid : id ∈ g.code.watches.used) :
    g.code.Frees (g.code.watches.watch id).blocks (g.clearWatch id).code := by
  have hT : ∀ b ∈ (g.code.watches.watch id).blocks, b.isTrampoline = false := fun b hb => by
    obtain ⟨src, hs, _⟩ := h.mem_blocks_iff.mp hb
    exact h.store.not_trampoline hs
  set bare := g.code.withoutAll (g.code.watches.watch id).blocks with hbare
  have hlt : id.number < bare.watches.capacity := by
    rw [hbare, (CodeStore.sameUse_withoutAll ..).capacity]
    exact h.lt_capacity hid
  have hrelease : bare.Frees [] { bare with watches := bare.watches.release id } :=
    (h.store.withoutAll hT).indexed.frees_fresh hlt (fun _ _ hb => h.watch_ne_of_withoutAll hb)
      _ _ _ _ _
  have hall := (h.store.frees_withoutAll hT).append hrelease
  rw [List.append_nil] at hall
  rw [h.clearWatch_eq hid]
  exact hall

/-- **A page that may hold code comes under a watch,** also where none is free:
then the one that was put up first goes, and the blocks of its page with it. -/
theorem putsUp_watchPage {settings : Settings} {page : Nat} (hpage : page < g.memory.pageCount)
    (hcode : g.memory.isNoCode page = false) :
    ∃ id freed g', g.watchPage page = .ok (some id, g') ∧ PutsUp settings g page id freed g' := by
  obtain ⟨id, g', hok, hwatched⟩ := h.watchPage hpage hcode
  have hputs := hok
  unfold GuardedMemory.watchPage at hputs
  split at hputs
  · next hw =>
      cases hputs
      exact ⟨_, [], _, hok, hwatched.watch, .refl _, fun _ => rfl, fun hnone => by
        rw [hw] at hnone
        cases hnone⟩
  · next hw =>
      rw [if_neg (by rw [hcode]; simpa using hpage)] at hputs
      simp only at hputs
      split at hputs
      · next rest hf =>
          cases hputs
          refine ⟨_, [], _, hok, hwatched.watch, h.frees_install (hf ▸ List.mem_cons_self) page,
            fun _ => rfl, fun _ hnone => ?_⟩
          rw [hf] at hnone
          cases hnone
      · next hf =>
          split at hputs
          · cases hputs
          · next oldest rest hu =>
              have hused : oldest ∈ g.code.watches.used := hu ▸ List.mem_cons_self
              split at hputs
              · next hf' =>
                  cases hputs
                  have hid : id ∈ (g.clearWatch oldest).code.watches.free :=
                    hf' ▸ List.mem_cons_self
                  have hfrees := (h.frees_clearWatch hused).append
                    ((h.clearWatch hused).frees_install hid page)
                  rw [List.append_nil] at hfrees
                  refine ⟨_, _, _, hok, hwatched.watch, hfrees, fun hsome => ?_, fun _ _ => ?_⟩
                  · exact absurd hsome (not_or.mpr ⟨not_not.mpr hw, not_not.mpr hf⟩)
                  · refine ⟨oldest, rest, hu, fun log hlog => ?_,
                      (h.store.indexed.indexes oldest).nodup_blocks,
                      fun b => h.mem_blocks_iff_page hused⟩
                    have hold := hlog.ordered.oldest
                    rw [hu] at hold
                    exact (List.pairwise_cons.mp hold).1
              · cases hputs

end Coherent

end GuardedMemory

end Recompiler
