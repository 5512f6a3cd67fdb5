import Recompiler.Proofs.Guarded.Memory
import Recompiler.Proofs.Store.Compile

/-!
# Memory that agrees with the code compiled from it

Every page under a watch is the page that watch is in use for, and is marked so;
every block was compiled from bytes that memory still holds.  Putting up and taking down
watches keeps that.
-/

namespace Recompiler

namespace Watches

/-- A watch given back to those that are free. -/
def retire (ws : Watches) (id : WatchId) : Watches :=
  { ws.set id (.fresh 0 (ws.watch id).delay) with
    free := id :: ws.free, used := ws.used.filter (· ≠ id) }

theorem release_of_idle {ws : Watches} {id : WatchId} (h : (ws.watch id).active = 0) :
    ws.release id = ws.retire id := by
  rw [release, if_pos h]
  rfl

theorem retire_set (ws : Watches) {id : WatchId} (hid : id.number < ws.capacity) {w : Watch}
    (hw : w.delay = (ws.watch id).delay) : (ws.set id w).retire id = ws.retire id := by
  have hwatch := ws.watch_set id id w hid
  rw [if_pos rfl] at hwatch
  simp only [retire, hwatch, hw, set_set]
  rfl

end Watches

namespace CodeStore

theorem arena_withoutAll (s : CodeStore) (ids : List BlockId) :
    (s.withoutAll ids).arena = ids.foldl Arena.vacate s.arena := by
  induction ids generalizing s with
  | nil => rfl
  | cons id rest ih => exact ih (s.without id)

/-- Taking a watch down forgets what it listed. -/
theorem retire_without {s : CodeStore} {id : WatchId} (hid : id.number < s.watches.capacity)
    {b : BlockId} (hb : ∀ src, s.arena.sourceOf b = some src → src.watch = id) :
    (s.without b).watches.retire id = s.watches.retire id := by
  unfold without
  cases hs : s.arena.sourceOf b with
  | none => rfl
  | some src =>
      obtain rfl := hb src hs
      exact Watches.retire_set _ hid rfl

theorem retire_withoutAll {s : CodeStore} {id : WatchId} (hid : id.number < s.watches.capacity)
    (ids : List BlockId)
    (hids : ∀ b ∈ ids, ∀ src, s.arena.sourceOf b = some src → src.watch = id) :
    (s.withoutAll ids).watches.retire id = s.watches.retire id := by
  induction ids generalizing s with
  | nil => rfl
  | cons b rest ih =>
      rw [withoutAll_cons, ih, retire_without hid fun src hs => hids b List.mem_cons_self src hs]
      · rw [(sameUse_without s b).capacity]
        exact hid
      · intro x hx src hs
        rw [show (s.without b).arena.sourceOf x = _ from Arena.sourceOf_vacate .., Watch.setSource]
          at hs
        split at hs
        · cases hs
        · exact hids x (List.mem_cons_of_mem _ hx) src hs

end CodeStore

namespace GuardedMemory

/-- Clearing a watch frees what it lists and gives it back. -/
theorem clearWatch_of_lt {g : GuardedMemory} {id : WatchId}
    (hid : id.number < g.code.watches.capacity) :
    g.clearWatch id =
      { code := {
          arena := (g.code.watches.watch id).blocks.foldl Arena.vacate g.code.arena
          watches := g.code.watches.retire id }
        memory := g.memory.setWatch (g.code.watches.watch id).page none } := by
  have hdrained := g.code.watches.watch_set id id (g.code.watches.watch id).drain hid
  rw [if_pos rfl] at hdrained
  have hretired : (g.code.watches.set id (g.code.watches.watch id).drain).release id =
      g.code.watches.retire id := by
    rw [Watches.release_of_idle (by rw [hdrained]; rfl)]
    exact Watches.retire_set _ hid rfl
  unfold clearWatch releaseWatch
  simp only [hretired, hdrained]
  rfl

/-- Compiled code is the translation of what memory holds. -/
structure Coherent (l : Limits) (g : GuardedMemory) : Prop where
  store : g.code.Coherent l
  mapped : ∀ page id, g.memory.watch? page = some id ↔
    id ∈ g.code.watches.used ∧ (g.code.watches.watch id).page = page
  permitted : ∀ page id, g.memory.watch? page = some id → g.memory.isNoCode page = false
  /-- Pages under a watch are marked so. -/
  marked : ∀ page, g.memory.hasCode page = (g.memory.watch? page).isSome
  /-- Source bytes are what they were. -/
  current : ∀ b src, g.code.arena.sourceOf b = some src →
    ∃ page, g.memory.bytes? src.page = some page ∧
      bytesBetween page src.first src.last = src.bytes

namespace Coherent

variable {l : Limits} {g : GuardedMemory} (h : g.Coherent l)

include h

theorem lt_capacity {id : WatchId} (hid : id ∈ g.code.watches.used) :
    id.number < g.code.watches.capacity :=
  (h.store.indexed.pooled id).mp (List.mem_append_right _ hid)

theorem watch?_page {b : BlockId} {src : Source} (hb : g.code.arena.sourceOf b = some src) :
    g.memory.watch? src.page = some src.watch :=
  (h.mapped _ _).mpr
    ⟨h.store.indexed.used b src hb, (h.store.indexed.page b src hb).symm⟩

/-- The blocks of the watch of a page are those compiled from the page. -/
theorem watch_eq_iff {page : Nat} {id : WatchId} (hid : g.memory.watch? page = some id)
    {b : BlockId} {src : Source} (hb : g.code.arena.sourceOf b = some src) :
    src.watch = id ↔ src.page = page := by
  constructor
  · rintro rfl
    rw [h.store.indexed.page b src hb]
    exact ((h.mapped _ _).mp hid).2
  · rintro rfl
    exact Option.some.inj ((h.watch?_page hb).symm.trans hid)

/-- Blocks may go, and bytes may change that none of those left was compiled
from. -/
theorem of_kept {g' : GuardedMemory} (hs : g'.code.Coherent l)
    (hu : g.code.watches.SameUse g'.code.watches) (hm : g.memory.SameMarks g'.memory)
    (hsource : ∀ b src, g'.code.arena.sourceOf b = some src →
      g.code.arena.sourceOf b = some src ∧
        ∀ page, g.memory.bytes? src.page = some page →
          ∃ page', g'.memory.bytes? src.page = some page' ∧
            bytesBetween page' src.first src.last = bytesBetween page src.first src.last) :
    g'.Coherent l := by
  refine ⟨hs, fun page id => ?_, fun page id hw => ?_, fun page => ?_, fun b src hb => ?_⟩
  · rw [hm.watch, hu.used, hu.page]
    exact h.mapped page id
  · rw [hm.watch] at hw
    rw [hm.noCode]
    exact h.permitted page id hw
  · rw [hm.hasCode, hm.watch]
    exact h.marked page
  · obtain ⟨hold, hbytes⟩ := hsource b src hb
    obtain ⟨page, hp, heq⟩ := h.current b src hold
    obtain ⟨page', hp', heq'⟩ := hbytes page hp
    exact ⟨page', hp', heq'.trans heq⟩

theorem of_code {code : CodeStore} (hs : code.Coherent l)
    (hu : g.code.watches.SameUse code.watches)
    (hsource : ∀ b src, code.arena.sourceOf b = some src → g.code.arena.sourceOf b = some src) :
    ({ g with code } : GuardedMemory).Coherent l :=
  h.of_kept hs hu (.refl _) fun b src hb =>
    ⟨hsource b src hb, fun page hp => ⟨page, hp, rfl⟩⟩

theorem withoutAll (ids : List BlockId) (hids : ∀ id ∈ ids, id.isTrampoline = false) :
    ({ g with code := g.code.withoutAll ids } : GuardedMemory).Coherent l := by
  refine h.of_code (h.store.withoutAll hids) (CodeStore.sameUse_withoutAll ..) fun b src hb => ?_
  rw [CodeStore.sourceOf_withoutAll] at hb
  split at hb
  · cases hb
  · exact hb

theorem count (f : Counters → Counters) :
    ({ g with code := g.code.count f } : GuardedMemory).Coherent l :=
  h.of_code (h.store.count f) (.refl _) fun _ _ hb => hb

theorem discard {code : CodeStore} {id : BlockId} (hd : g.code.discard id = .ok code) :
    ({ g with code } : GuardedMemory).Coherent l := by
  rcases h.store.indexed.filed.eq_or_without hd with rfl | ⟨hid, rfl⟩
  · exact h
  · refine h.withoutAll [id] fun b hb => ?_
    rw [List.mem_singleton] at hb
    rw [hb, hid]

theorem of_alike {a : Arena} (ha : g.code.arena.Alike a) (hl : a.Linked) :
    ({ g with code := { g.code with arena := a } } : GuardedMemory).Coherent l := by
  refine h.of_code (h.store.of_alike ha hl) (.refl _) fun b src hb => ?_
  rw [Arena.sourceOf_eq_of_core (ha.core b)]
  exact hb

theorem link {a : Arena} {source target : BlockId} {slot : Slot}
    (hl : g.code.arena.link source slot target = .ok a) :
    ({ g with code := { g.code with arena := a } } : GuardedMemory).Coherent l :=
  h.of_alike (.link hl) (h.store.linked.link hl)

theorem marked_setWatch (page : Nat) (w : Option WatchId) (n : Nat) :
    (g.memory.setWatch page w).hasCode n = ((g.memory.setWatch page w).watch? n).isSome := by
  rw [Memory.hasCode_setWatch, Memory.watch?_setWatch]
  split
  · rfl
  · exact h.marked n

/-! ## Taking watches down -/

theorem release {id : WatchId} (hid : id ∈ g.code.watches.used)
    (hnone : ∀ b src, g.code.arena.sourceOf b = some src → src.watch ≠ id) :
    (g.releaseWatch id).Coherent l := by
  have hlt := h.lt_capacity hid
  have hindexed := h.store.indexed.release hid hnone
  have hself := (h.mapped _ id).mpr ⟨hid, rfl⟩
  refine ⟨h.store.setWatches hindexed (Watches.capacity_set ..), fun page x => ?_,
    fun page x hw => ?_, h.marked_setWatch _ none, fun b src hb => ?_⟩
  · show (g.memory.setWatch _ none).watch? page = some x ↔
      x ∈ g.code.watches.used.filter (· ≠ id) ∧
        ((g.code.watches.set id (.fresh 0 _)).watch x).page = page
    rw [Memory.watch?_setWatch, g.code.watches.watch_set _ _ _ hlt, List.mem_filter,
      decide_eq_true_iff]
    by_cases hpage : (g.code.watches.watch id).page = page
    · rw [if_pos ⟨hpage, hpage ▸ Memory.lt_pageCount_of_watch? hself⟩]
      refine ⟨nofun, ?_⟩
      rintro ⟨⟨hx, hne⟩, hxp⟩
      rw [if_neg (Ne.symm hne)] at hxp
      have := (h.mapped page x).mpr ⟨hx, hxp⟩
      rw [← hpage, hself, Option.some.injEq] at this
      exact absurd this.symm hne
    · rw [if_neg fun hp => hpage hp.1, h.mapped]
      constructor
      · rintro ⟨hx, hxp⟩
        have hne : x ≠ id := by
          rintro rfl
          exact hpage hxp
        rw [if_neg (Ne.symm hne)]
        exact ⟨⟨hx, hne⟩, hxp⟩
      · rintro ⟨⟨hx, hne⟩, hxp⟩
        rw [if_neg (Ne.symm hne)] at hxp
        exact ⟨hx, hxp⟩
  · have hw : (g.memory.setWatch _ none).watch? page = some x := hw
    rw [Memory.watch?_setWatch] at hw
    split at hw
    · cases hw
    · show (g.memory.setWatch _ none).isNoCode page = false
      rw [Memory.isNoCode_setWatch]
      exact h.permitted page x hw
  · show ∃ page, (g.memory.setWatch _ none).bytes? src.page = some page ∧ _
    rw [Memory.bytes?_setWatch]
    exact h.current b src hb

theorem mem_blocks_iff {id : WatchId} {b : BlockId} :
    b ∈ (g.code.watches.watch id).blocks ↔
      ∃ src, g.code.arena.sourceOf b = some src ∧ src.watch = id :=
  (h.store.indexed.indexes id).mem_blocks_iff

theorem watch_ne_of_withoutAll {id : WatchId} {b : BlockId} {src : Source}
    (hb : (g.code.withoutAll (g.code.watches.watch id).blocks).arena.sourceOf b = some src) :
    src.watch ≠ id := by
  intro hw
  rw [CodeStore.sourceOf_withoutAll] at hb
  split at hb
  · cases hb
  · next hn => exact hn (h.mem_blocks_iff.mpr ⟨src, hb, hw⟩)

theorem withoutBlocks (id : WatchId) :
    ({ g with code := g.code.withoutAll (g.code.watches.watch id).blocks } :
      GuardedMemory).Coherent l := by
  refine h.withoutAll _ fun b hb => ?_
  obtain ⟨src, hs, _⟩ := h.mem_blocks_iff.mp hb
  exact h.store.not_trampoline hs

/-- Clearing a watch is tearing down what it indexes, and releasing it. -/
theorem clearWatch_eq {id : WatchId} (hid : id ∈ g.code.watches.used) :
    g.clearWatch id = ({ g with
      code := g.code.withoutAll (g.code.watches.watch id).blocks } : GuardedMemory).releaseWatch
        id := by
  have hlt := h.lt_capacity hid
  have hrelease : (g.code.withoutAll (g.code.watches.watch id).blocks).watches.release id =
      g.code.watches.retire id := by
    rw [Watches.release_of_idle ((h.withoutBlocks id).store.indexed.active_eq_zero
      fun b src hb => h.watch_ne_of_withoutAll hb)]
    refine CodeStore.retire_withoutAll hlt _ fun b hb src hs => ?_
    obtain ⟨src', hs', hw⟩ := h.mem_blocks_iff.mp hb
    rw [hs, Option.some.injEq] at hs'
    exact hs' ▸ hw
  have huse := CodeStore.sameUse_withoutAll g.code (g.code.watches.watch id).blocks
  rw [clearWatch_of_lt hlt, releaseWatch, hrelease, huse.page, ← CodeStore.arena_withoutAll]

theorem clearWatch {id : WatchId} (hid : id ∈ g.code.watches.used) :
    (g.clearWatch id).Coherent l := by
  rw [h.clearWatch_eq hid]
  refine (h.withoutBlocks id).release ?_ fun b src hb => h.watch_ne_of_withoutAll hb
  rw [(CodeStore.sameUse_withoutAll ..).used]
  exact hid

theorem shrinks_clearWatch {id : WatchId} (hid : id ∈ g.code.watches.used) :
    g.code.arena.Shrinks (g.clearWatch id).code.arena := by
  rw [h.clearWatch_eq hid]
  refine h.store.shrinks_withoutAll fun b hb => ?_
  obtain ⟨src, hs, _⟩ := h.mem_blocks_iff.mp hb
  exact h.store.not_trampoline hs

omit h in
theorem foldl_clearWatch (ids : List WatchId) {g : GuardedMemory} (h : g.Coherent l)
    (hnodup : ids.Nodup) (hids : ∀ id ∈ ids, id ∈ g.code.watches.used) :
    (ids.foldl GuardedMemory.clearWatch g).Coherent l ∧
      g.code.arena.Shrinks (ids.foldl GuardedMemory.clearWatch g).code.arena := by
  induction ids generalizing g with
  | nil => exact ⟨h, .refl _⟩
  | cons id rest ih =>
      obtain ⟨hnot, hnodup⟩ := List.nodup_cons.mp hnodup
      have hid := hids id List.mem_cons_self
      obtain ⟨hcoherent, hshrinks⟩ := ih (h.clearWatch hid) hnodup fun x hx => by
        show x ∈ g.code.watches.used.filter (· ≠ id)
        refine List.mem_filter.mpr ⟨hids x (List.mem_cons_of_mem _ hx), decide_eq_true ?_⟩
        rintro rfl
        exact hnot hx
      exact ⟨hcoherent, (h.shrinks_clearWatch hid).trans hshrinks⟩

theorem flush : g.flush.Coherent l :=
  (foldl_clearWatch _ h (List.nodup_append.mp h.store.indexed.nodup).2.1 fun _ hx => hx).1

theorem shrinks_flush : g.code.arena.Shrinks g.flush.code.arena :=
  (foldl_clearWatch _ h (List.nodup_append.mp h.store.indexed.nodup).2.1 fun _ hx => hx).2

/-! ## Putting watches up -/

theorem install {id : WatchId} (hid : id ∈ g.code.watches.free) {page : Nat}
    (hpage : page < g.memory.pageCount) (hcode : g.memory.isNoCode page = false)
    (hnone : g.memory.watch? page = none) : (g.installWatch id page).Coherent l := by
  have hlt : id.number < g.code.watches.capacity :=
    (h.store.indexed.pooled id).mp (List.mem_append_left _ hid)
  have hindexed := h.store.indexed.install hid page
  have hunused : id ∉ g.code.watches.used := fun hu =>
    List.disjoint_of_nodup_append h.store.indexed.nodup hid hu
  refine ⟨h.store.setWatches hindexed (Watches.capacity_set ..), fun n x => ?_,
    fun n x hw => ?_, h.marked_setWatch page (some id), fun b src hb => ?_⟩
  · show (g.memory.setWatch page (some id)).watch? n = some x ↔
      x ∈ g.code.watches.used ++ [id] ∧
        ((g.code.watches.set id (.fresh page _)).watch x).page = n
    rw [Memory.watch?_setWatch, g.code.watches.watch_set _ _ _ hlt, List.mem_append,
      List.mem_singleton]
    by_cases hn : page = n
    · rw [if_pos ⟨hn, hn ▸ hpage⟩]
      constructor
      · intro hx
        cases hx
        exact ⟨Or.inr rfl, by rw [if_pos rfl]; exact hn⟩
      · rintro ⟨hx, hxp⟩
        by_cases hxid : id = x
        · rw [hxid]
        · rw [if_neg hxid] at hxp
          rcases hx with hx | hx
          · rw [hn, (h.mapped n x).mpr ⟨hx, hxp⟩] at hnone
            cases hnone
          · exact absurd hx.symm hxid
    · rw [if_neg fun hp => hn hp.1, h.mapped]
      constructor
      · rintro ⟨hx, hxp⟩
        have hne : id ≠ x := by
          rintro rfl
          exact hunused hx
        rw [if_neg hne]
        exact ⟨Or.inl hx, hxp⟩
      · rintro ⟨hx, hxp⟩
        split at hxp
        · exact absurd hxp hn
        · next hne => exact ⟨hx.resolve_right fun he => hne he.symm, hxp⟩
  · have hw : (g.memory.setWatch page (some id)).watch? n = some x := hw
    show (g.memory.setWatch page (some id)).isNoCode n = false
    rw [Memory.isNoCode_setWatch]
    rw [Memory.watch?_setWatch] at hw
    split at hw
    · next hn =>
        rw [← hn.1]
        exact hcode
    · exact h.permitted n x hw
  · show ∃ p, (g.memory.setWatch page (some id)).bytes? src.page = some p ∧ _
    rw [Memory.bytes?_setWatch]
    exact h.current b src hb

omit h in
theorem bare_clearWatch (g : GuardedMemory) (id : WatchId) :
    (g.clearWatch id).memory.bare = g.memory.bare :=
  Memory.bare_setWatch ..

theorem exists_used (hf : g.code.watches.free = []) :
    ∃ oldest rest, g.code.watches.used = oldest :: rest := by
  have := (h.store.indexed.pooled ⟨0⟩).mpr h.store.pool
  rw [hf, List.nil_append] at this
  exact List.exists_cons_of_ne_nil (List.ne_nil_of_mem this)

/-- The watch of a page once there is one.  Where there was one nothing has
changed; a watch put up just now indexes nothing. -/
structure Watched (l : Limits) (g : GuardedMemory) (page : Nat) (id : WatchId)
    (g' : GuardedMemory) : Prop where
  coherent : g'.Coherent l
  shrinks : g.code.arena.Shrinks g'.code.arena
  bare : g'.memory.bare = g.memory.bare
  capacity : g'.code.arena.capacity = g.code.arena.capacity
  watch : g'.memory.watch? page = some id
  unchanged : g.memory.watch? page = some id ∧ g' = g ∨
    g.memory.watch? page = none ∧
      ∀ b src, g'.code.arena.sourceOf b = some src → src.watch ≠ id

theorem watched_install {id : WatchId} (hid : id ∈ g.code.watches.free) {page : Nat}
    (hpage : page < g.memory.pageCount) (hcode : g.memory.isNoCode page = false)
    (hnone : g.memory.watch? page = none) : Watched l g page id (g.installWatch id page) := by
  refine ⟨h.install hid hpage hcode hnone, .refl _, Memory.bare_setWatch .., rfl, ?_,
    Or.inr ⟨hnone, fun b src hb => h.store.indexed.watch_ne_of_free hid hb⟩⟩
  show (g.memory.setWatch page (some id)).watch? page = some id
  rw [Memory.watch?_setWatch, if_pos ⟨rfl, hpage⟩]

/-- **A page that may hold code can be put under a watch.** -/
theorem watchPage {page : Nat} (hpage : page < g.memory.pageCount)
    (hcode : g.memory.isNoCode page = false) :
    ∃ id g', g.watchPage page = .ok (some id, g') ∧ Watched l g page id g' := by
  unfold GuardedMemory.watchPage
  cases hw : g.memory.watch? page with
  | some id => exact ⟨id, g, rfl, h, .refl _, rfl, rfl, hw, Or.inl ⟨hw, rfl⟩⟩
  | none =>
      simp only
      rw [if_neg (by rw [hcode]; simpa using hpage)]
      cases hf : g.code.watches.free with
      | cons id rest =>
          have hid : id ∈ g.code.watches.free := hf ▸ List.mem_cons_self
          exact ⟨id, _, rfl, h.watched_install hid hpage hcode hw⟩
      | nil =>
          obtain ⟨oldest, rest, hu⟩ := h.exists_used hf
          have hused : oldest ∈ g.code.watches.used := hu ▸ List.mem_cons_self
          have hclear := h.clearWatch hused
          have hfree : (g.clearWatch oldest).code.watches.free = [oldest] := by
            show oldest :: g.code.watches.free = _
            rw [hf]
          rw [hu]
          simp only [hfree]
          have hid : oldest ∈ (g.clearWatch oldest).code.watches.free :=
            hfree ▸ List.mem_cons_self
          have hbare := bare_clearWatch g oldest
          have hnone : (g.clearWatch oldest).memory.watch? page = none := by
            show (g.memory.setWatch _ none).watch? page = none
            rw [Memory.watch?_setWatch]
            split
            · rfl
            · exact hw
          have hcount : page < (g.clearWatch oldest).memory.pageCount := by
            rw [← Memory.pageCount_bare, hbare, Memory.pageCount_bare]
            exact hpage
          have hno : (g.clearWatch oldest).memory.isNoCode page = false := by
            rw [← Memory.isNoCode_bare, hbare, Memory.isNoCode_bare]
            exact hcode
          obtain ⟨h1, h2, h3, _, h4, h5⟩ := hclear.watched_install hid hcount hno hnone
          refine ⟨oldest, _, rfl, h1, (h.shrinks_clearWatch hused).trans h2, h3.trans hbare, ?_, h4,
            Or.inr ⟨hw, ?_⟩⟩
          · show (g.clearWatch oldest).code.arena.capacity = _
            rw [h.clearWatch_eq hused]
            exact Arena.capacity_of_frame
              (Arena.frame_of_outline (CodeStore.outline_withoutAll ..))
          rcases h5 with ⟨h5, _⟩ | ⟨_, h5⟩
          · rw [hnone] at h5
            cases h5
          · exact h5

theorem of_watchPage_ok {page : Nat} {id : WatchId} {g' : GuardedMemory}
    (hw : g.watchPage page = .ok (some id, g')) : Watched l g page id g' := by
  have hadmits : page < g.memory.pageCount ∧ g.memory.isNoCode page = false := by
    cases hwatch : g.memory.watch? page with
    | some x => exact ⟨Memory.lt_pageCount_of_watch? hwatch, h.permitted page x hwatch⟩
    | none =>
        refine not_not.mp fun hn => ?_
        unfold GuardedMemory.watchPage at hw
        rw [hwatch] at hw
        simp only at hw
        rw [if_pos] at hw
        · cases hw
        · rwa [not_and_or, Nat.not_lt, Bool.not_eq_false] at hn
  obtain ⟨x, y, hok, hwatched⟩ := h.watchPage hadmits.1 hadmits.2
  cases hok.symm.trans hw
  exact hwatched

end Coherent

end GuardedMemory

end Recompiler
