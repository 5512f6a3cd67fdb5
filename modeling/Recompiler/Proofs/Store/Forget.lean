import Recompiler.CodeStore
import Recompiler.Proofs.Arena.Forget
import Recompiler.Proofs.Arena.Layout

/-!
# Compiled code without its links

Finding, indexing, invalidating and overwriting blocks does not look at links.
-/

namespace Recompiler

theorem Watch.find?_forget (w : Watch) (a : Arena) (start : Offset) :
    w.find? a.forget start = w.find? a start := by
  unfold find?
  simp only [Arena.block_forget, Descriptor.source_core]

namespace Sweep

def forget (s : Sweep) : Sweep := { s with arena := s.arena.forget }

theorem forget_free (running : Option BlockId) (s : Sweep) (id : BlockId) :
    (s.free running id).forget = s.forget.free running id := by
  unfold forget free
  simp only [Arena.block_forget, Descriptor.source_core, Arena.forget_vacate]

theorem forget_bucket (first last : Offset) (running : Option BlockId) (s : Sweep) (b : Bucket) :
    (s.bucket first last running b).forget = s.forget.bucket first last running b := by
  unfold bucket
  simp only [forget, Arena.block_forget, Descriptor.source_core]
  refine (apply_ite forget ..).trans (if_congr Iff.rfl rfl ?_)
  exact (List.foldl_hom forget fun x y => (forget_free running x y).symm).symm

theorem forget_below (first last : Offset) (running : Option BlockId) (n : Nat) (s : Sweep) :
    (below first last running n s).forget = below first last running n s.forget := by
  induction n generalizing s with
  | zero => rfl
  | succ n ih =>
      unfold below
      refine (apply_ite forget ..).trans (if_congr Iff.rfl rfl ?_)
      rw [ih]
      split
      · rw [forget_bucket]
      · rfl

end Sweep

namespace CodeStore

def forget (s : CodeStore) : CodeStore := { s with arena := s.arena.forget }

@[simp] theorem size_forget (s : CodeStore) (id : BlockId) :
    (s.forget.arena.block id).size = (s.arena.block id).size := by
  rw [forget, Arena.block_forget]
  rfl

theorem forget_invalidate (s : CodeStore) (watch : WatchId) (first last : Offset)
    (running : Option BlockId) :
    s.forget.invalidate watch first last running =
      ((s.invalidate watch first last running).1, (s.invalidate watch first last running).2.1,
        (s.invalidate watch first last running).2.2.forget) := by
  have hbelow := Sweep.forget_below first last running ((bucketOf last).val + 1)
    ⟨s.watches.watch watch, s.arena, 0, false⟩
  unfold invalidate Watch.invalidate
  rw [show (⟨s.forget.watches.watch watch, s.forget.arena, 0, false⟩ : Sweep) =
    Sweep.forget ⟨s.watches.watch watch, s.arena, 0, false⟩ from rfl, ← hbelow]
  generalize Sweep.below first last running _ _ = w
  let f : Counters → Counters := fun c =>
    { c with
      invalidations := c.invalidations + w.freed
      runningHits := c.runningHits + if w.metRunning then 1 else 0 }
  exact congrArg (fun a => (w.freed, w.metRunning, CodeStore.mk a (s.watches.set watch w.watch)))
    (Arena.forget_count w.arena (f := f) fun _ => rfl).symm

theorem forget_unindex (s : CodeStore) (id : BlockId) :
    (s.unindex id).map forget = s.forget.unindex id := by
  unfold unindex
  rw [show s.forget.arena = s.arena.forget from rfl, Arena.block_forget, Descriptor.source_core]
  cases (s.arena.block id).source with
  | none => rfl
  | some source =>
      rw [show s.forget.watches = s.watches from rfl]
      simp only
      cases (s.watches.watch source.watch).remove? id source with
      | none => rfl
      | some w => rfl

theorem forget_discard (s : CodeStore) (id : BlockId) :
    (s.discard id).map forget = s.forget.discard id := by
  unfold discard
  refine (apply_ite (Except.map forget) ..).trans (if_congr Iff.rfl rfl ?_)
  refine (map_bind_eq (fun t => ?_) _).trans (congrArg (· >>= _) (forget_unindex s id))
  exact congrArg (fun a => Except.ok { t with arena := a }) (Arena.forget_vacate t.arena id)

theorem forget_evict (s : CodeStore) (id : BlockId) :
    (s.evict id).map forget = s.forget.evict id := by
  unfold evict
  rw [show s.forget.arena.isLive id = s.arena.isLive id from Arena.isLive_forget _ _]
  refine (apply_ite (Except.map forget) ..).trans (if_congr Iff.rfl ?_ rfl)
  refine (map_bind_eq (fun t => ?_) _).trans (congrArg (· >>= _) (forget_discard s id))
  refine congrArg (fun a => Except.ok { t with arena := a }) (Arena.forget_count _ ?_)
  exact fun _ => rfl

theorem forget_absorb (s : CodeStore) (size : Nat) (ids : List BlockId) :
    (s.absorb size ids).map (Prod.map forget id) = s.forget.absorb size ids := by
  induction ids generalizing s size with
  | nil => rfl
  | cons id rest ih =>
      unfold absorb
      refine (apply_ite (Except.map _) ..).trans (if_congr Iff.rfl ?_ rfl)
      refine (map_bind_eq (fun t => ?_) _).trans (congrArg (· >>= _) (forget_evict s id))
      rw [ih, size_forget]
      exact congrArg (fun a => absorb { t with arena := a } _ rest) (Arena.forget_recycle t.arena id)

theorem forget_openRegion (s : CodeStore) :
    s.openRegion.map (Prod.map id forget) = s.forget.openRegion := by
  unfold openRegion
  refine (apply_ite (Except.map _) ..).trans (if_congr Iff.rfl rfl ?_)
  refine (map_bind_eq (fun t => ?_) _).trans (congrArg (· >>= _) (forget_evict s s.arena.active))
  rw [size_forget]
  refine (map_bind_eq (fun r => ?_) _).trans (congrArg (· >>= _) (forget_absorb t _ _))
  obtain ⟨u, size, rest⟩ := r
  have hm : (u.arena.resize s.arena.active size).forget =
      u.arena.forget.resize s.arena.active size := Arena.forget_modify _ _ fun _ => rfl
  have hstart : ((u.arena.forget.resize s.arena.active size).block s.arena.active).start =
      ((u.arena.resize s.arena.active size).block s.arena.active).start := by
    rw [← hm, Arena.block_forget]
    rfl
  show Except.ok (s.arena.active, CodeStore.mk { (u.arena.resize s.arena.active size).forget with
      regions := (s.arena.around s.arena.active).1 ++ s.arena.active :: rest
      opened := some s.arena.active
      pen := { u.arena.pen with
        cursor := ((u.arena.resize s.arena.active size).block s.arena.active).start } } u.watches) =
    Except.ok (s.arena.active, CodeStore.mk { u.arena.forget.resize s.arena.active size with
      regions := (s.arena.around s.arena.active).1 ++ s.arena.active :: rest
      opened := some s.arena.active
      pen := { u.arena.pen with
        cursor := ((u.arena.forget.resize s.arena.active size).block s.arena.active).start } }
      u.watches)
  rw [hm, hstart]

theorem forget_indexBlock (s : CodeStore) (id : BlockId) (watch : WatchId)
    (page : Vector UInt8 pageSize) (first last : Offset) :
    (s.indexBlock id watch page first last).forget =
      s.forget.indexBlock id watch page first last := by
  refine congrArg (CodeStore.mk · _) (Arena.forget_modify _ _ ?_)
  exact fun _ => rfl

end CodeStore

end Recompiler
