import Recompiler.GuardedMemory
import Recompiler.Proofs.Store.Forget

/-!
# Guarded memory without its links

What a write frees, and where watches are put up, does not depend on links.
-/

namespace Recompiler

namespace GuardedMemory

def forget (g : GuardedMemory) : GuardedMemory := { g with code := g.code.forget }

theorem forget_clearWatch (g : GuardedMemory) (id : WatchId) :
    (g.clearWatch id).forget = g.forget.clearWatch id := by
  have hfold : ∀ (ids : List BlockId) (a : Arena),
      (ids.foldl Arena.vacate a).forget = ids.foldl Arena.vacate a.forget := fun ids a =>
    (List.foldl_hom Arena.forget fun x y => (Arena.forget_vacate x y).symm).symm
  exact congrArg (fun a => GuardedMemory.mk ⟨a, _⟩ _) (hfold _ _)

theorem forget_watchPage (g : GuardedMemory) (page : Nat) :
    (g.watchPage page).map (Prod.map id forget) = g.forget.watchPage page := by
  unfold watchPage
  rw [show g.forget.memory = g.memory from rfl]
  cases g.memory.watch? page with
  | some id => rfl
  | none =>
      refine (apply_ite (Except.map _) ..).trans (if_congr Iff.rfl rfl ?_)
      rw [show g.forget.code.watches = g.code.watches from rfl]
      simp only
      cases g.code.watches.free with
      | cons id _ => rfl
      | nil =>
          simp only
          cases g.code.watches.used with
          | nil => rfl
          | cons oldest _ =>
              simp only
              rw [← forget_clearWatch]
              generalize g.clearWatch oldest = g'
              obtain ⟨⟨arena, ⟨pool, free, used⟩⟩, memory⟩ := g'
              cases free with
              | cons id _ => rfl
              | nil => rfl

/-- A write does to what is left what it does to the whole. -/
theorem forget_writeWatched (g : GuardedMemory) (watch : WatchId) (width : Width)
    (addr value : UInt32) (running : Option BlockId) :
    (g.writeWatched watch width addr value running).map id forget =
      g.forget.writeWatched watch width addr value running := by
  unfold writeWatched
  simp only
  refine (apply_ite (Prod.map id forget) ..).trans (if_congr Iff.rfl ?_ ?_)
  · have hinvalidate := CodeStore.forget_invalidate { g.code with
      watches := g.code.watches.set watch ((g.code.watches.watch watch).noteChanges (offsetOf addr)
        (lastOf (offsetOf addr) width)) } watch (offsetOf addr) (lastOf (offsetOf addr) width) running
    exact congrArg (fun r : Nat × Bool × CodeStore =>
      (WriteResult.invalidated r.1 r.2.1, (⟨r.2.2, g.memory.storeWidth width addr value⟩ :
        GuardedMemory))) hinvalidate.symm
  · refine (apply_ite (Prod.map id forget) ..).trans (if_congr Iff.rfl rfl ?_)
    exact (apply_ite (Prod.map id forget) ..).trans (if_congr Iff.rfl rfl rfl)

theorem forget_writeWithin (g : GuardedMemory) (width : Width) (addr value : UInt32)
    (running : Option BlockId) :
    (g.writeWithin width addr value running).map id forget =
      g.forget.writeWithin width addr value running := by
  unfold writeWithin
  simp only
  refine (apply_ite (Prod.map id forget) ..).trans (if_congr Iff.rfl rfl ?_)
  refine (apply_ite (Prod.map id forget) ..).trans (if_congr Iff.rfl rfl ?_)
  rw [show g.forget.memory = g.memory from rfl]
  cases g.memory.watch? (pageOf addr) with
  | none => rfl
  | some id => exact g.forget_writeWatched id width addr _ running

theorem forget_write (g : GuardedMemory) (width : Width) (addr value : UInt32)
    (running : Option BlockId) :
    (g.write width addr value running).map id forget = g.forget.write width addr value running := by
  unfold write
  refine (apply_ite (Prod.map id forget) ..).trans (if_congr Iff.rfl ?_ (g.forget_writeWithin ..))
  refine (List.foldl_hom (Prod.map id forget) (fun r i => ?_)).symm
  obtain ⟨outcome, g⟩ := r
  simp only [Prod.map, ← forget_writeWithin]
  rfl

theorem forget_run {α : Type} (p : BusProgram α) (g : GuardedMemory) :
    (g.run p).map id forget = g.forget.run p := by
  induction p generalizing g with
  | done a => rfl
  | read addr next ih => exact ih (g.memory.read addr) g
  | write width addr value next ih =>
      have hw := congrArg Prod.snd (g.forget_write width addr value none)
      show _ = GuardedMemory.run (g.forget.write width addr value none).2 next
      rw [← hw]
      exact ih _

end GuardedMemory

end Recompiler
