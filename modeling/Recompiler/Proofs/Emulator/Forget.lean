import Recompiler.Emulator.Run
import Recompiler.Proofs.Guarded.Forget

/-!
# An emulator without its links

Looking blocks up, compiling and interpreting do not depend on links.  Look-ups
that find a block are not told from one another, since links spare some.
-/

namespace Recompiler

theorem Arena.forget_forget (a : Arena) : a.forget.forget = a.forget := by
  have hpool : (a.pool.map Descriptor.core).map Descriptor.core = a.pool.map Descriptor.core := by
    rw [Array.map_map]
    rfl
  simp only [forget, cut, count, hpool]
  rfl

namespace Emulator

def cut (e : Emulator) : Emulator := e.modifyArena Arena.cut

def forget (e : Emulator) : Emulator := { e with guarded := e.guarded.forget }

theorem forget_forget (e : Emulator) : e.forget.forget = e.forget :=
  congrArg (fun a => Emulator.mk e.settings ⟨⟨a, e.watches⟩, e.memory⟩ e.context)
    e.arena.forget_forget

theorem forget_cut (e : Emulator) : e.cut.forget = e.forget :=
  congrArg (fun p => Emulator.mk e.settings ⟨⟨{ e.arena with
    pool := p, counters := e.arena.counters.forget }, e.watches⟩, e.memory⟩ e.context) (by
      show (e.arena.pool.map Descriptor.core).map Descriptor.core = _
      rw [Array.map_map]
      rfl)

theorem find?_forget (e : Emulator) (addr : UInt32) : e.forget.find? addr = e.find? addr :=
  congrArg (e.memory.watch? (pageOf addr)).bind (funext fun id =>
    (e.watches.watch id).find?_forget e.arena (offsetOf addr))

theorem forget_compile (e : Emulator) (watch : WatchId) (eip : UInt32) :
    (e.compile watch eip).map (Prod.map id forget) = e.forget.compile watch eip := by
  unfold compile
  rw [show e.forget.memory = e.memory from rfl]
  cases e.memory.bytes? (pageOf eip) with
  | none => rfl
  | some page =>
      refine (map_bind_eq (fun r => ?_) _).trans
        (congrArg (· >>= _) e.guarded.code.forget_openRegion)
      refine (map_bind_eq (fun a => ?_) _).trans
        (congrArg (· >>= _) (r.2.arena.forget_emitProgram _))
      refine (map_bind_eq (fun s => ?_) _).trans (congrArg (· >>= _) (a.forget_close _ _))
      exact congrArg (fun code => Except.ok (s.1, Emulator.mk e.settings ⟨code, e.memory⟩ e.context))
        (CodeStore.forget_indexBlock ⟨s.2, r.2.watches⟩ s.1 watch page _ _)

theorem forget_count_hits (e : Emulator) :
    (e.count fun c => { c with hits := c.hits + 1 }).forget = e.forget := rfl

/-- **A look-up does not depend on links.** -/
theorem forget_fetch (e : Emulator) (eip : UInt32) :
    (e.fetch eip).map (Prod.map id forget) = (e.forget.fetch eip).map (Prod.map id forget) := by
  have hagain : ∀ (f : Fetched) (e : Emulator),
      (Except.ok (f, e) : Except Fault _).map (Prod.map id forget) =
        (Except.ok (f, e.forget)).map (Prod.map id forget) := fun f e =>
    congrArg (fun x => Except.ok (f, x)) e.forget_forget.symm
  unfold fetch
  rw [find?_forget]
  refine (apply_ite (Except.map _) ..).trans
    ((if_congr Iff.rfl (hagain _ e) ?_).trans (apply_ite (Except.map _) ..).symm)
  cases e.find? eip with
  | some id => exact hagain (.cached id) e
  | none =>
      refine (apply_ite (Except.map _) ..).trans
        ((if_congr Iff.rfl (hagain _ e) ?_).trans (apply_ite (Except.map _) ..).symm)
      rw [show e.forget.guarded.watchPage (pageOf eip) = _ from
        (e.guarded.forget_watchPage (pageOf eip)).symm]
      cases e.guarded.watchPage (pageOf eip) with
      | error fault => rfl
      | ok r =>
          obtain ⟨_ | watch, guarded⟩ := r
          · exact hagain .interpret { e with guarded }
          · have hcompile := forget_compile { e with guarded } watch eip
            show Except.map _ (({ e with guarded } : Emulator).compile watch eip >>= _) =
              Except.map _ (({ e with guarded } : Emulator).forget.compile watch eip >>= _)
            rw [← hcompile]
            cases ({ e with guarded } : Emulator).compile watch eip with
            | error fault => rfl
            | ok r => exact hagain (.compiled r.1) r.2

theorem forget_settle {e e' : Emulator} {pending : Option PendingLink} {id : BlockId}
    (h : e.settle pending id = .ok e') : e'.forget = e.forget := by
  unfold settle at h
  split at h
  · cases h
    rfl
  · split at h
    · obtain ⟨a, hlink, he⟩ := bind_eq_ok_iff.mp h
      cases he
      exact congrArg (fun a => Emulator.mk e.settings ⟨⟨a, e.watches⟩, e.memory⟩ e.context)
        (Arena.forget_link hlink)
    · cases h
      rfl

/-- **An instruction of the interpreter's** does not depend on links. -/
theorem forget_interpret {σ : Type} (i : Interpreter σ) (s : σ) (e : Emulator) :
    e.forget.interpret i s =
      ((e.interpret i s).1, (e.interpret i s).2.1, (e.interpret i s).2.2.forget) := by
  have hrun := e.guarded.forget_run (i.step s e.cpu)
  unfold interpret
  rw [show e.forget.guarded.run (i.step s e.forget.cpu) = _ from hrun.symm]
  rfl

end Emulator

end Recompiler
