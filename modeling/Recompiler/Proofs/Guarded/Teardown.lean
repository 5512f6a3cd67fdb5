import Recompiler.Emulator.Run
import Recompiler.Proofs.Host.Run
import Recompiler.Proofs.Store.Open

/-!
# What tearing down keeps

Writes, invalidations and releases change the arena in two ways only: they tear
blocks down and they count.  So does everything that reaches memory through
writes, a run of compiled code and an instruction of the interpreter's among
it.  A property of the arena that tearing down and counting keep is kept by all
of them, whatever state the emulator is in.
-/

namespace Recompiler

/-- A property of the arena that tearing blocks down and counting keep. -/
structure Arena.Lasting (P : Arena → Prop) : Prop where
  vacate : ∀ {a : Arena} (id : BlockId), P a → P (a.vacate id)
  count : ∀ {a : Arena} (f : Counters → Counters), P a → P (a.count f)

namespace Arena.Lasting

variable {P : Arena → Prop} (hP : Lasting P)

include hP

/-! ## Blocks of a watch -/

theorem foldl_vacate (ids : List BlockId) {a : Arena} (h : P a) : P (ids.foldl Arena.vacate a) :=
  List.foldlRecOn ids Arena.vacate h fun _ ha id _ => hP.vacate id ha

theorem bucket (first last : Offset) (running : Option BlockId) {s : Sweep} (h : P s.arena)
    (b : Bucket) : P (s.bucket first last running b).arena := by
  unfold Sweep.bucket
  simp only
  split
  · exact h
  · exact List.foldlRecOn (motive := fun s : Sweep => P s.arena) _ _ h
      fun _ hs id _ => hP.vacate id hs

theorem below (first last : Offset) (running : Option BlockId) (n : Nat) {s : Sweep}
    (h : P s.arena) : P (Sweep.below first last running n s).arena := by
  induction n generalizing s with
  | zero => exact h
  | succ n ih =>
      unfold Sweep.below
      split
      · exact h
      · refine ih ?_
        split
        · exact hP.bucket first last running h _
        · exact h

theorem sweep (w : Watch) (first last : Offset) (running : Option BlockId) {a : Arena}
    (h : P a) : P (w.invalidate a first last running).arena := by
  have hbelow := hP.below first last running ((bucketOf last).val + 1) (s := ⟨w, a, 0, false⟩) h
  generalize hs : Sweep.below first last running ((bucketOf last).val + 1) ⟨w, a, 0, false⟩ = s
    at hbelow
  have heq : (w.invalidate a first last running).arena = s.arena.count fun c =>
      { c with
        invalidations := c.invalidations + s.freed
        runningHits := c.runningHits + if s.metRunning then 1 else 0 } := by
    rw [← hs]
    rfl
  rw [heq]
  exact hP.count _ hbelow

theorem discard {s s' : CodeStore} {id : BlockId} (h : P s.arena) (hd : s.discard id = .ok s') :
    P s'.arena := by
  rcases CodeStore.of_discard_ok hd with ⟨_, rfl⟩ | ⟨_, _, _, rfl⟩
  · exact h
  · exact hP.vacate id h

/-! ## Memory -/

section Memory

variable {g : GuardedMemory} (h : P g.code.arena)

include h

theorem writeWatched (id : WatchId) (width : Width) (addr value : UInt32)
    (running : Option BlockId) :
    P (g.writeWatched id width addr value running).2.code.arena := by
  unfold GuardedMemory.writeWatched
  simp only
  split
  · exact hP.sweep _ _ _ running h
  · split
    · exact h
    · split
      · exact h
      · exact h

theorem writeWithin (width : Width) (addr value : UInt32) (running : Option BlockId) :
    P (g.writeWithin width addr value running).2.code.arena := by
  unfold GuardedMemory.writeWithin
  simp only
  split
  · exact h
  · split
    · exact h
    · split
      · exact hP.writeWatched h _ width addr _ running
      · exact h

theorem write (width : Width) (addr value : UInt32) (running : Option BlockId) :
    P (g.write width addr value running).2.code.arena := by
  unfold GuardedMemory.write
  split
  · exact List.foldlRecOn (motive := fun r : WriteResult × GuardedMemory => P r.2.code.arena) _ _ h
      fun r hr i _ => hP.writeWithin hr .byte _ _ running
  · exact hP.writeWithin h width addr value running

theorem invalidate (start stop : UInt32) (running : Option BlockId) :
    P (g.invalidate start stop running).2.2.code.arena := by
  unfold GuardedMemory.invalidate
  split
  · exact h
  · refine List.foldlRecOn (motive := fun r : Nat × Bool × GuardedMemory => P r.2.2.code.arena)
      _ _ h fun r hr page _ => ?_
    obtain ⟨freed, hit, g⟩ := r
    simp only
    split
    · exact hr
    · exact hP.sweep _ _ _ running hr

theorem clearWatch (id : WatchId) : P (g.clearWatch id).code.arena :=
  hP.foldl_vacate _ h

theorem flush : P g.flush.code.arena :=
  List.foldlRecOn (motive := fun g : GuardedMemory => P g.code.arena) _ _ h
    fun _ hg id _ => hP.clearWatch hg id

theorem watchPage {page : Nat} {watch : Option WatchId} {g' : GuardedMemory}
    (hw : g.watchPage page = .ok (watch, g')) : P g'.code.arena := by
  unfold GuardedMemory.watchPage at hw
  split at hw
  · cases hw
    exact h
  · split at hw
    · cases hw
      exact h
    · simp only at hw
      split at hw
      · cases hw
        exact h
      · split at hw
        · cases hw
        · next oldest _ _ =>
            split at hw
            · cases hw
              exact hP.clearWatch h oldest
            · cases hw

end Memory

theorem run {α : Type} (p : BusProgram α) {g : GuardedMemory} (h : P g.code.arena) :
    P (g.run p).2.code.arena := by
  induction p generalizing g with
  | done a => exact h
  | read addr next ih => exact ih (g.memory.read addr) h
  | write width addr value next ih => exact ih (hP.write h width addr value none)

/-! ## Compiled code -/

theorem block {s : HostState GuardedMemory} (h : P s.world.code.arena) (ops : List Operation) :
    (s.run Emulator.helpers none ops).EndsIn fun g => P g.code.arena :=
  HostState.endsIn_run (P := fun g : GuardedMemory => P g.code.arena)
    (fun _ _ width addr value hg => hP.write hg width addr value _) h none ops

theorem chain (fuel : Nat) {id : BlockId} {s t : HostState GuardedMemory} {code : UInt32}
    (h : P s.world.code.arena) (hc : Emulator.chain fuel id s = .ok (code, t)) :
    P t.world.code.arena := by
  induction fuel generalizing id s with
  | zero => cases hc
  | succ fuel ih =>
      have hblock := hP.block h (s.world.code.arena.block id).program
      unfold Emulator.chain at hc
      split at hc
      · next hrun =>
          rw [hrun] at hblock
          cases hc
          exact hblock
      · next hrun =>
          rw [hrun] at hblock
          split at hc
          · cases hc
            exact hblock
          · exact ih hblock hc
          · cases hc
      · cases hc

section Emulator

variable {e e' : Emulator} (h : P e.arena)

include h

theorem execute {id last : BlockId} {code : ReturnCode}
    (hx : e.execute id = .ok (code, last, e')) : P e'.arena := by
  obtain ⟨_, word, t, hc, _, _, _, rfl⟩ := Emulator.of_execute_ok hx
  exact hP.chain _ h hc

theorem interpret {σ : Type} (i : Interpreter σ) (s : σ) : P (e.interpret i s).2.2.arena := by
  have hrun := hP.run (i.step s e.cpu) h
  have heq : (e.interpret i s).2.2.arena =
      (e.guarded.run (i.step s e.cpu)).2.code.arena.count fun c =>
        { c with interpreted := c.interpreted + 1 } := rfl
  rw [heq]
  exact hP.count _ hrun

omit h in
theorem load (bytes : List UInt8) {e : Emulator} (h : P e.arena) (addr : UInt32) :
    P (e.load addr bytes).arena := by
  induction bytes generalizing e addr with
  | nil => exact h
  | cons b rest ih =>
      have hwrite := hP.write h .byte addr b.toUInt32 e.running?
      exact ih (e := (e.write .byte addr b.toUInt32).2) hwrite (addr + 1)

end Emulator

end Arena.Lasting

end Recompiler
