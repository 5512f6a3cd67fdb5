import Recompiler.Emulator.Basic
import Recompiler.Host.Machine

/-!
# Running compiled code

A block is entered, carries out its operations, and leaves with a return code
or through an exit.  A linked exit enters the next block at once; an unlinked
one reaches its slot's trampoline, which returns.  Every block looks at the
cycle budget before it does anything, and charges for what it ran when it is
left, so a chain of blocks ends.
-/

namespace Recompiler

namespace Emulator

/-- What compiled code reaches of an emulator: guarded memory. -/
def helpers : Helpers GuardedMemory where
  read g addr := g.memory.readWidth .long addr
  write g running width addr value :=
    let writer := if running = noBlock then none else some (BlockId.ofWord running)
    let (outcome, g) := g.write width addr value writer
    (g, outcome.metRunning)
  clobber _ := ({}, {})

/-- What lies at an arena position that an exit jumps to. -/
inductive Landing where
  | trampoline (slot : Slot)
  | block (id : BlockId)
  deriving DecidableEq, Repr

/-- The trampoline or live block whose code starts at a position. -/
def landing? (a : Arena) (position : Nat) : Option Landing :=
  match Slot.all.find? fun s => trampolinePosition s = position with
  | some slot => some (.trampoline slot)
  | none =>
      (a.regions.find? fun id => (a.block id).start = position && a.isLive id).map .block

/-- Runs blocks from `id` on until one returns.  `fuel` bounds the number of
blocks; the cycle budget does. -/
def chain : Nat → BlockId → HostState GuardedMemory →
    Except Fault (UInt32 × HostState GuardedMemory)
  | 0, _, _ => .error (.corrupted .strayControl)
  | fuel + 1, id, s =>
      match s.run helpers none (s.world.code.arena.block id).program with
      | .returned code s => .ok (code, s)
      | .jumped (.exitSlot source slot) s =>
          match landing? s.world.code.arena
              (s.world.code.arena.slotPosition source slot) with
          | some (.trampoline t) => .ok ((ReturnCode.ofSlot t).word, s)
          | some (.block next) => chain fuel next s
          | none => .error (.corrupted .strayControl)
      | _ => .error (.corrupted .strayControl)

/-- The host as a block is entered: helpers are called with the handle of the
emulator. -/
def entered (e : Emulator) (id : BlockId) : HostState GuardedMemory where
  context := { e.context with running := id.word, owner := true }
  world := e.guarded

def left (e : Emulator) (s : HostState GuardedMemory) : Emulator :=
  { e with
    guarded := s.world
    context := { s.context with running := noBlock, owner := false } }

/-- Runs compiled code from a block on.  Answers with the return code and the
block entered last. -/
def execute (e : Emulator) (id : BlockId) :
    Except Fault (ReturnCode × BlockId × Emulator) :=
  if id.isTrampoline || !e.arena.isLive id then .error (.corrupted .notCompiled)
  else do
    let (code, s) ← chain (e.context.cycles.toInt.toNat + 1) id (e.entered id)
    match s.broken, ReturnCode.ofWord? code with
    | some what, _ => throw (.corrupted what)
    | none, some code => return (code, BlockId.ofWord s.context.running, e.left s)
    | none, none => throw (.unknownReturn code)

/-- What compiled code that was run without a fault came to. -/
theorem of_execute_ok {e e' : Emulator} {id last : BlockId} {code : ReturnCode}
    (hx : e.execute id = .ok (code, last, e')) :
    (id.isTrampoline || !e.arena.isLive id) = false ∧ ∃ word s,
      chain (e.context.cycles.toInt.toNat + 1) id (e.entered id) = .ok (word, s) ∧
      s.broken = none ∧ ReturnCode.ofWord? word = some code ∧
      last = BlockId.ofWord s.context.running ∧ e' = e.left s := by
  unfold execute at hx
  split at hx
  · cases hx
  · next hlive =>
      obtain ⟨⟨word, s⟩, hc, hx⟩ := bind_eq_ok_iff.mp hx
      refine ⟨eq_false_of_ne_true hlive, word, s, hc, ?_⟩
      cases hbroken : s.broken <;> cases hcode : ReturnCode.ofWord? word <;>
        simp only [hbroken, hcode] at hx <;> cases hx
      exact ⟨rfl, rfl, rfl, rfl⟩

end Emulator

end Recompiler
