import Recompiler.Emulator.Execute
import Recompiler.Guest.Interpreter

/-!
# The dispatcher

A run looks up the block at the instruction pointer, runs compiled code from it
until it returns, and goes on, until the budget is used up, the interpreter
halts, or compiled code meets a software interrupt.  An exit that came back
unlinked is linked once its successor is known, provided the block it belongs
to is still the one that was left.
-/

namespace Recompiler

/-- Why a run ended. -/
inductive RunEnd where
  | outOfCycles
  | halted
  /-- A software interrupt; the instruction pointer is past it. -/
  | interrupt (vector : UInt8)
  deriving DecidableEq, Repr

/-- An exit to link once its successor is known, with the generation its block
had when it was left. -/
structure PendingLink where
  block : BlockId
  slot : Slot
  generation : UInt32
  deriving DecidableEq, Repr

namespace Emulator

/-- Runs one instruction in the interpreter. -/
def interpret {σ : Type} (i : Interpreter σ) (s : σ) (e : Emulator) :
    Stepped × σ × Emulator :=
  let ((s, cpu, outcome), guarded) := e.guarded.run (i.step s e.cpu)
  let e :=
    { e with guarded, context := { e.context with cpu, cycles := e.context.cycles - 1 } }
  (outcome, s, e.count fun c => { c with interpreted := c.interpreted + 1 })

/-- Links a pending exit to its successor, unless its block was freed or
compiled anew meanwhile. -/
def settle (e : Emulator) (pending : Option PendingLink) (id : BlockId) :
    Except Fault Emulator :=
  match pending with
  | none => .ok e
  | some p =>
      if e.arena.isLive p.block && (e.arena.block p.block).generation = p.generation then
        e.link p.block p.slot id
      else .ok e

/-- How one turn of the dispatcher ends. -/
inductive Turn (σ : Type) where
  | go (state : σ) (e : Emulator) (pending : Option PendingLink)
  | stop (exit : RunEnd) (state : σ) (e : Emulator)

/-- One turn of the dispatcher, with a budget that is not used up. -/
def turn {σ : Type} (i : Interpreter σ) (s : σ) (e : Emulator)
    (pending : Option PendingLink) : Except Fault (Turn σ) := do
  let (fetched, e) ← e.fetch e.cpu.eip
  match fetched.block? with
  | none => return interpreted s e
  | some id =>
      -- Compiling `id` may have evicted the block that was left.
      let e ← e.settle pending id
      let (code, last, e) ← e.execute id
      match code with
      | .normal | .cycles | .selfModified => return .go s e none
      | .firstExit | .secondExit =>
          return .go s e (code.slot?.map fun slot =>
            ⟨last, slot, (e.arena.block last).generation⟩)
      | .opcode => return interpreted s e
      | .callback => return .stop (.interrupt e.context.callback.toUInt8) s e
where
  /-- The turn after an instruction of the interpreter. -/
  interpreted (s : σ) (e : Emulator) : Turn σ :=
    match e.interpret i s with
    | (.halt, s, e) => .stop .halted s e
    | (.proceed, s, e) => .go s e none

/-- Turns of the dispatcher until the run ends.  `fuel` bounds their number;
the cycle budget does. -/
def turns {σ : Type} (i : Interpreter σ) : Nat → σ → Emulator → Option PendingLink →
    Except Fault (RunEnd × σ × Emulator)
  | 0, s, e, _ => .ok (.outOfCycles, s, e)
  | fuel + 1, s, e, pending =>
      if e.context.cycles ≤ 0 then .ok (.outOfCycles, s, e)
      else do
        match ← e.turn i s pending with
        | .go s e pending => turns i fuel s e pending
        | .stop exit s e => return (exit, s, e)

/-- Runs the guest for a number of instructions, about: blocks are charged for
when they are left. -/
def run {σ : Type} (i : Interpreter σ) (s : σ) (e : Emulator) (cycles : Int32) :
    Except Fault (RunEnd × σ × Emulator) :=
  turns i cycles.toInt.toNat s (e.setCycles cycles) none

end Emulator

end Recompiler
