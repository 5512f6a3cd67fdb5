import Recompiler.Guest.Decoder
import Recompiler.Guest.Interpreter
import Recompiler.Guest.Memory

/-!
# What guest instructions do

The meaning of every instruction that is compiled, as a bus program, and the
plain machine: a guest that takes one instruction at a time from the bytes its
memory holds at that moment.  An instruction that is compiled has the effect
stated here; every other one is the interpreter's.  Nothing in this module
knows of blocks, links or watches.
-/

namespace Recompiler

/-- The value a store stores; the bits beyond its width do not matter. -/
def Stored.value (s : Stored) (c : Cpu) : UInt32 :=
  match s with
  | .reg r => c.reg r
  | .highByte r => c.reg r >>> 8
  | .imm v => v

def Operand.value (o : Operand) (c : Cpu) : UInt32 :=
  match o with
  | .reg r => c.reg r
  | .imm v => v

namespace Cpu

def flags (c : Cpu) : Flags := .ofWord c.eflags

/-- The state with other arithmetic flags; the rest of the flags word stays. -/
def setFlags (c : Cpu) (f : Flags) : Cpu := { c with eflags := f.into c.eflags }

def goto (c : Cpu) (eip : UInt32) : Cpu := { c with eip }

end Cpu

open BusProgram in
/-- What an instruction does to CPU and memory.  Operands are what they were
before it; a software interrupt is left pending, with the CPU past it. -/
def Placed.effect (p : Placed) (c : Cpu) : BusProgram Cpu :=
  let after := c.goto p.next
  match p.instruction with
  | .nop | .interrupt _ => pure after
  | .moveImm dst imm => pure (after.setReg dst imm)
  | .move dst src => pure (after.setReg dst (c.reg src))
  | .load dst a => return after.setReg dst (← readWidth .long (a.eval c))
  | .store a width src => do
      store width (a.eval c) (src.value c)
      return after
  | .alu op dst src =>
      let x := c.reg dst
      let y := src.value c
      let after := after.setFlags (op.flags x y)
      pure (if op.keepsResult then after.setReg dst (op.result x y) else after)
  | .unary op r =>
      let x := c.reg r
      pure ((after.setFlags (op.flags c.flags x)).setReg r (op.result x))
  | .lea dst a => pure (after.setReg dst (a.eval c))
  | .push src => do
      let top := c.reg .esp - 4
      store .long top (c.reg src)
      return after.setReg .esp top
  | .pop dst => do
      let v ← readWidth .long (c.reg .esp)
      return (after.setReg .esp (c.reg .esp + 4)).setReg dst v
  | .jump target => pure (c.goto target)
  | .jumpIf cond target => pure (if cond.holds c.flags then c.goto target else after)
  | .call target => do
      let top := c.reg .esp - 4
      store .long top p.next
      return (c.goto target).setReg .esp top
  | .ret => do
      let target ← readWidth .long (c.reg .esp)
      return (c.goto target).setReg .esp (c.reg .esp + 4)
  | .jumpReg src => pure (c.goto (c.reg src))

def Instruction.vector? : Instruction → Option UInt8
  | .interrupt vector => some vector
  | _ => none

/-- The compiled instruction at an address, read from what memory holds there.
There is none outside memory, on a page barred from compilation, and where the
instruction leaves its page. -/
def Memory.instruction? (m : Memory) (decoder : Decoder) (eip : UInt32) : Option Placed :=
  if m.isNoCode (pageOf eip) then none
  else do
    let page ← m.bytes? (pageOf eip)
    let d := decoder.decode (window page (offsetOf eip)) eip
    let i ← d.instruction
    return ⟨i, eip + d.length.toUInt32⟩

/-! ## The plain machine -/

/-- A guest on bare memory, with the state of the interpreter that serves
it. -/
structure Guest (σ : Type) where
  cpu : Cpu
  /-- The vector of the last software interrupt. -/
  callback : UInt32
  memory : Memory
  interpreter : σ

inductive Stop where
  | halted
  | interrupt (vector : UInt8)
  deriving DecidableEq, Repr

namespace Guest

variable {σ : Type} (decoder : Decoder)

/-- One instruction, and whether the guest stops with it. -/
def step (i : Interpreter σ) (g : Guest σ) : Guest σ × Option Stop :=
  match g.memory.instruction? decoder g.cpu.eip with
  | some p =>
      let (cpu, memory) := g.memory.run (p.effect g.cpu)
      match p.instruction.vector? with
      | some v => ({ g with cpu, memory, callback := v.toUInt32 }, some (.interrupt v))
      | none => ({ g with cpu, memory }, none)
  | none =>
      let ((s, cpu, outcome), memory) := g.memory.run (i.step g.interpreter g.cpu)
      ({ g with cpu, memory, interpreter := s },
        match outcome with
        | .proceed => none
        | .halt => some .halted)

/-- At most `n` instructions; fewer if the guest stops.  Answers with the
number run and how the last one stopped. -/
def steps (i : Interpreter σ) : Nat → Guest σ → Nat × Guest σ × Option Stop
  | 0, g => (0, g, none)
  | n + 1, g =>
      match g.step decoder i with
      | (g, some stop) => (1, g, some stop)
      | (g, none) =>
          let (k, g, stop) := g.steps i n
          (k + 1, g, stop)

end Guest

end Recompiler
