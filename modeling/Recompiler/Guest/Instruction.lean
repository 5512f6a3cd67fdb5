import Recompiler.Arithmetic
import Recompiler.Guest.Bus
import Recompiler.Guest.Cpu

/-!
# Guest instructions that are compiled

The instructions a block is made of.  All operands are registers, constants
and flat addresses; targets of transfers are absolute.  Whatever a guest
program holds beyond these is left to the interpreter.
-/

namespace Recompiler

/-- A flat effective address: base, plus index shifted left, plus
displacement, modulo `2 ^ 32`. -/
structure Address where
  base : Option Reg
  /-- The index register and how far it is shifted. -/
  index : Option (Reg × Nat)
  disp : UInt32
  deriving DecidableEq, Repr

def Address.eval (a : Address) (c : Cpu) : UInt32 :=
  a.base.elim 0 c.reg + a.disp +
    a.index.elim 0 fun i => c.reg i.1 <<< i.2.toUInt32

inductive Stored where
  /-- A register, cut to the width of the store. -/
  | reg (r : Reg)
  /-- The second byte of a register. -/
  | highByte (r : Reg)
  | imm (value : UInt32)
  deriving DecidableEq, Repr

inductive Operand where
  | reg (r : Reg)
  | imm (value : UInt32)
  deriving DecidableEq, Repr

inductive Instruction where
  | nop
  | moveImm (dst : Reg) (imm : UInt32)
  | move (dst src : Reg)
  | load (dst : Reg) (addr : Address)
  | store (addr : Address) (width : Width) (src : Stored)
  | alu (op : AluOp) (dst : Reg) (src : Operand)
  | unary (op : UnaryOp) (reg : Reg)
  | lea (dst : Reg) (addr : Address)
  | push (src : Reg)
  | pop (dst : Reg)
  | jump (target : UInt32)
  | jumpIf (cond : Condition) (target : UInt32)
  | call (target : UInt32)
  | ret
  | jumpReg (src : Reg)
  | interrupt (vector : UInt8)
  deriving DecidableEq, Repr

/-- An instruction in its place, with the address after it. -/
structure Placed where
  instruction : Instruction
  next : UInt32
  deriving DecidableEq, Repr

end Recompiler
