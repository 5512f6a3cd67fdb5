import Recompiler.Guest.Bus
import Recompiler.Guest.Cpu

/-!
# Interpreters

An interpreter runs one guest instruction at a time.  It stands in wherever
compiled code cannot go on, and reaches memory by a bus program only, so that
it runs the same on bare memory and on memory that guards compiled code.

`stepper` is a small interpreter of its own: a handful of moves, jumps and
string stores that leave flags alone, and a halt at everything else.
-/

namespace Recompiler

inductive Stepped where
  | proceed
  | halt
  deriving DecidableEq, Repr

/-- An interpreter whose own state is a `σ`. -/
structure Interpreter (σ : Type) where
  step : σ → Cpu → BusProgram (σ × Cpu × Stepped)

namespace Stepper

open BusProgram

/-- The register with one of its two low bytes replaced, by the number that
byte registers have in encodings. -/
def setByteReg (c : Cpu) (n : Nat) (v : UInt8) : Cpu :=
  if n % 8 < 4 then
    let r := Reg.ofNumber n
    c.setReg r ((c.reg r &&& (0xFFFFFF00 : UInt32)) ||| v.toUInt32)
  else
    let r := Reg.ofNumber (n - 4)
    c.setReg r ((c.reg r &&& (0xFFFF00FF : UInt32)) ||| (v.toUInt32 <<< 8))

def skip (c : Cpu) (bytes : UInt32) : Cpu := { c with eip := c.eip + bytes }

/-- A string store of the accumulator. -/
def storeString (c : Cpu) (width : Width) (length : UInt32) : BusProgram Cpu := do
  store width (c.reg .edi) (c.reg .eax)
  return skip (c.setReg .edi (c.reg .edi + width.bytes.toUInt32)) length

/-- One instruction; `none` if it is none the stepper knows. -/
def instruction (c : Cpu) : BusProgram (Option (Cpu × Stepped)) := do
  let op ← readByte c.eip
  let go (p : BusProgram Cpu) : BusProgram (Option (Cpu × Stepped)) := do
    return some (← p, .proceed)
  if op = 0xF4 then return some (skip c 1, .halt)
  else if op = 0x90 then go (pure (skip c 1))
  else if 0x40 ≤ op ∧ op < 0x48 then
    let r := Reg.ofNumber op.toNat
    go (pure (skip (c.setReg r (c.reg r + 1)) 1))
  else if 0x48 ≤ op ∧ op < 0x50 then
    let r := Reg.ofNumber op.toNat
    go (pure (skip (c.setReg r (c.reg r - 1)) 1))
  else if 0xB0 ≤ op ∧ op < 0xB8 then go do
    let v ← readByte (c.eip + 1)
    return skip (setByteReg c op.toNat v) 2
  else if 0xB8 ≤ op ∧ op < 0xC0 then go do
    let v ← readWidth .long (c.eip + 1)
    return skip (c.setReg (.ofNumber op.toNat) v) 5
  else if op = 0xEB then go do
    let v ← readByte (c.eip + 1)
    return skip c (2 + v.toInt8.toInt32.toUInt32)
  else if op = 0xE9 then go do
    let v ← readWidth .long (c.eip + 1)
    return skip c (5 + v)
  else if op = 0xAA then go (storeString c .byte 1)
  else if op = 0xAB then go (storeString c .long 1)
  else if op = 0x66 then do
    let second ← readByte (c.eip + 1)
    if second = 0xAB then go (storeString c .word 2) else return none
  else return none

end Stepper

/-- The interpreter that halts, in place, at every instruction it does not
know. -/
def stepper : Interpreter Unit where
  step _ c := do
    match ← Stepper.instruction c with
    | some (c, outcome) => return ((), c, outcome)
    | none => return ((), c, .halt)

end Recompiler
