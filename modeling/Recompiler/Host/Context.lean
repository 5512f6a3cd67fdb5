import Recompiler.Block
import Recompiler.Guest.Bus
import Recompiler.Guest.Cpu

/-!
# The context

What dispatcher and compiled code share: the guest's registers, the remaining
cycle budget, the block entered last, the vector of the last software interrupt,
and the handle of the emulator that compiled code passes to what it calls.
Compiled code sees all but the handle as numbered 32-bit words, four bytes apart.
-/

namespace Recompiler

/-- The word that stands for no block. -/
def noBlock : UInt32 := 0xFFFFFFFF

/-- The state that compiled code runs against. -/
structure Context where
  cpu : Cpu := {}
  /-- Remaining cycle budget; blocks subtract what they ran when they are
  left. -/
  cycles : Int32 := 0
  running : UInt32 := noBlock
  callback : UInt32 := 0
  /-- Whether the handle is there, as it is while compiled code runs. -/
  owner : Bool := false
  deriving DecidableEq, Repr

namespace Context

def word (c : Context) (n : Nat) : UInt32 :=
  if h : n < 8 then c.cpu.regs[n]
  else if n = 8 then c.cpu.eip
  else if n = 9 then c.cpu.eflags
  else if n = 10 then c.cycles.toUInt32
  else if n = 11 then c.running
  else if n = 12 then c.callback
  else 0

/-- The context with one word changed; a number that is no field's changes
nothing. -/
def setWord (c : Context) (n : Nat) (v : UInt32) : Context :=
  if h : n < 8 then { c with cpu := { c.cpu with regs := c.cpu.regs.set n v } }
  else if n = 8 then { c with cpu := { c.cpu with eip := v } }
  else if n = 9 then { c with cpu := { c.cpu with eflags := v } }
  else if n = 10 then { c with cycles := v.toInt32 }
  else if n = 11 then { c with running := v }
  else if n = 12 then { c with callback := v }
  else c

/-- What an access of a width at an offset reads; it lies within a word. -/
def load (c : Context) (offset : UInt32) (width : Width) : UInt32 :=
  width.truncate (c.word (offset.toNat / 4) >>> (8 * (offset % 4)))

/-- The context after an access of a width at an offset wrote `v`; it lies
within a word. -/
def store (c : Context) (offset : UInt32) (width : Width) (v : UInt32) : Context :=
  let n := offset.toNat / 4
  let shift := 8 * (offset % 4)
  let kept := c.word n &&& ~~~(width.truncate 0xFFFFFFFF <<< shift)
  c.setWord n (kept ||| (width.truncate v <<< shift))

def running? (c : Context) : Option BlockId :=
  if c.running = noBlock then none else some (.ofWord c.running)

end Context

end Recompiler
