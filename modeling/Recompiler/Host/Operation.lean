import Recompiler.Arithmetic
import Recompiler.Block
import Recompiler.Guest.Bus
import Recompiler.Guest.Cpu

/-!
# Host operations

Code generation speaks of the host in operations: what a short run of host
instructions is for, with registers named by role.  A compiled block is a list
of operations.  `Host.Assembly` says which host instructions an operation
stands for, `Host.Machine` what it does.
-/

namespace Recompiler

inductive Role where
  /-- The result of a call, and the accumulator. -/
  | ret
  | op1
  | op2
  /-- The effective address of an access to guest memory. -/
  | addr
  | temp
  deriving DecidableEq, Repr

inductive Helper where
  | read32
  | write (width : Width)
  deriving DecidableEq, Repr

/-- Where a call or an indirect jump goes on the host: a number, or an address
that is only known by name. -/
inductive HostAddress where
  | absolute (addr : UInt64)
  | helper (h : Helper)
  /-- The place that holds where an exit of a block leads. -/
  | exitSlot (block : BlockId) (slot : Slot)
  deriving DecidableEq, Repr

inductive BranchCondition where
  | always
  | nonZero (reg : Role)
  /-- At most zero, as a signed number. -/
  | lessOrEqualZero (reg : Role)
  /-- A condition on the host flags. -/
  | guest (cond : Condition)
  deriving DecidableEq, Repr

/-- One step of code generation.  Offsets are into the context. -/
inductive Operation where
  /-- The stub through which the dispatcher enters compiled code. -/
  | enter
  /-- Leaves compiled code. -/
  | leave (code : ReturnCode)
  | move (dst src : Role)
  | moveImm (dst : Role) (imm : UInt32)
  /-- A load from the context, extended by zeros. -/
  | loadContext (dst : Role) (offset : UInt32) (width : Width)
  | storeContext (src : Role) (offset : UInt32) (width : Width)
  | storeContextImm (offset imm : UInt32)
  | subContextImm (offset imm : UInt32)
  | alu (op : AluOp) (dst src : Role)
  | aluImm (op : AluOp) (dst : Role) (imm : UInt32)
  | unary (op : UnaryOp) (reg : Role)
  | shlImm (reg : Role) (amount : UInt8)
  /-- Puts the host's arithmetic flags into the flags word in the context. -/
  | saveFlags (offset : UInt32)
  /-- Loads the host's arithmetic flags from the flags word in the context. -/
  | loadFlags (offset : UInt32)
  /-- Parameters of the next call. -/
  | paramRole (param : Fin 4) (src : Role)
  | paramImm (param : Fin 4) (imm : UInt32)
  /-- A parameter that is the pointer-sized field of the context at an
  offset. -/
  | paramPointer (param : Fin 4) (offset : UInt32)
  | call (target : HostAddress)
  /-- A forward branch to a label. -/
  | branch (cond : BranchCondition) (label : Nat)
  /-- The place of a label. -/
  | place (label : Nat)
  /-- A jump to the address held at a place. -/
  | jumpThrough (slot : HostAddress)
  /-- A literal byte. -/
  | literal (byte : UInt8)
  deriving DecidableEq, Repr

/-! ## Offsets of the fields of the context -/

namespace Field

def regs : UInt32 := 0

def eip : UInt32 := 32

def eflags : UInt32 := 36

def cycles : UInt32 := 40

def running : UInt32 := 44

def callback : UInt32 := 48

/-- The handle that calls pass back, eight bytes wide. -/
def owner : UInt32 := 56

def contextSize : UInt32 := 64

def reg (r : Reg) : UInt32 := regs + 4 * r.index.val.toUInt32

/-- The field of an 8-bit register: the low or the second byte. -/
def byteReg (r : Reg) (high : Bool) : UInt32 := reg r + if high then 1 else 0

end Field

end Recompiler
