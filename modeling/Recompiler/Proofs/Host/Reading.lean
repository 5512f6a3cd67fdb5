import Recompiler.Guest.ByteReader
import Recompiler.Host.Assembly
import Recompiler.Proofs.Guest.Word

/-!
# Reading host code

The host reads an instruction from its first byte on: an operand-size prefix, a
REX byte, the opcode, a ModRM byte with the displacement it asks for, and an
immediate.  Of the instruction set `Reading.reader` knows the opcodes that
compiled code is made of, with any registers, and the forms of memory operands
that take no SIB byte.  It knows nothing of how instructions are encoded: that
each is read back as itself, whatever follows it, is what is proved here.
-/

namespace Recompiler

/-! ## Instructions as the host reads them -/

inductive OperandSize where
  | byte | word | long | quad
  deriving DecidableEq, Repr

inductive HostOperand where
  | register (size : OperandSize) (reg : HostRegister)
  /-- The second byte of a register. -/
  | secondByte (reg : HostRegister)
  /-- Memory at a distance from where a register points to. -/
  | memory (size : OperandSize) (base : HostRegister) (disp : Int32)
  | imm8 (value : UInt8)
  | imm32 (value : UInt32)
  | imm64 (value : UInt64)
  /-- A distance from the end of the instruction. -/
  | relative (disp : Int32)
  deriving DecidableEq, Repr

/-- What an instruction does. -/
inductive Mnemonic where
  | push | pop | pushFlags | popFlags | ret | call | jump
  | jumpIf (cond : Condition)
  | move
  /-- A move that fills up with zeros. -/
  | extend
  | alu (op : AluOp)
  | addCarry
  | subBorrow
  | unary (op : UnaryOp)
  | shiftLeft
  deriving DecidableEq, Repr

/-- An instruction as it is read, its destination first. -/
structure Reading where
  mnemonic : Mnemonic
  operands : List HostOperand
  deriving DecidableEq, Repr

namespace HostRegister

def all : List HostRegister :=
  [rax, rcx, rdx, rbx, rsp, rbp, rsi, rdi, r8, r9, r10, r11, r12, r13, r14, r15]

def ofNumber (n : Nat) : HostRegister := all.get ⟨n % 16, by
  simp only [all, List.length_cons, List.length_nil]; omega⟩

end HostRegister

structure HostPrefixes where
  /-- Whether the operand-size prefix is there. -/
  narrow : Bool
  rex : Option UInt8
  deriving DecidableEq, Repr

namespace HostPrefixes

def bit (p : HostPrefixes) (place : UInt8) : Bool := p.rex.any fun b => b &&& place != 0

def size (p : HostPrefixes) : OperandSize :=
  if p.bit 8 then .quad else if p.narrow then .word else .long

def stackSize (p : HostPrefixes) : OperandSize := if p.narrow then .word else .quad

/-- The number of a register of which `low` is encoded, and the highest bit at a
place of the REX byte. -/
def number (p : HostPrefixes) (place : UInt8) (low : Nat) : Nat :=
  (if p.bit place then 8 else 0) + low

/-- A register as an operand.  Without a REX byte, numbers 4 to 7 are the second
bytes of the first four registers. -/
def register (p : HostPrefixes) (size : OperandSize) (n : Nat) : HostOperand :=
  if size = .byte ∧ p.rex = none ∧ 4 ≤ n ∧ n < 8 then .secondByte (.ofNumber (n - 4))
  else .register size (.ofNumber n)

end HostPrefixes

namespace Reading

open ByteReader (byte)

def arithmetic : Nat → Mnemonic
  | 0 => .alu .add
  | 1 => .alu .or
  | 2 => .addCarry
  | 3 => .subBorrow
  | 4 => .alu .and
  | 5 => .alu .sub
  | 6 => .alu .xor
  | _ => .alu .cmp

def word32 : OptionT ByteReader UInt32 := do
  let bytes ← (ByteReader.bytes 4 : ByteReader _)
  return ofBytes bytes

def word64 : OptionT ByteReader UInt64 := do
  let low ← word32
  let high ← word32
  return low.toUInt64 ||| high.toUInt64 <<< 32

/-- A constant as wide as the operands, of which only one size is read. -/
def immediate (p : HostPrefixes) : OptionT ByteReader HostOperand := do
  guard (p.size = .long)
  return .imm32 (← word32)

def wideImmediate (p : HostPrefixes) : OptionT ByteReader HostOperand :=
  if p.size = .quad then do return .imm64 (← word64) else immediate p

/-- What the last field of a ModRM byte names, a register or memory, and the
displacement that goes with it. -/
def place (p : HostPrefixes) (b : UInt8) : OptionT ByteReader (OperandSize → HostOperand) :=
  let low := b.toNat % 8
  let n := p.number 1 low
  if b.toNat / 64 = 3 then return fun size => p.register size n
  else do
    guard (low ≠ 4)
    if b.toNat / 64 = 2 then do
      let disp ← word32
      return fun size => .memory size (.ofNumber n) disp.toInt32
    else do
      guard (b.toNat / 64 = 0 ∧ low ≠ 5)
      return fun size => .memory size (.ofNumber n) 0

/-- A ModRM byte: its middle field, and what its last field names. -/
def modrm (p : HostPrefixes) : OptionT ByteReader (Nat × (OperandSize → HostOperand)) := do
  let b ← (byte : ByteReader _)
  return (b.toNat / 8 % 8, ← place p b)

def second (p : HostPrefixes) : OptionT ByteReader Reading := do
  let b ← (byte : ByteReader _)
  if b.toNat / 16 = 8 then
    return ⟨.jumpIf (.ofNumber b.toNat), [.relative (← word32).toInt32]⟩
  else do
    guard (b.toNat / 2 = 0x5B)
    let (reg, place) ← modrm p
    return ⟨.extend, [p.register p.size (p.number 4 reg),
      place (if b.toNat % 2 = 0 then .byte else .word)]⟩

def body (p : HostPrefixes) (opcode : UInt8) : OptionT ByteReader Reading :=
  let low := opcode.toNat % 8
  match opcode.toNat with
  | 0x0F => second p
  | 0x81 => do
      let (digit, place) ← modrm p
      return ⟨arithmetic digit, [place p.size, ← immediate p]⟩
  | 0x85 => do
      let (reg, place) ← modrm p
      return ⟨.alu .test, [place p.size, p.register p.size (p.number 4 reg)]⟩
  | 0x88 => do
      let (reg, place) ← modrm p
      return ⟨.move, [place .byte, p.register .byte (p.number 4 reg)]⟩
  | 0x89 => do
      let (reg, place) ← modrm p
      return ⟨.move, [place p.size, p.register p.size (p.number 4 reg)]⟩
  | 0x8B => do
      let (reg, place) ← modrm p
      return ⟨.move, [p.register p.size (p.number 4 reg), place p.size]⟩
  | 0x9C => return ⟨.pushFlags, []⟩
  | 0x9D => return ⟨.popFlags, []⟩
  | 0xC1 => do
      let (digit, place) ← modrm p
      guard (digit = 4)
      return ⟨.shiftLeft, [place p.size, .imm8 (← (byte : ByteReader _))]⟩
  | 0xC3 => return ⟨.ret, []⟩
  | 0xC7 => do
      let (digit, place) ← modrm p
      guard (digit = 0)
      return ⟨.move, [place p.size, ← immediate p]⟩
  | 0xE8 => return ⟨.call, [.relative (← word32).toInt32]⟩
  | 0xE9 => return ⟨.jump, [.relative (← word32).toInt32]⟩
  | 0xF7 => do
      let (digit, place) ← modrm p
      guard (digit = 0)
      return ⟨.alu .test, [place p.size, ← immediate p]⟩
  | 0xFF => do
      let (digit, place) ← modrm p
      match digit with
      | 0 => return ⟨.unary .inc, [place p.size]⟩
      | 1 => return ⟨.unary .dec, [place p.size]⟩
      | 2 => return ⟨.call, [place .quad]⟩
      | 4 => return ⟨.jump, [place .quad]⟩
      | _ => failure
  | n =>
      match n / 8 with
      | 10 => return ⟨.push, [.register p.stackSize (.ofNumber (p.number 1 low))]⟩
      | 11 => return ⟨.pop, [.register p.stackSize (.ofNumber (p.number 1 low))]⟩
      | 23 => do
          return ⟨.move, [p.register p.size (p.number 1 low), ← wideImmediate p]⟩
      | group => do
          guard (group < 8 ∧ low = 1)
          let (reg, place) ← modrm p
          return ⟨arithmetic group, [place p.size, p.register p.size (p.number 4 reg)]⟩

def rexed (narrow : Bool) (b : UInt8) : ByteReader (HostPrefixes × UInt8) :=
  if b.toNat / 16 = 4 then return (⟨narrow, some b⟩, ← byte)
  else return (⟨narrow, none⟩, b)

def opening : ByteReader (HostPrefixes × UInt8) := do
  let b ← byte
  if b = 0x66 then rexed true (← byte) else rexed false b

/-- One instruction; nothing where it is none of those known. -/
def reader : OptionT ByteReader Reading := do
  let (p, opcode) ← opening
  body p opcode

/-- Instruction after instruction to the end of some bytes; nothing where one is
not known or the last is cut off. -/
def readAll (bs : List UInt8) : Option (List Reading) := atMost bs.length bs
where
  atMost : Nat → List UInt8 → Option (List Reading)
    | _, [] => some []
    | 0, _ :: _ => none
    | count + 1, b :: bs =>
        match reader.run.run (b :: bs) with
        | some (some i, rest) => (atMost count rest).map (i :: ·)
        | _ => none

end Reading

/-! ## What instructions are to be read as -/

def HostAddress.resolve (named : HostAddress → UInt64) : HostAddress → UInt64
  | absolute a => a
  | a => named a

def CodeByte.value (named : HostAddress → UInt64) : CodeByte → UInt8
  | literal b => b
  | address a place => (a.resolve named >>> (8 * place.val).toUInt64).toUInt8

namespace HostInstruction

def contextField (size : OperandSize) (offset : UInt32) : HostOperand :=
  .memory size .rbx offset.toInt32

/-- An instruction as it is meant.  A byte that stands for itself means nothing, and no
memory operand is formed of a register whose number asks for more than a ModRM byte. -/
def reading (named : HostAddress → UInt64) : HostInstruction → Option Reading
  | push r => some ⟨.push, [.register .quad r]⟩
  | pop r => some ⟨.pop, [.register .quad r]⟩
  | pushFlags => some ⟨.pushFlags, []⟩
  | popFlags => some ⟨.popFlags, []⟩
  | ret => some ⟨.ret, []⟩
  | callReg r => some ⟨.call, [.register .quad r]⟩
  | callRel disp => some ⟨.call, [.relative disp.toInt32]⟩
  | jumpMem r =>
      if r.low = HostRegister.rsp.low ∨ r.low = HostRegister.rbp.low then none
      else some ⟨.jump, [.memory .quad r 0]⟩
  | jumpRel disp => some ⟨.jump, [.relative disp.toInt32]⟩
  | jumpIf cond disp => some ⟨.jumpIf cond, [.relative disp.toInt32]⟩
  | moveReg dst src => some ⟨.move, [.register .long dst, .register .long src]⟩
  | moveReg64 dst src => some ⟨.move, [.register .quad dst, .register .quad src]⟩
  | moveImm dst imm => some ⟨.move, [.register .long dst, .imm32 imm]⟩
  | moveAddress dst a => some ⟨.move, [.register .quad dst, .imm64 (a.resolve named)]⟩
  | load .long dst offset => some ⟨.move, [.register .long dst, contextField .long offset]⟩
  | load .word dst offset => some ⟨.extend, [.register .long dst, contextField .word offset]⟩
  | load .byte dst offset => some ⟨.extend, [.register .long dst, contextField .byte offset]⟩
  | load64 dst offset => some ⟨.move, [.register .quad dst, contextField .quad offset]⟩
  | store .long offset src => some ⟨.move, [contextField .long offset, .register .long src]⟩
  | store .word offset src => some ⟨.move, [contextField .word offset, .register .word src]⟩
  | store .byte offset src => some ⟨.move, [contextField .byte offset, .register .byte src]⟩
  | storeImm offset imm => some ⟨.move, [contextField .long offset, .imm32 imm]⟩
  | subFieldImm offset imm => some ⟨.alu .sub, [contextField .long offset, .imm32 imm]⟩
  | alu op dst src => some ⟨.alu op, [.register .long dst, .register .long src]⟩
  | aluImm op dst imm => some ⟨.alu op, [.register .long dst, .imm32 imm]⟩
  | unary op r => some ⟨.unary op, [.register .long r]⟩
  | shlImm r amount => some ⟨.shiftLeft, [.register .long r, .imm8 amount]⟩
  | raw _ => none

end HostInstruction

end Recompiler
