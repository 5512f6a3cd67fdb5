import Recompiler.Host.Operation

/-!
# Host instructions and their encoding

The x86-64 instructions that operations come to, and the code bytes of each:
an optional operand-size prefix, an optional REX byte, the opcode, a ModRM
byte, a 32-bit displacement and an immediate.  Memory operands are fields of
the context, whose base register needs no SIB byte.
-/

namespace Recompiler

/-- The host's general registers, in encoding order.  `rbx` is the base of the
context for as long as compiled code runs. -/
inductive HostRegister where
  | rax | rcx | rdx | rbx | rsp | rbp | rsi | rdi
  | r8 | r9 | r10 | r11 | r12 | r13 | r14 | r15
  deriving DecidableEq, Repr

namespace HostRegister

def number : HostRegister → Nat
  | rax => 0
  | rcx => 1
  | rdx => 2
  | rbx => 3
  | rsp => 4
  | rbp => 5
  | rsi => 6
  | rdi => 7
  | r8 => 8
  | r9 => 9
  | r10 => 10
  | r11 => 11
  | r12 => 12
  | r13 => 13
  | r14 => 14
  | r15 => 15

/-- The bits of a register's number that a ModRM byte or an opcode holds. -/
def low (r : HostRegister) : UInt8 := (r.number % 8).toUInt8

/-- The bit of a register's number that a REX byte holds. -/
def high (r : HostRegister) : UInt8 := (r.number / 8).toUInt8

end HostRegister

/-- A byte of host code: a literal byte, or one byte of an address that is
only known by name, the lowest first. -/
inductive CodeByte where
  | literal (byte : UInt8)
  | address (of : HostAddress) (place : Fin 8)
  deriving DecidableEq, Repr

inductive HostInstruction where
  | push (reg : HostRegister)
  | pop (reg : HostRegister)
  | pushFlags
  | popFlags
  | ret
  | callReg (reg : HostRegister)
  | callRel (disp : UInt32)
  /-- A jump to the address in memory that a register points to. -/
  | jumpMem (reg : HostRegister)
  | jumpRel (disp : UInt32)
  | jumpIf (cond : Condition) (disp : UInt32)
  | moveReg (dst src : HostRegister)
  | moveReg64 (dst src : HostRegister)
  | moveImm (dst : HostRegister) (imm : UInt32)
  | moveAddress (dst : HostRegister) (addr : HostAddress)
  /-- Loads from a field of the context, extended by zeros. -/
  | load (width : Width) (dst : HostRegister) (offset : UInt32)
  | load64 (dst : HostRegister) (offset : UInt32)
  | store (width : Width) (offset : UInt32) (src : HostRegister)
  | storeImm (offset imm : UInt32)
  | subFieldImm (offset imm : UInt32)
  | alu (op : AluOp) (dst src : HostRegister)
  | aluImm (op : AluOp) (dst : HostRegister) (imm : UInt32)
  | unary (op : UnaryOp) (reg : HostRegister)
  | shlImm (reg : HostRegister) (amount : UInt8)
  /-- A byte that stands for itself. -/
  | raw (byte : UInt8)
  deriving DecidableEq, Repr

namespace HostInstruction

def bytes32 (w : UInt32) : List UInt8 := (List.range 4).map (byteAt w)

def bytes64 (w : UInt64) : List UInt8 :=
  (List.range 8).map fun i => (w >>> (8 * i).toUInt64).toUInt8

/-- The REX byte for a wide operand, a register in the ModRM byte's middle
field and one in its last, unless it says nothing. -/
def rex (wide : Bool) (reg rm : HostRegister) : List UInt8 :=
  let b : UInt8 := 0x40 ||| (if wide then 8 else 0) ||| 4 * reg.high ||| rm.high
  if b = 0x40 then [] else [b]

/-- The REX byte where the middle field is an 8-bit register: numbers 4 to 7
need one even if it says nothing. -/
def rexByte (reg rm : HostRegister) : List UInt8 :=
  let b : UInt8 := 0x40 ||| 4 * reg.high ||| rm.high
  if b = 0x40 ∧ ¬ (4 ≤ reg.number ∧ reg.number < 8) then [] else [b]

def modrm (mode reg rm : UInt8) : UInt8 := 64 * mode + 8 * reg + rm

def field (reg : UInt8) (offset : UInt32) : List UInt8 :=
  modrm 2 reg HostRegister.rbx.low :: bytes32 offset

def aluOpcode : AluOp → UInt8
  | .add => 0x01
  | .or => 0x09
  | .and => 0x21
  | .sub => 0x29
  | .xor => 0x31
  | .cmp => 0x39
  | .test => 0x85

/-- The opcode of an operation with a constant, and the middle field that
goes with it. -/
def aluImmOpcode : AluOp → UInt8 × UInt8
  | .add => (0x81, 0)
  | .or => (0x81, 1)
  | .and => (0x81, 4)
  | .sub => (0x81, 5)
  | .xor => (0x81, 6)
  | .cmp => (0x81, 7)
  | .test => (0xF7, 0)

/-- The bytes of an instruction that are literal. -/
def literalBytes : HostInstruction → List UInt8
  | push r => rex false .rax r ++ [0x50 + r.low]
  | pop r => rex false .rax r ++ [0x58 + r.low]
  | pushFlags => [0x9C]
  | popFlags => [0x9D]
  | ret => [0xC3]
  | callReg r => rex false .rax r ++ [0xFF, modrm 3 2 r.low]
  | callRel disp => 0xE8 :: bytes32 disp
  | jumpMem r => rex false .rax r ++ [0xFF, modrm 0 4 r.low]
  | jumpRel disp => 0xE9 :: bytes32 disp
  | jumpIf cond disp => [0x0F, 0x80 ||| cond.number.toUInt8] ++ bytes32 disp
  | moveReg dst src => rex false src dst ++ [0x89, modrm 3 src.low dst.low]
  | moveReg64 dst src => rex true src dst ++ [0x89, modrm 3 src.low dst.low]
  | moveImm dst imm => rex false .rax dst ++ [0xB8 + dst.low] ++ bytes32 imm
  | moveAddress dst _ => rex true .rax dst ++ [0xB8 + dst.low]
  | load .long dst offset => rex false dst .rbx ++ [0x8B] ++ field dst.low offset
  | load .word dst offset => rex false dst .rbx ++ [0x0F, 0xB7] ++ field dst.low offset
  | load .byte dst offset => rex false dst .rbx ++ [0x0F, 0xB6] ++ field dst.low offset
  | load64 dst offset => rex true dst .rbx ++ [0x8B] ++ field dst.low offset
  | store .long offset src => rex false src .rbx ++ [0x89] ++ field src.low offset
  | store .word offset src => 0x66 :: rex false src .rbx ++ [0x89] ++ field src.low offset
  | store .byte offset src => rexByte src .rbx ++ [0x88] ++ field src.low offset
  | storeImm offset imm => [0xC7] ++ field 0 offset ++ bytes32 imm
  | subFieldImm offset imm => [0x81] ++ field 5 offset ++ bytes32 imm
  | alu op dst src => rex false src dst ++ [aluOpcode op, modrm 3 src.low dst.low]
  | aluImm op dst imm =>
      rex false .rax dst ++ [(aluImmOpcode op).1, modrm 3 (aluImmOpcode op).2 dst.low] ++
        bytes32 imm
  | unary .inc r => rex false .rax r ++ [0xFF, modrm 3 0 r.low]
  | unary .dec r => rex false .rax r ++ [0xFF, modrm 3 1 r.low]
  | shlImm r amount => rex false .rax r ++ [0xC1, modrm 3 4 r.low, amount]
  | raw b => [b]

def addressBytes : HostAddress → List CodeByte
  | .absolute a => (bytes64 a).map .literal
  | a => (List.finRange 8).map (.address a)

def encode (i : HostInstruction) : List CodeByte :=
  i.literalBytes.map .literal ++
    match i with
    | moveAddress _ a => addressBytes a
    | _ => []

@[simp] theorem length_bytes32 (w : UInt32) : (bytes32 w).length = 4 := rfl

@[simp] theorem length_addressBytes (a : HostAddress) :
    (addressBytes a).length = 8 := by
  cases a <;> simp [addressBytes, bytes64]

end HostInstruction

end Recompiler
