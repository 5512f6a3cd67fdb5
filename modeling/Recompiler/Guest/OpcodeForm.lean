/-!
# What may follow an opcode

The parts of an encoding after its opcode: the ModRM byte, what a ModRM byte
has after it, and immediates.  The larger opcode maps are lists of rows; a row
defines some opcodes under some choices of prefix, vector length and width,
and `tailIn` looks a choice up.  What no row defines ends with its ModRM byte.
-/

namespace Recompiler

structure ModRM where
  mode : Nat
  reg : Nat
  rm : Nat
  deriving DecidableEq, Repr

namespace ModRM

def ofByte (b : UInt8) : ModRM :=
  ⟨b.toNat / 64, b.toNat / 8 % 8, b.toNat % 8⟩

def isRegister (m : ModRM) : Bool := m.mode = 3

end ModRM

inductive Immediate where
  | none | byte | word | long
  /-- A word of the operand size. -/
  | operand
  /-- A far pointer: operand and segment. -/
  | far
  /-- An absolute address. -/
  | address
  /-- A word and a byte. -/
  | frame
  deriving DecidableEq, Repr

/-- The length of an immediate; 16-bit operands and addresses shorten it. -/
def Immediate.length (short16 address16 : Bool) : Immediate → Nat
  | none => 0
  | byte => 1
  | word => 2
  | long => 4
  | operand => if short16 then 2 else 4
  | far => if short16 then 4 else 6
  | address => if address16 then 2 else 4
  | frame => 3

/-- What an encoding has after its ModRM byte. -/
inductive Tail where
  /-- Nothing, not even the operand the ModRM byte names: the form is
  undefined. -/
  | ends
  /-- The memory operand of the ModRM byte, if it names one, and an
  immediate. -/
  | operand (imm : Immediate)
  /-- An immediate alone: there is no form with a memory operand, and the
  ModRM byte is not followed for one. -/
  | bare (imm : Immediate)
  deriving DecidableEq, Repr

namespace Tail

def any (imm : Immediate) (_ : ModRM) : Tail := operand imm

def memory (imm : Immediate) (m : ModRM) : Tail :=
  if m.isRegister then ends else operand imm

def register (imm : Immediate) (m : ModRM) : Tail :=
  if m.isRegister then operand imm else ends

/-- Register operands are defined; a memory operand is not read, but the
immediate is there. -/
def unread (imm : Immediate) (_ : ModRM) : Tail := bare imm

/-- The ModRM bytes that extend an opcode by one of some numbers. -/
def within (extensions : List Nat) (tail : Immediate → ModRM → Tail)
    (imm : Immediate) (m : ModRM) : Tail :=
  if extensions.contains m.reg then tail imm m else ends

def undefined (_ : ModRM) : Tail := ends

end Tail

/-- What follows an opcode. -/
inductive Form where
  /-- An immediate and no ModRM byte. -/
  | plain (imm : Immediate)
  /-- A ModRM byte and its tail. -/
  | modrm (tail : ModRM → Tail)

/-! ## Rows of an opcode map -/

/-- The prefix that selects among the instructions of an opcode. -/
inductive Selector where
  | plain | p66 | pF3 | pF2
  deriving DecidableEq, Repr

/-- What an encoding says besides its opcode. -/
structure Selection where
  selector : Selector
  /-- The vector length in powers of two above 128 bits; 3 stands for none. -/
  length : Nat := 0
  /-- Whether elements or registers have 64 bits. -/
  wide : Bool := false
  /-- Whether a register form rounds in a way of its own and so has the
  greatest length. -/
  rounding : Bool := false
  deriving DecidableEq, Repr

/-- The opcodes of a map that share a form under the same choices. -/
structure OpcodeRow where
  opcodes : List Nat
  selectors : List Selector := [.p66]
  lengths : List Nat := [0, 1, 2]
  /-- The width that is required, if one is. -/
  wide : Option Bool := none
  /-- Whether register forms may round in a way of their own. -/
  rounds : Bool := false
  tail : Immediate → ModRM → Tail := .any
  imm : Immediate := .none

namespace OpcodeRow

def anySelector : List Selector := [.plain, .p66, .pF3, .pF2]

def anyLength : List Nat := [0, 1, 2, 3]

def accepts (r : OpcodeRow) (op : Nat) (s : Selection) (m : ModRM) : Bool :=
  r.opcodes.contains op && r.selectors.contains s.selector &&
    (r.lengths.contains s.length || r.rounds && s.rounding && m.isRegister) &&
    r.wide.all (· == s.wide) && r.tail r.imm m ≠ .ends

/-- The rows of a map whose instructions all have the same immediate. -/
def withImmediate (imm : Immediate) (rows : List OpcodeRow) : List OpcodeRow :=
  rows.map fun r => { r with imm }

end OpcodeRow

def opcodes (first last : Nat) : List Nat := List.range' first (last + 1 - first)

/-- What a ModRM byte has after it, by the first row that defines it. -/
def tailIn (rows : List OpcodeRow) (op : Nat) (s : Selection) (m : ModRM) : Tail :=
  match rows.find? (·.accepts op s m) with
  | some r => r.tail r.imm m
  | none => .ends

end Recompiler
