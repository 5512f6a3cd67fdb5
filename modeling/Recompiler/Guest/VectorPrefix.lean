import Recompiler.Guest.EvexMap
import Recompiler.Guest.VexMap

/-!
# Vector prefixes

Four opcodes start the prefix of a vector instruction, if the byte after them
is no ModRM byte of the instruction they once were.  The prefix names an opcode
map and says what selects among the instructions of an opcode.
-/

namespace Recompiler

/-- The prefixed encodings of vector instructions. -/
inductive VectorPrefix where
  /-- Two bytes, map 1. -/
  | vex2
  /-- Three bytes. -/
  | vex3
  | xop
  /-- Four bytes. -/
  | evex
  deriving DecidableEq, Repr

namespace VectorPrefix

def ofOpcode? : Nat → Option VectorPrefix
  | 0x62 => some .evex
  | 0x8F => some .xop
  | 0xC4 => some .vex3
  | 0xC5 => some .vex2
  | _ => none

/-- Whether the byte after the opcode belongs to the prefix: read as a ModRM
byte it names a register where only memory is defined, or an extension that is
not defined. -/
def opens : VectorPrefix → ModRM → Bool
  | xop, m => m.reg % 4 ≠ 0
  | _, m => m.isRegister

def tail : VectorPrefix → ModRM → Tail
  | xop => .within [0] .any .none
  | _ => .any .none

def extraLength : VectorPrefix → Nat
  | vex2 => 0
  | vex3 | xop => 1
  | evex => 2

end VectorPrefix

def Selector.ofNumber (n : Nat) : Selector :=
  match n % 4 with
  | 0 => .plain
  | 1 => .p66
  | 2 => .pF3
  | _ => .pF2

/-- The map that a vector prefix names and what it selects. -/
structure VectorHeader where
  kind : VectorPrefix
  /-- Absent where reserved bits are in use. -/
  opcodeMap : Option Nat
  selection : Selection
  deriving DecidableEq, Repr

namespace VectorHeader

def ofBytes (kind : VectorPrefix) (first : Nat) (extra : List Nat) : VectorHeader :=
  match kind, extra with
  | .vex3, [b] | .xop, [b] =>
      ⟨kind, some (first % 32), .ofNumber b, b / 4 % 2, b / 128 = 1, false⟩
  | .evex, [b, c] =>
      let reserved := first / 8 % 2 = 1 ∨ b / 4 % 2 = 0
      ⟨kind, if reserved then none else some (first % 8),
        .ofNumber b, c / 32 % 4, b / 128 = 1, c / 16 % 2 = 1⟩
  | _, _ => ⟨kind, some 1, .ofNumber first, first / 4 % 2, false, false⟩

/-- The rows of the map a header names; `none` where there is no such map. -/
def rows? (h : VectorHeader) : Option (List OpcodeRow) :=
  match h.kind, h.opcodeMap with
  | .vex2, some 1 | .vex3, some 1 => some vexRows1
  | .vex2, some 2 | .vex3, some 2 => some vexRows2
  | .vex2, some 3 | .vex3, some 3 => some vexRows3
  | .xop, some 8 => some xopRows8
  | .xop, some 9 => some xopRows9
  | .xop, some 10 => some xopRows10
  | .evex, some 1 => some evexRows1
  | .evex, some 2 => some evexRows2
  | .evex, some 3 => some evexRows3
  | .evex, some 5 => some evexRows5
  | .evex, some 6 => some evexRows6
  | _, _ => none

/-- What follows an opcode after a vector prefix.  Where there is no map the
instruction ends with its opcode, except that an EVEX prefix always has a ModRM
byte; and one opcode of VEX map 1 has none. -/
def form (h : VectorHeader) (op : Nat) : Form :=
  match h.rows? with
  | some rows =>
      if h.kind ≠ .evex ∧ h.opcodeMap = some 1 ∧ op = 0x77 then .plain .none
      else .modrm (tailIn rows op h.selection)
  | none => if h.kind = .evex then .modrm .undefined else .plain .none

end VectorHeader

end Recompiler
