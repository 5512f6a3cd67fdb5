import Recompiler.Guest.OpcodeForm

/-!
# Opcodes without a vector prefix

For every opcode of the guest's maps in 32-bit mode, what the encoding has after
it: a ModRM byte or none, which ModRM bytes are defined, and how long the
immediate is.  Opcodes of three bytes all have a ModRM byte; those after `0F 3A`
have an immediate byte too.
-/

namespace Recompiler

open OpcodeRow (anySelector)

private def only (test : ModRM → Bool) (imm : Immediate) : Form :=
  .modrm fun m => if test m then .operand imm else .ends

/-- A coprocessor opcode.  Some extensions of memory operands are undefined;
the register forms that only few coprocessors know are undefined too, and
count one byte more. -/
private def coprocessor (noMemory : List Nat) (rare : List (Nat × Nat)) : Form :=
  .modrm fun m =>
    if m.isRegister then
      if rare.contains (m.reg, m.rm) then .bare .byte else .operand .none
    else if noMemory.contains m.reg then .ends
    else .operand .none

/-- The form of a one-byte opcode.  Prefixes, vector prefixes and the escape
to the second map are not looked up here. -/
def oneByteForm (op : Nat) : Form :=
  if op < 0x40 then
    match op % 8 with
    | 4 => .plain .byte
    | 5 => .plain .operand
    | 6 | 7 => .plain .none
    | _ => .modrm (.any .none)
  else if op < 0x62 then .plain .none
  else if 0x70 ≤ op ∧ op < 0x80 then .plain .byte
  else if 0x90 ≤ op ∧ op < 0xA0 ∧ op ≠ 0x9A then .plain .none
  else if 0xB0 ≤ op ∧ op < 0xB8 then .plain .byte
  else if 0xB8 ≤ op ∧ op < 0xC0 then .plain .operand
  else match op with
    | 0x63 => .modrm (.any .none)
    | 0x68 => .plain .operand
    | 0x69 => .modrm (.any .operand)
    | 0x6A => .plain .byte
    | 0x6B => .modrm (.any .byte)
    | 0x80 | 0x82 | 0x83 => .modrm (.any .byte)
    | 0x81 => .modrm (.any .operand)
    | 0x84 | 0x85 | 0x86 | 0x87 | 0x88 | 0x89 | 0x8A | 0x8B | 0x8C | 0x8E =>
        .modrm (.any .none)
    | 0x8D => .modrm (.memory .none)
    | 0x9A | 0xEA => .plain .far
    | 0xA0 | 0xA1 | 0xA2 | 0xA3 => .plain .address
    | 0xA8 => .plain .byte
    | 0xA9 => .plain .operand
    | 0xC0 | 0xC1 => .modrm (.any .byte)
    | 0xC2 | 0xCA => .plain .word
    | 0xC6 => only (fun m => m.reg = 0 ∨ m = ⟨3, 7, 0⟩) .byte
    | 0xC7 => only (fun m => m.reg = 0 ∨ m = ⟨3, 7, 0⟩) .operand
    | 0xC8 => .plain .frame
    | 0xCD => .plain .byte
    | 0xD0 | 0xD1 | 0xD2 | 0xD3 => .modrm (.any .none)
    | 0xD4 | 0xD5 => .plain .byte
    | 0xD8 | 0xDA | 0xDC => coprocessor [] []
    | 0xD9 => coprocessor [1] [(2, 7), (4, 2), (4, 6), (4, 7)]
    | 0xDB => coprocessor [4, 6] [(4, 5), (7, 4)]
    | 0xDD => coprocessor [5] [(7, 4)]
    | 0xDE => coprocessor [] [(3, 0), (3, 2), (3, 4), (3, 5), (3, 6)]
    | 0xDF => coprocessor [] [(4, 1), (4, 2), (7, 4)]
    | 0xE0 | 0xE1 | 0xE2 | 0xE3 | 0xE4 | 0xE5 | 0xE6 | 0xE7 | 0xEB =>
        .plain .byte
    | 0xE8 | 0xE9 => .plain .operand
    | 0xF6 => .modrm fun m => .operand (if m.reg < 2 then .byte else .none)
    | 0xF7 => .modrm fun m => .operand (if m.reg < 2 then .operand else .none)
    | 0xFE => only (fun m => m.reg < 2) .none
    | 0xFF => only (fun m => m.reg < 7) .none
    | _ => .plain .none

def twoByteAlone : List Nat :=
  opcodes 0x05 0x09 ++ [0x0B, 0x0E] ++ opcodes 0x30 0x35 ++ [0x37, 0x77] ++
    opcodes 0xA0 0xA2 ++ opcodes 0xA8 0xAA ++ opcodes 0xC8 0xCF

/-- The opcodes of the second map under their selecting prefixes. -/
def twoByteRows : List OpcodeRow := [
  { opcodes := [0x00], selectors := anySelector, tail := .within [0, 1, 2, 3, 4, 5] .any },
  { opcodes := [0x01], selectors := anySelector,
    tail := fun _ m => if m = ⟨3, 7, 0⟩ then .bare .byte else .ends },
  { opcodes := [0x01], selectors := anySelector, tail := .within [0, 1, 2, 3, 4, 6, 7] .any },
  { opcodes := [0x01], selectors := [.pF3], tail := .within [5] .any },
  { opcodes := [0x02, 0x03, 0x0D], selectors := anySelector },
  { opcodes := [0x0F], selectors := anySelector, imm := .byte },
  { opcodes := [0x10, 0x11], selectors := anySelector },
  { opcodes := [0x12], selectors := [.plain, .pF3, .pF2] },
  { opcodes := [0x12, 0x13, 0x16, 0x17], tail := .memory },
  { opcodes := [0x13, 0x17], selectors := [.plain], tail := .memory },
  { opcodes := [0x14, 0x15], selectors := [.plain, .p66] },
  { opcodes := [0x16], selectors := [.plain, .pF3] },
  { opcodes := opcodes 0x18 0x1F, selectors := anySelector },
  { opcodes := [0x28, 0x29], selectors := [.plain, .p66] },
  { opcodes := [0x2A, 0x2C, 0x2D], selectors := anySelector },
  { opcodes := [0x2B], selectors := anySelector, tail := .memory },
  { opcodes := [0x2E, 0x2F], selectors := [.plain, .p66] },
  { opcodes := opcodes 0x40 0x4F, selectors := anySelector },
  { opcodes := [0x51, 0x58, 0x59, 0x5A, 0x5C, 0x5D, 0x5E, 0x5F], selectors := anySelector },
  { opcodes := [0x52, 0x53], selectors := [.plain, .pF3] },
  { opcodes := opcodes 0x54 0x57, selectors := [.plain, .p66] },
  { opcodes := [0x5B], selectors := [.plain, .p66, .pF3] },
  { opcodes := opcodes 0x60 0x6B ++ [0x6E], selectors := [.plain, .p66] },
  { opcodes := [0x6C, 0x6D] },
  { opcodes := [0x6F, 0x7E, 0x7F], selectors := [.plain, .p66, .pF3] },
  { opcodes := [0x70], selectors := anySelector, imm := .byte },
  { opcodes := [0x71, 0x72], selectors := [.plain, .p66],
    tail := .within [2, 4, 6] .unread, imm := .byte },
  { opcodes := [0x73], selectors := [.plain], tail := .within [2, 6] .unread, imm := .byte },
  { opcodes := [0x73], tail := .within [2, 3, 6, 7] .unread, imm := .byte },
  { opcodes := [0x74, 0x75, 0x76], selectors := [.plain, .p66] },
  { opcodes := [0x78, 0x79], selectors := [.plain] },
  { opcodes := [0x78], tail := .within [0] .unread, imm := .word },
  { opcodes := [0x78], selectors := [.pF2], tail := .unread, imm := .word },
  { opcodes := [0x7C, 0x7D, 0xD0], selectors := [.p66, .pF2] },
  { opcodes := opcodes 0x90 0x9F, selectors := anySelector },
  { opcodes := [0xA3, 0xA5, 0xAB, 0xAD, 0xAF], selectors := anySelector },
  { opcodes := [0xA4, 0xAC], selectors := anySelector, imm := .byte },
  { opcodes := [0xAE], selectors := [.plain], tail := .memory },
  { opcodes := [0xAE], tail := .within [6, 7] .memory },
  { opcodes := [0xAE], selectors := [.pF3], tail := .within [4, 6] .memory },
  { opcodes := [0xB0, 0xB1, 0xB3, 0xB6, 0xB7, 0xB9, 0xBB, 0xBC, 0xBD, 0xBE, 0xBF],
    selectors := anySelector },
  { opcodes := [0xB2, 0xB4, 0xB5], selectors := anySelector, tail := .memory },
  { opcodes := [0xB8], selectors := [.pF3] },
  { opcodes := [0xBA], selectors := anySelector, tail := .within [4, 5, 6, 7] .any, imm := .byte },
  { opcodes := [0xC0, 0xC1, 0xFF], selectors := anySelector },
  { opcodes := [0xC2], selectors := anySelector, imm := .byte },
  { opcodes := [0xC3], selectors := [.plain], tail := .memory },
  { opcodes := [0xC4, 0xC6], selectors := [.plain, .p66], imm := .byte },
  { opcodes := [0xC5], selectors := [.plain], tail := .unread, imm := .byte },
  { opcodes := [0xC5], tail := .register, imm := .byte },
  { opcodes := [0xC7], selectors := anySelector, tail := .within [1] .memory },
  { opcodes := [0xC7], selectors := [.plain], tail := .within [3, 4, 5, 6, 7] .memory },
  { opcodes := [0xC7], selectors := [.p66, .pF3], tail := .within [6] .memory },
  { opcodes := [0xD6] },
  { opcodes := [0xE6], selectors := [.p66, .pF3, .pF2] },
  { opcodes := [0xE7], selectors := [.plain, .p66], tail := .memory },
  { opcodes := [0xF0], selectors := [.pF2], tail := .memory },
  { opcodes := opcodes 0xD1 0xD5 ++ opcodes 0xD8 0xE5 ++ opcodes 0xE8 0xEF ++
      opcodes 0xF1 0xF6 ++ opcodes 0xF8 0xFE, selectors := [.plain, .p66] }]

def twoByteForm (op : Nat) (s : Selector) : Form :=
  if twoByteAlone.contains op then .plain .none
  else if 0x80 ≤ op ∧ op < 0x90 then .plain .operand
  else .modrm (tailIn twoByteRows op { selector := s })

/-! ## Three-byte opcodes -/

def rows0F38 : List OpcodeRow := [
  { opcodes := opcodes 0x00 0x0B ++ [0x1C, 0x1D, 0x1E], selectors := [.plain, .p66] },
  { opcodes := [0x10, 0x14, 0x15, 0x17] ++ opcodes 0x20 0x25 ++ [0x28, 0x29, 0x2B] ++
      opcodes 0x30 0x35 ++ opcodes 0x37 0x41 },
  { opcodes := [0x2A, 0x80, 0x81, 0x82], tail := .memory },
  { opcodes := opcodes 0xC8 0xCD, selectors := [.plain] },
  { opcodes := [0xCF] ++ opcodes 0xDB 0xDF },
  { opcodes := [0xD8], selectors := [.pF3], tail := .within [0, 1, 2, 3] .memory },
  { opcodes := opcodes 0xDC 0xDF, selectors := [.pF3] },
  { opcodes := [0xF0, 0xF1], selectors := [.plain, .p66], tail := .memory },
  { opcodes := [0xF0, 0xF1], selectors := [.pF2] },
  { opcodes := [0xF5], tail := .memory },
  { opcodes := [0xF6], selectors := [.plain], tail := .memory },
  { opcodes := [0xF6], selectors := [.p66, .pF3] },
  { opcodes := [0xF8], selectors := [.p66, .pF3, .pF2], tail := .memory },
  { opcodes := [0xF9], selectors := [.plain], tail := .memory },
  { opcodes := [0xFC], selectors := anySelector, tail := .memory }]

def rows0F3A : List OpcodeRow := OpcodeRow.withImmediate .byte [
  { opcodes := opcodes 0x08 0x0E ++ opcodes 0x14 0x17 ++ opcodes 0x20 0x22 ++
      [0x40, 0x41, 0x42, 0x44] ++ opcodes 0x60 0x63 ++ [0xCE, 0xCF, 0xDF] },
  { opcodes := [0x0F], selectors := [.plain, .p66] },
  { opcodes := [0xCC], selectors := [.plain] },
  { opcodes := [0xF0], selectors := [.pF3],
    tail := fun imm m => if m = ⟨3, 0, 0⟩ then .operand imm else .ends }]

end Recompiler
