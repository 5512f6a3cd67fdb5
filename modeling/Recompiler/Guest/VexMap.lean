import Recompiler.Guest.OpcodeForm

/-!
# VEX and XOP opcodes

The opcodes of the three maps that the VEX prefixes lead to.  Their vector
lengths are 128 and 256 bits; an instruction on scalars takes either.  The XOP
prefix leads to three more, all without a selecting prefix: those of map 8 have
an immediate byte, those of map 10 an immediate of four bytes whatever the
operand size.
-/

namespace Recompiler

open OpcodeRow (anySelector)

def vexRows1 : List OpcodeRow := [
  { opcodes := [0x10, 0x11, 0x51, 0x58, 0x59, 0x5A, 0x5C, 0x5D, 0x5E, 0x5F],
    selectors := anySelector },
  { opcodes := [0x12], selectors := [.plain], lengths := [0] },
  { opcodes := [0x12], selectors := [.pF3, .pF2] },
  { opcodes := [0x12, 0x13, 0x16, 0x17], lengths := [0], tail := .memory },
  { opcodes := [0x13, 0x17], selectors := [.plain], lengths := [0], tail := .memory },
  { opcodes := [0x14, 0x15, 0x28, 0x29, 0x2E, 0x2F] ++ opcodes 0x54 0x57,
    selectors := [.plain, .p66] },
  { opcodes := [0x16], selectors := [.plain], lengths := [0] },
  { opcodes := [0x16], selectors := [.pF3] },
  { opcodes := [0x2A, 0x2C, 0x2D], selectors := [.pF3, .pF2] },
  { opcodes := [0x2B], selectors := [.plain, .p66], tail := .memory },
  { opcodes := [0x52, 0x53], selectors := [.plain, .pF3] },
  { opcodes := [0x5B], selectors := [.plain, .p66, .pF3] },
  { opcodes := opcodes 0x60 0x6D ++ [0x74, 0x75, 0x76] ++ opcodes 0xD1 0xD5 ++
      opcodes 0xD8 0xE5 ++ opcodes 0xE8 0xEF ++ opcodes 0xF1 0xF6 ++ opcodes 0xF8 0xFE },
  { opcodes := [0x6E, 0xD6], lengths := [0] },
  { opcodes := [0x6F, 0x7F], selectors := [.p66, .pF3] },
  { opcodes := [0x70], selectors := [.p66, .pF3, .pF2], imm := .byte },
  { opcodes := [0x71, 0x72], tail := .within [2, 4, 6] .unread, imm := .byte },
  { opcodes := [0x73], tail := .within [2, 3, 6, 7] .unread, imm := .byte },
  { opcodes := [0x7C, 0x7D, 0xD0], selectors := [.p66, .pF2] },
  { opcodes := [0x7E], selectors := [.p66, .pF3], lengths := [0] },
  { opcodes := [0x90], selectors := [.plain, .p66], lengths := [0] },
  { opcodes := [0x91], selectors := [.plain, .p66], lengths := [0], tail := .memory },
  { opcodes := [0xAE], selectors := [.plain], lengths := [0], tail := .within [2, 3] .memory },
  { opcodes := [0xC2], selectors := anySelector, imm := .byte },
  { opcodes := [0xC4], lengths := [0], imm := .byte },
  { opcodes := [0xC5], lengths := [0], tail := .unread, imm := .byte },
  { opcodes := [0xC6], selectors := [.plain, .p66], imm := .byte },
  { opcodes := [0xE6], selectors := [.p66, .pF3, .pF2] },
  { opcodes := [0xE7], tail := .memory },
  { opcodes := [0xF0], selectors := [.pF2], tail := .memory }]

def vexRows2 : List OpcodeRow := [
  { opcodes := opcodes 0x00 0x0B ++ [0x17, 0x1C, 0x1D, 0x1E] ++ opcodes 0x20 0x25 ++
      [0x28, 0x29, 0x2B] ++ opcodes 0x30 0x35 ++ opcodes 0x37 0x40 ++ [0x45, 0x47] ++
      opcodes 0x96 0x9F ++ opcodes 0xA6 0xAF ++ opcodes 0xB6 0xBF ++ opcodes 0xDC 0xDF },
  { opcodes := opcodes 0x0C 0x0F ++ [0x13, 0x18, 0x46, 0x52, 0x53, 0x58, 0x59, 0x78, 0x79, 0xCF],
    wide := some false },
  { opcodes := [0x16, 0x19, 0x36], lengths := [1], wide := some false },
  { opcodes := [0x1A, 0x5A], lengths := [1], wide := some false, tail := .memory },
  { opcodes := [0x2A, 0x8C, 0x8E] ++ opcodes 0x90 0x93, tail := .memory },
  { opcodes := opcodes 0x2C 0x2F, wide := some false, tail := .memory },
  { opcodes := [0x41, 0xDB], lengths := [0] },
  { opcodes := [0x50, 0x51], selectors := anySelector, wide := some false },
  { opcodes := [0x72], selectors := [.pF3], wide := some false },
  { opcodes := [0xB0], selectors := anySelector, wide := some false, tail := .memory },
  { opcodes := [0xB1], selectors := [.p66, .pF3], wide := some false, tail := .memory },
  { opcodes := [0xB4, 0xB5], wide := some true },
  { opcodes := [0xD2, 0xD3], selectors := [.plain, .p66, .pF3], wide := some false },
  { opcodes := [0xDA], selectors := [.plain, .p66], lengths := [0], wide := some false },
  { opcodes := [0xDA], selectors := [.pF3, .pF2], wide := some false },
  { opcodes := [0xF2], selectors := [.plain], lengths := [0] },
  { opcodes := [0xF3], selectors := [.plain], lengths := [0], tail := .within [1, 2, 3] .any },
  { opcodes := [0xF5], selectors := [.plain, .pF3, .pF2], lengths := [0] },
  { opcodes := [0xF6], selectors := [.pF2], lengths := [0] },
  { opcodes := [0xF7], selectors := anySelector, lengths := [0] }]

def vexRows3 : List OpcodeRow := OpcodeRow.withImmediate .byte [
  { opcodes := [0x00, 0x01], lengths := [1], wide := some true },
  { opcodes := [0x02, 0x04, 0x05, 0x1D, 0x4A, 0x4B, 0x4C], wide := some false },
  { opcodes := [0x06, 0x18, 0x19, 0x38, 0x39, 0x46], lengths := [1], wide := some false },
  { opcodes := opcodes 0x08 0x0F ++ [0x40, 0x42, 0x44, 0x48, 0x49] ++ opcodes 0x5C 0x5F ++
      opcodes 0x68 0x6F ++ opcodes 0x78 0x7F },
  { opcodes := opcodes 0x14 0x17 ++ opcodes 0x20 0x22 ++ [0x41] ++ opcodes 0x60 0x63 ++ [0xDF],
    lengths := [0] },
  { opcodes := opcodes 0x30 0x33, lengths := [0], tail := .unread },
  { opcodes := [0xCE, 0xCF], wide := some true },
  { opcodes := [0xDE], lengths := [0], wide := some false },
  { opcodes := [0xF0], selectors := [.pF2], lengths := [0] }]

/-! ## XOP -/

def xopRows8 : List OpcodeRow := OpcodeRow.withImmediate .byte [
  { opcodes := [0x85, 0x86, 0x87, 0x8E, 0x8F, 0x95, 0x96, 0x97, 0x9E, 0x9F, 0xA6, 0xB6] ++
      opcodes 0xC0 0xC3 ++ opcodes 0xCC 0xCF ++ opcodes 0xEC 0xEF,
    selectors := [.plain], lengths := [0], wide := some false },
  { opcodes := [0xA2], selectors := [.plain] },
  { opcodes := [0xA3], selectors := [.plain], lengths := [0] }]

def xopRows9 : List OpcodeRow := [
  { opcodes := [0x01], selectors := [.plain], lengths := [0],
    tail := .within [1, 2, 3, 4, 5, 6, 7] .any },
  { opcodes := [0x02], selectors := [.plain], lengths := [0], tail := .within [1, 6] .any },
  { opcodes := [0x80, 0x81], selectors := [.plain], wide := some false },
  { opcodes := [0x82, 0x83, 0xC1, 0xC2, 0xC3, 0xC6, 0xC7, 0xCB, 0xD1, 0xD2, 0xD3, 0xD6, 0xD7,
      0xDB, 0xE1, 0xE2, 0xE3],
    selectors := [.plain], lengths := [0], wide := some false },
  { opcodes := opcodes 0x90 0x9B, selectors := [.plain], lengths := [0] }]

def xopRows10 : List OpcodeRow := OpcodeRow.withImmediate .long [
  { opcodes := [0x10], selectors := [.plain], lengths := [0] },
  { opcodes := [0x12], selectors := [.plain], lengths := [0], tail := .within [0, 1] .any }]

end Recompiler
