import Recompiler.Guest.OpcodeForm

/-!
# EVEX opcodes

The opcodes of the five maps that the EVEX prefix leads to.  Packed
instructions have a vector length of 128, 256 or 512 bits; scalar ones do not
look at it.
-/

namespace Recompiler

open OpcodeRow (anyLength)

def evexRows1 : List OpcodeRow := [
  { opcodes := [0x10, 0x11, 0x51, 0x58, 0x59, 0x5A, 0x5C, 0x5D, 0x5E, 0x5F],
    selectors := [.plain], wide := some false },
  { opcodes := [0x10, 0x11, 0x51, 0x58, 0x59, 0x5A, 0x5C, 0x5D, 0x5E, 0x5F], wide := some true },
  { opcodes := [0x10, 0x11, 0x51, 0x58, 0x59, 0x5A, 0x5C, 0x5D, 0x5E, 0x5F],
    selectors := [.pF3], lengths := anyLength, wide := some false },
  { opcodes := [0x10, 0x11, 0x51, 0x58, 0x59, 0x5A, 0x5C, 0x5D, 0x5E, 0x5F],
    selectors := [.pF2], lengths := anyLength, wide := some true },
  { opcodes := [0xC2], selectors := [.plain], wide := some false, rounds := true, imm := .byte },
  { opcodes := [0xC2], wide := some true, rounds := true, imm := .byte },
  { opcodes := [0xC2], selectors := [.pF3], lengths := anyLength, wide := some false,
    imm := .byte },
  { opcodes := [0xC2], selectors := [.pF2], lengths := anyLength, wide := some true,
    imm := .byte },
  { opcodes := [0x12, 0x16], selectors := [.plain], lengths := [0], wide := some false },
  { opcodes := [0x12, 0x13, 0x16, 0x17], lengths := [0], wide := some true, tail := .memory },
  { opcodes := [0x13, 0x17], selectors := [.plain], lengths := [0], wide := some false,
    tail := .memory },
  { opcodes := [0x12, 0x16], selectors := [.pF3], wide := some false },
  { opcodes := [0x12], selectors := [.pF2], wide := some true },
  { opcodes := [0x14, 0x15, 0x28, 0x29] ++ opcodes 0x54 0x57, selectors := [.plain],
    wide := some false },
  { opcodes := [0x14, 0x15, 0x28, 0x29] ++ opcodes 0x54 0x57, wide := some true },
  { opcodes := [0x2B], selectors := [.plain], wide := some false, tail := .memory },
  { opcodes := [0x2B], wide := some true, tail := .memory },
  { opcodes := [0xC6], selectors := [.plain], wide := some false, imm := .byte },
  { opcodes := [0xC6], wide := some true, imm := .byte },
  { opcodes := [0x6F, 0x7F], selectors := [.p66, .pF3, .pF2] },
  { opcodes := [0xE7], wide := some false, tail := .memory },
  { opcodes := [0x2E, 0x2F], selectors := [.plain], lengths := anyLength, wide := some false },
  { opcodes := [0x2E, 0x2F], lengths := anyLength, wide := some true },
  { opcodes := [0x2A, 0x2C, 0x2D, 0x78, 0x79, 0x7B], selectors := [.pF3, .pF2],
    lengths := anyLength },
  { opcodes := [0x5B, 0x78, 0x79], selectors := [.plain] },
  { opcodes := [0x5B], selectors := [.p66, .pF3], wide := some false },
  { opcodes := [0x78, 0x79, 0x7A, 0x7B] },
  { opcodes := [0x7A], selectors := [.pF3, .pF2] },
  { opcodes := [0xE6], selectors := [.p66, .pF2], wide := some true },
  { opcodes := [0xE6], selectors := [.pF3] },
  { opcodes := [0x60, 0x61, 0x63, 0x64, 0x65, 0x67, 0x68, 0x69, 0x74, 0x75, 0xD1, 0xD5, 0xD8,
      0xD9, 0xDA, 0xDB, 0xDC, 0xDD, 0xDE, 0xDF] ++ opcodes 0xE0 0xE5 ++ opcodes 0xE8 0xEF ++
      [0xF1, 0xF5, 0xF6, 0xF8, 0xF9, 0xFC, 0xFD] },
  { opcodes := [0x62, 0x66, 0x6A, 0x6B, 0x76, 0xD2, 0xF2, 0xFA, 0xFE], wide := some false },
  { opcodes := [0x6C, 0x6D, 0xD3, 0xD4, 0xF3, 0xF4, 0xFB], wide := some true },
  { opcodes := [0x6E, 0x7E], lengths := [0] },
  { opcodes := [0x7E], selectors := [.pF3], lengths := [0], wide := some true },
  { opcodes := [0xD6], lengths := [0], wide := some true },
  { opcodes := [0x70], wide := some false, imm := .byte },
  { opcodes := [0x70], selectors := [.pF3, .pF2], imm := .byte },
  { opcodes := [0x71], tail := .within [2, 4, 6] .any, imm := .byte },
  { opcodes := [0x72], tail := .within [0, 1, 4] .any, imm := .byte },
  { opcodes := [0x72], wide := some false, tail := .within [2, 6] .any, imm := .byte },
  { opcodes := [0x73], tail := .within [3, 7] .any, imm := .byte },
  { opcodes := [0x73], wide := some true, tail := .within [2, 6] .any, imm := .byte },
  { opcodes := [0xC4], lengths := [0], imm := .byte },
  { opcodes := [0xC5], lengths := [0], tail := .register, imm := .byte }]

def evexRows2 : List OpcodeRow := [
  { opcodes := [0x00, 0x04, 0x0B, 0x14, 0x15, 0x1C, 0x1D] ++ opcodes 0x20 0x24 ++
      [0x26, 0x27, 0x2C] ++ opcodes 0x30 0x34 ++ opcodes 0x38 0x40 ++ [0x42] ++
      opcodes 0x44 0x47 ++ [0x4C, 0x4E, 0x54, 0x55, 0x59] ++ opcodes 0x62 0x66 ++ [0x71, 0x73] ++
      opcodes 0x75 0x77 ++ opcodes 0x7D 0x7F ++ opcodes 0x88 0x8B ++ [0x8D, 0xC4] ++
      opcodes 0xDC 0xDF },
  { opcodes := [0x0C, 0x13, 0x18, 0x1E, 0x25, 0x2B, 0x35] ++ opcodes 0x50 0x53 ++
      [0x58, 0x78, 0x79, 0x8F, 0xCF],
    wide := some false },
  { opcodes := [0x0D, 0x10, 0x11, 0x12, 0x1F, 0x28, 0x29, 0x37, 0x70, 0x72, 0x83, 0xB4, 0xB5],
    wide := some true },
  { opcodes := opcodes 0x10 0x15 ++ opcodes 0x20 0x25 ++ opcodes 0x30 0x35 ++ [0x52, 0x72],
    selectors := [.pF3], wide := some false },
  { opcodes := [0x26, 0x27], selectors := [.pF3] },
  { opcodes := [0x16, 0x19, 0x36], lengths := [1, 2] },
  { opcodes := [0x1A, 0x5A], lengths := [1, 2], tail := .memory },
  { opcodes := [0x1B, 0x5B], lengths := [2], tail := .memory },
  { opcodes := [0x2A], wide := some false, tail := .memory },
  { opcodes := [0x2D, 0x43, 0x4D, 0x4F, 0xCB, 0xCD], lengths := anyLength },
  { opcodes := [0x52, 0x53, 0x9A, 0xAA], selectors := [.pF2], lengths := [2], wide := some false,
    tail := .memory },
  { opcodes := [0x68], selectors := [.pF2] },
  { opcodes := [0x72], selectors := [.pF2], wide := some false },
  { opcodes := opcodes 0x90 0x93 ++ opcodes 0xA0 0xA3, tail := .memory },
  { opcodes := [0x96, 0x97, 0x98, 0x9A, 0x9C, 0x9E, 0xA6, 0xA7, 0xA8, 0xAA, 0xAC, 0xAE, 0xB6,
      0xB7, 0xB8, 0xBA, 0xBC, 0xBE] },
  { opcodes := [0x99, 0x9B, 0x9D, 0x9F, 0xA9, 0xAB, 0xAD, 0xAF, 0xB9, 0xBB, 0xBD, 0xBF],
    lengths := anyLength },
  { opcodes := [0x9B, 0xAB], selectors := [.pF2], lengths := anyLength, wide := some false,
    tail := .memory },
  { opcodes := [0xC6, 0xC7], lengths := [2], tail := .within [1, 2, 5, 6] .memory },
  { opcodes := [0xC8, 0xCA, 0xCC], lengths := [2] }]

def evexRows3 : List OpcodeRow := OpcodeRow.withImmediate .byte [
  { opcodes := [0x00, 0x01], lengths := [1, 2], wide := some true },
  { opcodes := [0x03, 0x0F, 0x1E, 0x1F, 0x25, 0x3E, 0x3F, 0x44, 0x71, 0x73] },
  { opcodes := [0x04, 0x42], wide := some false },
  { opcodes := [0x05, 0x70, 0x72, 0xCE, 0xCF], wide := some true },
  { opcodes := [0x08, 0x1D], wide := some false, rounds := true },
  { opcodes := [0x08, 0x26, 0x56, 0xC2], selectors := [.plain], wide := some false,
    rounds := true },
  { opcodes := [0x09], wide := some true, rounds := true },
  { opcodes := [0x0A], lengths := anyLength, wide := some false },
  { opcodes := [0x0A, 0x27, 0x57, 0x67], selectors := [.plain], lengths := anyLength,
    wide := some false },
  { opcodes := [0x0B], lengths := anyLength, wide := some true },
  { opcodes := opcodes 0x14 0x17 ++ [0x20, 0x22], lengths := [0] },
  { opcodes := [0x18, 0x19, 0x23, 0x38, 0x39, 0x43], lengths := [1, 2] },
  { opcodes := [0x1A, 0x1B, 0x3A, 0x3B], lengths := [2] },
  { opcodes := [0x21], lengths := [0], wide := some false },
  { opcodes := [0x26, 0x50, 0x54, 0x56], rounds := true },
  { opcodes := [0x27, 0x51, 0x55, 0x57, 0x67], lengths := anyLength },
  { opcodes := [0x66] },
  { opcodes := [0x66], selectors := [.plain], wide := some false },
  { opcodes := [0xC2], selectors := [.pF3], lengths := anyLength, wide := some false }]

def evexRows5 : List OpcodeRow := [
  { opcodes := [0x10, 0x11], selectors := [.pF3], lengths := anyLength, wide := some false },
  { opcodes := [0x1D, 0x2E, 0x2F], selectors := [.plain], lengths := anyLength,
    wide := some false },
  { opcodes := [0x1D], wide := some false },
  { opcodes := [0x2A, 0x2C, 0x2D, 0x78, 0x79, 0x7B], selectors := [.pF3],
    lengths := anyLength },
  { opcodes := [0x51, 0x58, 0x59, 0x5A, 0x5C, 0x5D, 0x5E, 0x5F, 0x78, 0x79, 0x7C, 0x7D],
    selectors := [.plain], wide := some false },
  { opcodes := [0x51, 0x58, 0x59, 0x5A, 0x5C, 0x5D, 0x5E, 0x5F], selectors := [.pF3],
    lengths := anyLength, wide := some false },
  { opcodes := [0x5A], wide := some true },
  { opcodes := [0x5A], selectors := [.pF2], lengths := anyLength, wide := some true },
  { opcodes := [0x5B], selectors := [.plain] },
  { opcodes := [0x5B], selectors := [.p66, .pF3], wide := some false },
  { opcodes := [0x6E, 0x7E], lengths := [0] },
  { opcodes := [0x78, 0x79, 0x7A, 0x7B, 0x7C, 0x7D], wide := some false },
  { opcodes := [0x7A], selectors := [.pF2] },
  { opcodes := [0x7D], selectors := [.pF3, .pF2], wide := some false }]

def evexRows6 : List OpcodeRow := [
  { opcodes := [0x13], selectors := [.plain], lengths := anyLength, wide := some false },
  { opcodes := [0x13, 0x2C, 0x42, 0x4C, 0x4E], wide := some false },
  { opcodes := [0x2D, 0x43, 0x4D, 0x4F], lengths := anyLength, wide := some false },
  { opcodes := [0x56, 0xD6], selectors := [.pF3, .pF2], wide := some false },
  { opcodes := [0x57, 0xD7], selectors := [.pF3, .pF2], lengths := anyLength,
    wide := some false },
  { opcodes := [0x96, 0x97, 0x98, 0x9A, 0x9C, 0x9E, 0xA6, 0xA7, 0xA8, 0xAA, 0xAC, 0xAE, 0xB6,
      0xB7, 0xB8, 0xBA, 0xBC, 0xBE],
    wide := some false },
  { opcodes := [0x99, 0x9B, 0x9D, 0x9F, 0xA9, 0xAB, 0xAD, 0xAF, 0xB9, 0xBB, 0xBD, 0xBF],
    lengths := anyLength, wide := some false }]

end Recompiler
