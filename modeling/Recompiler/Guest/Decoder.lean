import Recompiler.Guest.Instruction
import Recompiler.Guest.Page

/-!
# Decoders of guest instructions

A decoder looks at the bytes from an address on, as far as an instruction may
reach, and tells how many of them the instruction there counts, and which
instruction it is if it is one that is compiled.  Any decoder will do that
counts at least one byte and none that it was not shown, and for which the
bytes not counted do not matter.
-/

namespace Recompiler

def maxInstructionLength : Nat := 15

/-- What decoding found at an address. -/
structure Decoded where
  /-- The bytes the instruction counts. -/
  length : Nat
  /-- The instruction, if it is one that is compiled. -/
  instruction : Option Instruction
  deriving DecidableEq, Repr

/-- A decoder of guest instructions. -/
structure Decoder where
  /-- What is found at an address, by the bytes there, cut off at the end of
  the page and at the longest an instruction may be. -/
  decode (window : List UInt8) (ip : UInt32) : Decoded
  length_pos {window : List UInt8} (h : window ≠ []) (ip : UInt32) :
    0 < (decode window ip).length
  length_le (window : List UInt8) (ip : UInt32) : (decode window ip).length ≤ window.length
  /-- An instruction is decided by the bytes it counts. -/
  congr {w w' : List UInt8} {ip : UInt32} (hlen : w.length = w'.length)
    (h : w.take (decode w ip).length = w'.take (decode w ip).length) :
    decode w' ip = decode w ip

def window (page : Vector UInt8 pageSize) (offset : Offset) : List UInt8 :=
  (List.range (min maxInstructionLength (pageSize - offset.val))).filterMap
    fun i => page[offset.val + i]?

end Recompiler
