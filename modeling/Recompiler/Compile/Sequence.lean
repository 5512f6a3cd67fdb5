import Recompiler.Compile.Code
import Recompiler.Guest.Decoder

/-!
# What a block is compiled from

Instructions are taken from one page in order until one ends the block, one is
the interpreter's, the page ends, or a limit is reached.  Room for the worst
instruction, the exit and the stubs is set aside before each.
-/

namespace Recompiler

/-- Code bytes kept free for one more instruction. -/
def instructionRoom : Nat := 128

def exitRoom : Nat := 128

def stubRoom : Nat := 32

/-- What blocks are compiled under: how much one may hold, and the decoder. -/
structure Limits where
  instructions : Nat
  codeBytes : Nat
  decoder : Decoder

/-- Whether a block with code of a length and a number of stubs has no room
for one more instruction. -/
def Limits.full (l : Limits) (written stubs : Nat) : Bool :=
  l.codeBytes <
    written + instructionRoom + exitRoom + (stubs + 1) * stubRoom

/-- Takes instructions from a page, from an offset and its address on.
`fuel` bounds their number; the bytes of the page do. -/
def takeInstructions (page : Vector UInt8 pageSize) (limits : Limits) :
    (fuel offset : Nat) → (eip : UInt32) → (count written stubs : Nat) → Sequence
  | 0, offset, eip, _, _, _ => ⟨[], .limit eip, offset⟩
  | fuel + 1, offset, eip, count, written, stubs =>
      if h : offset < pageSize then
        if limits.instructions ≤ count ∨ limits.full written stubs then
          ⟨[], .limit eip, offset⟩
        else
          let d := limits.decoder.decode (window page ⟨offset, h⟩) eip
          let stop := max (min (offset + d.length) pageSize) (offset + 1)
          let next := eip + d.length.toUInt32
          match d.instruction with
          | none => ⟨[], .interpret eip, stop⟩
          | some i =>
              let p : Placed := ⟨i, next⟩
              match p.exit? with
              | some exit => ⟨[p], exit, stop⟩
              | none =>
                  let rest := takeInstructions page limits fuel stop next (count + 1)
                    (written + codeLength (p.body 0))
                    (if i.stores then stubs + 1 else stubs)
                  { rest with instructions := p :: rest.instructions }
      else ⟨[], .limit eip, offset⟩

/-- The sequence at an address, from the bytes of its page. -/
def Sequence.at (page : Vector UInt8 pageSize) (limits : Limits) (eip : UInt32) :
    Sequence :=
  takeInstructions page limits pageSize (offsetOf eip).val eip 0
    (codeLength (prologue (.trampoline .first))) 1

def Sequence.last (s : Sequence) : Offset :=
  ⟨min (s.stop - 1) (pageSize - 1), by simp only [pageSize]; omega⟩

end Recompiler
