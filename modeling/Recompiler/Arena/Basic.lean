import Recompiler.Arena.Descriptor
import Recompiler.Fault
import Recompiler.Host.Assembly
import Recompiler.Settings

/-!
# The arena

One stretch of host memory holds all compiled code: an area of fixed stubs, the
block region, and room for the last block to spill into.  The block region is
divided into regions in address order without gaps.  One of them is *active*:
it is opened, code is written to it, and it is closed, trimmed to that code;
what is left becomes a region of its own.  Then the next region is the active
one, and after the last the first again.
-/

namespace Recompiler

/-- What was done so far, in numbers. -/
structure Counters where
  compiled : Nat := 0
  /-- Look-ups that found a block. -/
  hits : Nat := 0
  links : Nat := 0
  /-- Exits unlinked because a ring was full. -/
  displaced : Nat := 0
  /-- Blocks freed by writes and range invalidations. -/
  invalidations : Nat := 0
  /-- Invalidations that met the running block. -/
  runningHits : Nat := 0
  /-- Times the active region went back to the first. -/
  wraps : Nat := 0
  /-- Live blocks overwritten by opening another. -/
  evictions : Nat := 0
  /-- Instructions the interpreter ran. -/
  interpreted : Nat := 0
  deriving DecidableEq, Repr

/-- The arena and the pool of block descriptors. -/
structure Arena where
  /-- Length of the block region. -/
  arenaBytes : Nat
  /-- Scratch space guaranteed to an open block. -/
  blockBytes : Nat
  pool : Array Descriptor
  /-- The regions, in address order. -/
  regions : List BlockId
  /-- Descriptors not in use, the next to be used first. -/
  free : List BlockId
  /-- The region that is opened next. -/
  active : BlockId
  opened : Option BlockId := none
  /-- Where code is being written. -/
  pen : Pen
  counters : Counters := {}
  deriving DecidableEq

namespace Arena

/-- The host address the arena is taken to lie at. -/
def base : Nat := 0x7F0000000000

def capacity (a : Arena) : Nat := a.pool.size

def length (a : Arena) : Nat := stubBytes + a.arenaBytes + a.blockBytes

def block (a : Arena) (id : BlockId) : Descriptor :=
  a.pool.getD id.number .unused

def modify (a : Arena) (id : BlockId) (f : Descriptor → Descriptor) : Arena :=
  { a with pool := a.pool.modify id.number f }

def count (a : Arena) (f : Counters → Counters) : Arena :=
  { a with counters := f a.counters }

def isLive (a : Arena) (id : BlockId) : Bool := (a.block id).isLive

def compiledBlocks (a : Arena) : List BlockId := a.regions.filter a.isLive

/-- The region in address order before which the others come. -/
def firstRegion : BlockId := .lowest

/-- The regions before a given one, and those after it. -/
def around (a : Arena) (id : BlockId) : List BlockId × List BlockId :=
  (a.regions.takeWhile (· ≠ id), (a.regions.dropWhile (· ≠ id)).tail)

/-- The last position at which a region may become active. -/
def lastStart (a : Arena) : Nat := stubBytes + a.arenaBytes - a.blockBytes

/-- The fixed stubs: the way in, and the two trampolines. -/
def stubs : Pen :=
  let entered := ({} : Pen).emit base .enter
  let first := { entered with cursor := trampolinePosition .first }.emit base
    (.leave (.ofSlot .first))
  let second := { first with cursor := trampolinePosition .second }.emit base
    (.leave (.ofSlot .second))
  { second with cursor := stubBytes }

def new (s : Settings) : Arena where
  arenaBytes := s.arenaBytes
  blockBytes := s.blockBytes
  pool := ((Array.replicate s.descriptors Descriptor.unused).setIfInBounds 0
    (.trampoline .first)).setIfInBounds 1 (.trampoline .second) |>.setIfInBounds 2
    { start := stubBytes, size := s.arenaBytes }
  regions := [firstRegion]
  free := (List.range' 3 (s.descriptors - 3)).map .mk
  active := firstRegion
  pen := stubs

/-! ## Writing code -/

def overrunFault (a : Arena) : Fault :=
  match a.opened with
  | some id => .overrun (a.length - (a.block id).start) (a.block id).size
  | none => .overrun a.length stubBytes

def checked (a : Arena) (pen : Pen) : Except Fault Arena :=
  if a.length < pen.cursor then .error a.overrunFault else .ok { a with pen }

def emit (a : Arena) (op : Operation) : Except Fault Arena :=
  a.checked (a.pen.emit base op)

def fill (a : Arena) (byte : UInt8) (n : Nat) : Except Fault Arena :=
  if a.length < a.pen.cursor + n then .error a.overrunFault
  else .ok { a with pen := a.pen.append (List.replicate n (.literal byte)) }

def emitProgram (a : Arena) (ops : List Operation) : Except Fault Arena :=
  a.checked { ({ a.pen with labels := [] }.emitAll base ops) with labels := [] }

def code (a : Arena) (id : BlockId) : List CodeByte :=
  a.pen.image.slice (a.block id).start (a.block id).size

/-! ## Closing a block -/

def take (a : Arena) : Except Fault (BlockId × Arena) :=
  match a.free with
  | [] => .error (.descriptorsExhausted a.capacity)
  | id :: rest => .ok (id, { a with free := rest })

/-- Gives a descriptor back to the pool; of its record only the generation is
kept. -/
def recycle (a : Arena) (id : BlockId) : Arena :=
  { a.modify id fun d => { generation := d.generation } with free := id :: a.free }

/-- The length of a region that holds `written` bytes: the next multiple of
the alignment, and never nothing. -/
def trimmed (written : Nat) : Nat :=
  (max written 1 + (codeAlign - 1)) / codeAlign * codeAlign

/-- Trims a closed block to the bytes written.  What is left over becomes a
region; the last region alone may have grown. -/
def trim (a : Arena) (id : BlockId) (written : Nat) : Except Fault Arena :=
  let d := a.block id
  let (before, after) := a.around id
  if d.size < written then
    if after ≠ [] ∨ d.size + a.blockBytes < written then
      .error (.overrun written d.size)
    else
      .ok (a.modify id fun d => { d with size := written })
  else if codeAlign < d.size - written then do
    let (rest, a) ← a.take
    let size := trimmed written
    let a := a.modify rest fun r =>
      { r with start := d.start + size, size := d.size - size }
    let a := a.modify id fun d => { d with size }
    return { a with regions := before ++ id :: rest :: after }
  else
    .ok a

/-- Makes the region after a block active, or the first if that one starts too
late. -/
def advance (a : Arena) (id : BlockId) : Arena :=
  match (a.around id).2 with
  | next :: _ =>
      if (a.block next).start ≤ a.lastStart then { a with active := next }
      else wrap
  | [] => wrap
where
  /-- The arena when it starts over. -/
  wrap : Arena :=
    { a with active := firstRegion }.count fun c => { c with wraps := c.wraps + 1 }

/-- Closes the open block as one of a kind, with no exit linked. -/
def close (a : Arena) (kind : BlockKind) (program : List Operation) :
    Except Fault (BlockId × Arena) :=
  match a.opened with
  | none => .error (.corrupted .closeWithoutOpen)
  | some id => do
      let written := a.pen.cursor - (a.block id).start
      let a := { a with opened := none }.modify id fun d =>
        { d with
          kind, program
          links := .unlinked
          ring := .empty
          generation := d.generation + 1 }
      let a ← a.trim id written
      let a := (a.advance id).count fun c => { c with compiled := c.compiled + 1 }
      return (id, a)

/-! ## The record of a block through each change -/

theorem block_modify (a : Arena) (id b : BlockId) (f : Descriptor → Descriptor) :
    (a.modify id f).block b =
      if id = b ∧ id.number < a.capacity then f (a.block b) else a.block b := by
  obtain ⟨i⟩ := id
  obtain ⟨j⟩ := b
  simp only [block, modify, capacity, Array.getD_eq_getD_getElem?,
    Array.getElem?_modify, BlockId.mk.injEq]
  by_cases h : i = j
  · subst h
    by_cases hi : i < a.pool.size
    · simp [hi]
    · simp [hi]
  · simp [h]

@[simp] theorem capacity_modify (a : Arena) (id : BlockId)
    (f : Descriptor → Descriptor) : (a.modify id f).capacity = a.capacity := by
  simp [modify, capacity]

@[simp] theorem block_count (a : Arena) (f : Counters → Counters) (b : BlockId) :
    (a.count f).block b = a.block b := rfl

end Arena

end Recompiler
