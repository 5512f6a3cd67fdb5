/-!
# Accesses to guest memory

The width of an access, the bytes of a word, and programs over a bus: what an
interpreter does to memory, with no word yet on whose memory it is.
-/

namespace Recompiler

inductive Width where
  | byte | word | long
  deriving DecidableEq, Repr

def Width.bytes : Width → Nat
  | byte => 1
  | word => 2
  | long => 4

def byteAt (value : UInt32) (place : Nat) : UInt8 :=
  (value >>> (8 * place).toUInt32).toUInt8

/-- The part of a word that an access of a width moves. -/
def Width.truncate (value : UInt32) : Width → UInt32
  | byte => value &&& 0xFF
  | word => value &&& 0xFFFF
  | long => value

def ofBytes : List UInt8 → UInt32
  | [] => 0
  | b :: rest => b.toUInt32 ||| (ofBytes rest <<< 8)

/-- What a device does on a bus before it finishes with a result.  Reads are
of single bytes; a write is one access of its width. -/
inductive BusProgram (α : Type) where
  | done (result : α)
  | read (addr : UInt32) (next : UInt8 → BusProgram α)
  | write (width : Width) (addr value : UInt32) (next : BusProgram α)

namespace BusProgram

def bind {α β : Type} : BusProgram α → (α → BusProgram β) → BusProgram β
  | done a, f => f a
  | read addr next, f => read addr fun b => (next b).bind f
  | write width addr value next, f => write width addr value (next.bind f)

instance : Monad BusProgram where
  pure := done
  bind := bind

def readByte (addr : UInt32) : BusProgram UInt8 := read addr done

def readWidth (width : Width) (addr : UInt32) : BusProgram UInt32 := do
  let bytes ← (List.range width.bytes).mapM fun i => readByte (addr + i.toUInt32)
  return ofBytes bytes

def store (width : Width) (addr value : UInt32) : BusProgram Unit :=
  write width addr value (done ())

/-- Running a program on a memory: `get` answers its reads and `put` carries
out its writes. -/
def run {σ α : Type} (get : σ → UInt32 → UInt8)
    (put : σ → Width → UInt32 → UInt32 → σ) : BusProgram α → σ → α × σ
  | done a, s => (a, s)
  | read addr next, s => (next (get s addr)).run get put s
  | write width addr value next, s => next.run get put (put s width addr value)

/-- Running one program after the other runs the second where the first
stopped. -/
theorem run_bind {σ α β : Type} (get : σ → UInt32 → UInt8)
    (put : σ → Width → UInt32 → UInt32 → σ) (p : BusProgram α)
    (f : α → BusProgram β) (s : σ) :
    (p.bind f).run get put s =
      (f (p.run get put s).1).run get put (p.run get put s).2 := by
  induction p generalizing s with
  | done a => rfl
  | read addr next ih => exact ih _ s
  | write width addr value next ih => exact ih _

end BusProgram

end Recompiler
