import Recompiler.Compile.Sequence
import Recompiler.GuardedMemory
import Recompiler.Host.Context

/-!
# The emulator

One guest CPU with its memory and the code compiled from it.  `fetch` finds or
compiles the block at an address; the other operations are what a host program
may do to CPU, memory and compiled code between runs.
-/

namespace Recompiler

/-- An emulated computer. -/
structure Emulator where
  settings : Setup
  guarded : GuardedMemory
  context : Context := {}

namespace Emulator

/-- An emulator of a CPU at reset with a given memory. -/
def new (settings : Settings) (memory : Memory) (decoder : Decoder := .ia32) :
    Except SettingsError Emulator :=
  match settings.objection? with
  | some e => .error e
  | none => .ok {
      settings := { settings with decoder }
      guarded := { code := .new settings, memory } }

/-! ## Parts -/

def arena (e : Emulator) : Arena := e.guarded.code.arena

def watches (e : Emulator) : Watches := e.guarded.code.watches

def memory (e : Emulator) : Memory := e.guarded.memory

def cpu (e : Emulator) : Cpu := e.context.cpu

def running? (e : Emulator) : Option BlockId := e.context.running?

def modifyArena (e : Emulator) (f : Arena → Arena) : Emulator :=
  { e with
    guarded := { e.guarded with
      code := { e.guarded.code with arena := f e.guarded.code.arena } } }

def count (e : Emulator) (f : Counters → Counters) : Emulator :=
  e.modifyArena (·.count f)

def modifyCpu (e : Emulator) (f : Cpu → Cpu) : Emulator :=
  { e with context := { e.context with cpu := f e.context.cpu } }

def setCycles (e : Emulator) (cycles : Int32) : Emulator :=
  { e with context := { e.context with cycles } }

/-! ## Finding and compiling blocks -/

def find? (e : Emulator) (addr : UInt32) : Option BlockId :=
  (e.memory.watch? (pageOf addr)).bind fun id =>
    (e.watches.watch id).find? e.arena (offsetOf addr)

def limits (e : Emulator) : Limits :=
  ⟨e.settings.blockInstructions, e.settings.blockBytes, e.settings.decoder⟩

/-- Compiles the code at an address into a new block, and indexes it on the
watch of its page. -/
def compile (e : Emulator) (watch : WatchId) (eip : UInt32) :
    Except Fault (BlockId × Emulator) :=
  match e.memory.bytes? (pageOf eip) with
  | none => .error (.corrupted .outsideMemory)
  | some page => do
      let s := Sequence.at page e.limits eip
      let (id, code) ← e.guarded.code.openRegion
      let program := s.operations id
      let arena ← code.arena.emitProgram program
      let (id, arena) ← arena.close s.exit.kind program
      let code := { code with arena }.indexBlock id watch page (offsetOf eip) s.last
      return (id, { e with guarded := { e.guarded with code } })

/-- The answer to a look-up of an address. -/
inductive Fetched where
  /-- The instruction there is the interpreter's. -/
  | interpret
  /-- A block compiled before. -/
  | cached (id : BlockId)
  /-- A block compiled just now. -/
  | compiled (id : BlockId)
  deriving DecidableEq, Repr

def Fetched.block? : Fetched → Option BlockId
  | interpret => none
  | cached id => some id
  | compiled id => some id

/-- Whether a start address was written to so often that it is not compiled
any more. -/
def refused (e : Emulator) (addr : UInt32) : Bool :=
  match e.memory.watch? (pageOf addr) with
  | some id => e.settings.changeLimit ≤ (e.watches.watch id).changesAt (offsetOf addr)
  | none => false

/-- The block at an address, compiled if need be.  There is none outside
memory, on a page barred from compilation, and where code was changed too
often. -/
def fetch (e : Emulator) (eip : UInt32) : Except Fault (Fetched × Emulator) :=
  if !e.memory.contains eip || e.memory.isNoCode (pageOf eip) then
    .ok (.interpret, e)
  else
    match e.find? eip with
    | some id =>
        .ok (.cached id, e.count fun c => { c with hits := c.hits + 1 })
    | none =>
        if e.refused eip then .ok (.interpret, e)
        else do
          -- Putting up a watch may take the oldest one down, blocks and all.
          let (watch, guarded) ← e.guarded.watchPage (pageOf eip)
          let e := { e with guarded }
          match watch with
          | none => return (.interpret, e)
          | some watch =>
              let (id, e) ← e.compile watch eip
              return (.compiled id, e)

/-! ## What a host program may do -/

/-- Writes guest memory; whatever block is running is the writer. -/
def write (e : Emulator) (width : Width) (addr value : UInt32) :
    WriteResult × Emulator :=
  let (outcome, guarded) := e.guarded.write width addr value e.running?
  (outcome, { e with guarded })

/-- Writes guest memory; whether the running block was freed. -/
def writeChecked (e : Emulator) (width : Width) (addr value : UInt32) :
    Bool × Emulator :=
  let (outcome, e) := e.write width addr value
  (outcome.metRunning, e)

def busWrite (e : Emulator) (width : Width) (addr value : UInt32) : Emulator :=
  { e with guarded := (e.guarded.write width addr value none).2 }

def load (e : Emulator) (addr : UInt32) : List UInt8 → Emulator
  | [] => e
  | b :: rest => (e.write .byte addr b.toUInt32).2.load (addr + 1) rest

def link (e : Emulator) (source : BlockId) (slot : Slot) (target : BlockId) :
    Except Fault Emulator := do
  let arena ← e.arena.link source slot target
  return e.modifyArena fun _ => arena

def discard (e : Emulator) (id : BlockId) : Except Fault Emulator := do
  let code ← e.guarded.code.discard id
  return { e with guarded := { e.guarded with code } }

/-- Frees the blocks compiled from a range of addresses, and answers with
their number. -/
def invalidate (e : Emulator) (start stop : UInt32) : Nat × Emulator :=
  let (n, _, guarded) := e.guarded.invalidate start stop e.running?
  (n, { e with guarded })

/-- Discards all compiled code. -/
def flush (e : Emulator) : Emulator := { e with guarded := e.guarded.flush }

def restore (e : Emulator) (cpu : Cpu) : Emulator := e.flush.modifyCpu fun _ => cpu

/-- The emulator, unless something that was done to it broke a rule. -/
def unbroken (e : Emulator) : Except Fault Emulator :=
  match e.watches.broken with
  | none => .ok e
  | some what => .error (.corrupted what)

def audit (e : Emulator) : Except Fault Unit := e.guarded.code.audit

end Emulator

end Recompiler
