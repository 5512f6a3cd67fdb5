import Recompiler.CodeStore

/-!
# Memory that guards compiled code

Guest memory together with the code compiled from it.  A write that changes a
byte some block was compiled from frees that block before the byte is stored;
a write that changes nothing does nothing at all.  Pages are put under a watch
when code is first compiled from them, and a watch that has long been idle is
released by the write that finds it so.
-/

namespace Recompiler

/-- What a write did. -/
inductive WriteResult where
  /-- The page is ROM or outside memory: nothing was stored. -/
  | ignored
  /-- Memory held the value already: nothing was stored. -/
  | unchanged
  /-- Stored; the counts of the page's watch met no code. -/
  | written
  /-- Stored, and the page's idle watch was released. -/
  | released
  /-- The counts met code; the blocks freed before the value was stored. -/
  | invalidated (blocks : Nat) (metRunning : Bool)
  deriving DecidableEq, Repr

namespace WriteResult

/-- The outcome of two parts of one write. -/
def merge : WriteResult → WriteResult → WriteResult
  | invalidated m h, invalidated n k => invalidated (m + n) (h || k)
  | invalidated m h, _ => invalidated m h
  | _, invalidated n k => invalidated n k
  | released, _ => released
  | _, released => released
  | written, _ => written
  | _, written => written
  | unchanged, _ => unchanged
  | _, unchanged => unchanged
  | ignored, ignored => ignored

def metRunning : WriteResult → Bool
  | invalidated _ h => h
  | _ => false

def blocks : WriteResult → Nat
  | invalidated n _ => n
  | _ => 0

@[simp] theorem metRunning_merge (a b : WriteResult) :
    (a.merge b).metRunning = (a.metRunning || b.metRunning) := by
  cases a <;> cases b <;> simp [merge, metRunning]

@[simp] theorem blocks_merge (a b : WriteResult) :
    (a.merge b).blocks = a.blocks + b.blocks := by
  cases a <;> cases b <;> simp [merge, blocks]

end WriteResult

/-- Guest memory and the code compiled from it. -/
structure GuardedMemory where
  code : CodeStore
  memory : Memory
  deriving DecidableEq

namespace GuardedMemory

/-! ## Watches of pages -/

/-- Releases a watch; its page is under none. -/
def releaseWatch (g : GuardedMemory) (id : WatchId) : GuardedMemory where
  code := { g.code with watches := g.code.watches.release id }
  memory := g.memory.setWatch (g.code.watches.watch id).page none

/-- Frees every block a watch indexes, and releases it. -/
def clearWatch (g : GuardedMemory) (id : WatchId) : GuardedMemory :=
  let w := g.code.watches.watch id
  { g with
    code := {
      arena := w.blocks.foldl Arena.vacate g.code.arena
      watches := g.code.watches.set id w.drain } }.releaseWatch id

def flush (g : GuardedMemory) : GuardedMemory :=
  g.code.watches.used.foldl clearWatch g

def installWatch (g : GuardedMemory) (id : WatchId) (page : Nat) : GuardedMemory where
  code := { g.code with watches := g.code.watches.install id page }
  memory := g.memory.setWatch page (some id)

/-- The watch of a page, put up if there is none; `none` if the page may not
hold code.  If no watch is free the oldest one in use is taken, and the blocks
it indexes are freed. -/
def watchPage (g : GuardedMemory) (page : Nat) :
    Except Fault (Option WatchId × GuardedMemory) :=
  match g.memory.watch? page with
  | some id => .ok (some id, g)
  | none =>
      if g.memory.pageCount ≤ page ∨ g.memory.isNoCode page then .ok (none, g)
      else
        let exhausted := Fault.watchesExhausted g.code.watches.capacity
        match g.code.watches.free with
        | id :: _ => .ok (some id, g.installWatch id page)
        | [] =>
            match g.code.watches.used with
            | [] => .error exhausted
            | oldest :: _ =>
                let g := g.clearWatch oldest
                match g.code.watches.free with
                | id :: _ => .ok (some id, g.installWatch id page)
                | [] => .error exhausted

/-! ## Writes -/

/-- The position some bytes after another, if the page is that long. -/
def lastOf (offset : Offset) (width : Width) : Offset :=
  ⟨min (offset.val + (width.bytes - 1)) (pageSize - 1), by simp only [pageSize]; omega⟩

/-- Stores a value that differs from what memory holds in a page that is under
a watch. -/
def writeWatched (g : GuardedMemory) (id : WatchId) (width : Width)
    (addr value : UInt32) (running : Option BlockId) : WriteResult × GuardedMemory :=
  let first := offsetOf addr
  let last := lastOf first width
  let w := g.code.watches.watch id
  let memory := g.memory.storeWidth width addr value
  if w.coverageBetween (bucketOf first) (bucketOf last) ≠ 0 then
    let watches := g.code.watches.set id (w.noteChanges first last)
    let (blocks, hit, code) :=
      { g.code with watches }.invalidate id first last running
    (.invalidated blocks hit, { code, memory })
  else if w.active ≠ 0 then
    (.written, { g with memory })
  else
    let watches := g.code.watches.set id { w with countdown := w.countdown - 1 }
    let g := { code := { g.code with watches }, memory }
    if w.countdown ≤ 1 then (.released, g.releaseWatch id) else (.written, g)

def writeWithin (g : GuardedMemory) (width : Width) (addr value : UInt32)
    (running : Option BlockId) : WriteResult × GuardedMemory :=
  let value := width.truncate value
  if !g.memory.contains addr || g.memory.isRom (pageOf addr) then (.ignored, g)
  else if g.memory.readWidth width addr = value then (.unchanged, g)
  else
    match g.memory.watch? (pageOf addr) with
    | some id => g.writeWatched id width addr value running
    | none => (.written, { g with memory := g.memory.storeWidth width addr value })

def crossesPage (width : Width) (addr : UInt32) : Bool :=
  pageSize < (offsetOf addr).val + width.bytes

/-- Stores a value at an address; `running` is the block whose code asks for
it.  A span that leaves its page is written byte by byte, each to its own
page. -/
def write (g : GuardedMemory) (width : Width) (addr value : UInt32)
    (running : Option BlockId) : WriteResult × GuardedMemory :=
  if crossesPage width addr then
    (List.range width.bytes).foldl
      (fun (outcome, g) i =>
        let (part, g) := g.writeWithin .byte (addr + i.toUInt32)
          (byteAt value i).toUInt32 running
        (outcome.merge part, g))
      (.ignored, g)
  else g.writeWithin width addr value running

/-- Frees every block whose source meets the addresses from `start` to `stop`.
Answers with their number, and whether the running block is among them. -/
def invalidate (g : GuardedMemory) (start stop : UInt32) (running : Option BlockId) :
    Nat × Bool × GuardedMemory :=
  if stop < start then (0, false, g)
  else
    let pages := List.range' (pageOf start)
      (min (pageOf stop + 1) g.memory.pageCount - pageOf start)
    pages.foldl
      (fun (freed, hit, g) page =>
        match g.memory.watch? page with
        | none => (freed, hit, g)
        | some id =>
            let first := if page = pageOf start then offsetOf start else 0
            let last := if page = pageOf stop then offsetOf stop else Fin.last (pageSize - 1)
            let (n, h, code) := g.code.invalidate id first last running
            (freed + n, hit || h, { g with code }))
      (0, false, g)

/-! ## The bus of an interpreter -/

/-- Runs a bus program; its writes are no block's. -/
def run {α : Type} (g : GuardedMemory) (p : BusProgram α) : α × GuardedMemory :=
  p.run (fun g addr => g.memory.read addr)
    (fun g width addr value => (g.write width addr value none).2) g

end GuardedMemory

end Recompiler
