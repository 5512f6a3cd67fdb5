import Recompiler.Watch.Basic

/-!
# Compiled code

Arena and watches together: every compiled block has a region in the one and
is indexed on the other, so tearing a block down concerns both, and so does
opening a block, which overwrites those that lie in its way.
-/

namespace Recompiler

/-- All compiled code, and the watches it is indexed on. -/
structure CodeStore where
  arena : Arena
  watches : Watches
  deriving DecidableEq

namespace CodeStore

def new (s : Settings) : CodeStore where
  arena := .new s
  watches := .new s.watches s.releaseDelay.toNat

/-- Takes a block off the watch it is indexed on. -/
def unindex (s : CodeStore) (id : BlockId) : Except Fault CodeStore :=
  match (s.arena.block id).source with
  | none => .ok s
  | some source =>
      match (s.watches.watch source.watch).remove? id source with
      | none => .error (.corrupted .unindexedBlock)
      | some w => .ok { s with watches := s.watches.set source.watch w }

/-- Tears a block down: it is taken off its watch, unlinked in both directions
and freed.  Trampolines are never torn down. -/
def discard (s : CodeStore) (id : BlockId) : Except Fault CodeStore :=
  if id.isTrampoline then .ok s
  else do
    let s ← s.unindex id
    return { s with arena := s.arena.vacate id }

/-- Tears a block down that is in the way of another. -/
def evict (s : CodeStore) (id : BlockId) : Except Fault CodeStore :=
  if s.arena.isLive id then do
    let s ← s.discard id
    return { s with arena := s.arena.count fun c => { c with evictions := c.evictions + 1 } }
  else .ok s

/-- Joins regions to one of `size` bytes until it has the scratch space of an
open block.  Answers with its size and the regions left. -/
def absorb (s : CodeStore) (size : Nat) :
    List BlockId → Except Fault (CodeStore × Nat × List BlockId)
  | [] => .ok (s, size, [])
  | id :: rest =>
      if size < s.arena.blockBytes then do
        let size := size + (s.arena.block id).size
        let s ← s.evict id
        { s with arena := s.arena.recycle id }.absorb size rest
      else .ok (s, size, id :: rest)

/-- Opens the active region for writing, and answers with its name.  Code that
lies in it, and in the regions joined to it, is torn down. -/
def openRegion (s : CodeStore) : Except Fault (BlockId × CodeStore) :=
  if s.arena.opened.isSome then .error (.corrupted .openWhileOpen)
  else do
    let id := s.arena.active
    let (before, after) := s.arena.around id
    let s ← s.evict id
    let (s, size, rest) ← s.absorb (s.arena.block id).size after
    let a := s.arena.modify id fun d => { d with size }
    let a :=
      { a with
        regions := before ++ id :: rest
        opened := some id
        pen := { a.pen with cursor := (a.block id).start } }
    return (id, { s with arena := a })

/-- Indexes a block that was compiled from a range of bytes of a watched
page. -/
def indexBlock (s : CodeStore) (id : BlockId) (watch : WatchId)
    (page : Vector UInt8 pageSize) (first last : Offset) : CodeStore :=
  let w := s.watches.watch watch
  { arena := s.arena.modify id fun d =>
      { d with source := some ⟨watch, w.page, first, last, bytesBetween page first last⟩ }
    watches := s.watches.set watch (w.index id first last) }

/-- Frees the blocks of a watch whose source meets the bytes from `first` to
`last`.  Answers with their number, and whether the running block is among
them. -/
def invalidate (s : CodeStore) (watch : WatchId) (first last : Offset)
    (running : Option BlockId) : Nat × Bool × CodeStore :=
  let r := (s.watches.watch watch).invalidate s.arena first last running
  (r.freed, r.metRunning,
    { arena := r.arena, watches := s.watches.set watch r.watch })

/-! ## Audits -/

/-- Whether the regions lie in order without gaps from `position` on, and what
is not compiled is clean. -/
def auditRegions (a : Arena) (position : Nat) : List BlockId → Except Fault Unit
  | [] => .ok ()
  | id :: rest =>
      let d := a.block id
      if d.start ≠ position then .error (.corrupted .gapBetweenRegions)
      else if !d.isLive && !d.isClean then .error (.uncleanFree id)
      else auditRegions a (position + d.size) rest

def auditArena (a : Arena) : Except Fault Unit := do
  auditRegions a stubBytes a.regions
  if a.regions.length + a.free.length + 2 ≠ a.capacity then
    throw (.corrupted .leakedDescriptor)

def auditExit (a : Arena) (id : BlockId) (slot : Slot) : Except Fault Unit :=
  let target := a.successor id slot
  if a.slotPosition id slot ≠ (a.block target).start then
    .error (.corrupted .slotTarget)
  else if target.isTrampoline then .ok ()
  else if !a.isLive target then .error (.linkToFreed id slot target)
  else if (a.block id).kind = .free then .error (.uncleanFree id)
  else if ⟨id, slot⟩ ∈ (a.block target).ring.toList then .ok ()
  else .error (.unrecordedLink id slot target)

def auditBlock (a : Arena) (id : BlockId) : Except Fault Unit := do
  Slot.all.forM (auditExit a id)
  (a.block id).ring.toList.forM fun e =>
    if a.successor e.block e.slot = id then .ok ()
    else .error (.falseRecord e.block e.slot id)

def auditLinks (a : Arena) : Except Fault Unit :=
  (List.range' 2 (a.capacity - 2)).forM fun n => auditBlock a ⟨n⟩

/-- How many of some blocks touch a bucket. -/
def coverageOf (a : Arena) (blocks : List BlockId) (b : Nat) : Nat :=
  (blocks.filter fun id => (a.block id).source.any fun s =>
    s.buckets.1.val ≤ b && b ≤ s.buckets.2.val).length

def belongs (a : Arena) (watch : WatchId) (b : Nat) (id : BlockId) : Bool :=
  (a.block id).isLive &&
    (a.block id).source.any fun s => s.watch = watch && s.buckets.1.val = b

def auditWatch (s : CodeStore) (watch : WatchId) : Except Fault Unit := do
  let w := s.watches.watch watch
  (List.finRange bucketCount).forM fun b =>
    if w.buckets[b.val].all (belongs s.arena watch b.val) then .ok ()
    else .error (.corrupted .foreignBlock)
  let blocks := w.blocks
  (List.finRange bucketCount).forM fun b =>
    let actual := coverageOf s.arena blocks b.val
    if w.coverage[b.val] = actual then .ok ()
    else .error (.coverageMismatch w.page b.val w.coverage[b.val] actual)

def audit (s : CodeStore) : Except Fault Unit := do
  auditArena s.arena
  auditLinks s.arena
  s.watches.used.forM s.auditWatch

end CodeStore

end Recompiler
