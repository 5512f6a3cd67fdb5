import Recompiler.Arena.Basic

/-!
# Links between blocks

An exit of a block is linked to another block or to its own slot's trampoline.
A block knows the exits that are linked to it by its ring, so that tearing it
down sends each of them back to its trampoline.  When a ring is full, the exit
whose place is used again is unlinked.
-/

namespace Recompiler

namespace Arena

def successor (a : Arena) (id : BlockId) (slot : Slot) : BlockId :=
  ((a.block id).links.get slot).block

def slotPosition (a : Arena) (id : BlockId) (slot : Slot) : Nat :=
  ((a.block id).links.get slot).position

def setLink (a : Arena) (id : BlockId) (slot : Slot) (target : BlockId) : Arena :=
  let link : Link := ⟨target, (a.block target).start⟩
  a.modify id fun d => { d with links := d.links.set link slot }

def unlink (a : Arena) (id : BlockId) (slot : Slot) : Arena :=
  a.setLink id slot (.trampoline slot)

def eraseRing (a : Arena) (id : BlockId) (test : ExitRef → Bool) : Arena :=
  a.modify id fun d => { d with ring := d.ring.erase test }

/-- Sends every exit of `id` that leads to `target` back to its trampoline. -/
def unlinkExitsTo (a : Arena) (id target : BlockId) : Arena :=
  Slot.all.foldl
    (fun a s => if a.successor id s = target then a.unlink id s else a) a

def forgetExitsOf (a : Arena) (id source : BlockId) : Arena :=
  a.eraseRing id fun e => e.block = source

/-- Records an exit in the ring of the block it is linked to.  An exit whose
place is used again is unlinked, if it still leads there. -/
def recordLink (a : Arena) (e : ExitRef) (target : BlockId) : Arena :=
  let evicted := (a.block target).ring.evicted?
  let a := a.modify target fun d => { d with ring := d.ring.push e }
  match evicted with
  | some old =>
      -- An entry may outlive its link only by hand; such a one evicts nobody.
      if a.successor old.block old.slot = target then
        (a.unlink old.block old.slot).count fun c =>
          { c with displaced := c.displaced + 1 }
      else a
  | none => a

/-- Links an exit of `source` to `target`. -/
def link (a : Arena) (source : BlockId) (slot : Slot) (target : BlockId) :
    Except Fault Arena :=
  if !target.isTrampoline && !a.isLive target then
    .error (.linkToFreed source slot target)
  else if (a.block source).kind.exitCount ≤ slot.index then
    .error (.corrupted .missingExit)
  else
    let current := a.successor source slot
    if current = target then .ok a
    else
      let e : ExitRef := ⟨source, slot⟩
      let a := if current.isTrampoline then a else a.eraseRing current (· = e)
      let a := if target.isTrampoline then a else a.recordLink e target
      .ok ((a.setLink source slot target).count fun c => { c with links := c.links + 1 })

/-- Tears down a block that no watch indexes: it is unlinked in both
directions and holds no compiled code any more.  Its region stays. -/
def vacate (a : Arena) (id : BlockId) : Arena :=
  let links := (a.block id).links
  let ring := (a.block id).ring
  -- The record is cleared first: a block may be linked to itself.
  let a := a.modify id fun d =>
    { d with kind := .free, source := none, links := .unlinked, ring := .empty }
  let a := Slot.all.foldl
    (fun a s =>
      let target := (links.get s).block
      if target.isTrampoline then a else a.forgetExitsOf target id) a
  ring.toList.foldl (fun a e => a.unlinkExitsTo e.block id) a

end Arena

end Recompiler
