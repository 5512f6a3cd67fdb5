import Recompiler.Guest.Memory
import Recompiler.Host.Operation

/-!
# Block descriptors

The record of one block: the region of the arena it lies in, the guest bytes it
was compiled from, where its exits lead, and who leads to it.  Back-references
are kept in a ring of fixed size; when it is full the place used longest ago is
used again.
-/

namespace Recompiler

abbrev ringSize : Nat := 16

/-- An exit of a block. -/
structure ExitRef where
  block : BlockId
  slot : Slot
  deriving DecidableEq, Repr

/-- Where an exit leads: the block, and the arena position that compiled code
jumps to. -/
structure Link where
  block : BlockId
  position : Nat
  deriving DecidableEq, Repr

def trampolinePosition : Slot → Nat
  | .first => 64
  | .second => 96

def trampolineBytes : Nat := 32

def Link.trampoline (s : Slot) : Link := ⟨.trampoline s, trampolinePosition s⟩

structure Links where
  first : Link := .trampoline .first
  second : Link := .trampoline .second
  deriving DecidableEq, Repr

namespace Links

def get (l : Links) : Slot → Link
  | .first => l.first
  | .second => l.second

def set (l : Links) (link : Link) : Slot → Links
  | .first => { l with first := link }
  | .second => { l with second := link }

def unlinked : Links := {}

theorem get_set (l : Links) (link : Link) (s t : Slot) :
    (l.set link s).get t = if s = t then link else l.get t := by
  cases s <;> cases t <;> rfl

@[simp] theorem get_unlinked (s : Slot) : unlinked.get s = .trampoline s := by
  cases s <;> rfl

end Links

structure Ring where
  entries : Vector (Option ExitRef) ringSize
  /-- The place to use next. -/
  next : Fin ringSize
  deriving DecidableEq, Repr

namespace Ring

def empty : Ring := ⟨Vector.replicate ringSize none, ⟨0, by decide⟩⟩

def toList (r : Ring) : List ExitRef := r.entries.toList.filterMap id

/-- The entry that using the next place would put out. -/
def evicted? (r : Ring) : Option ExitRef := r.entries[r.next.val]

def push (r : Ring) (e : ExitRef) : Ring where
  entries := r.entries.set r.next.val (some e)
  next := r.next + 1

/-- The ring without the entries that satisfy a test; places do not move. -/
def erase (r : Ring) (test : ExitRef → Bool) : Ring :=
  { r with entries := r.entries.map fun e => if e.any test then none else e }

theorem mem_toList {r : Ring} {e : ExitRef} :
    e ∈ r.toList ↔ some e ∈ r.entries := by
  simp [toList]

theorem mem_toList_erase {r : Ring} {test : ExitRef → Bool} {e : ExitRef} :
    e ∈ (r.erase test).toList ↔ e ∈ r.toList ∧ test e = false := by
  simp only [mem_toList, erase, Vector.mem_map]
  constructor
  · rintro ⟨x, hx, he⟩
    split at he
    · cases he
    · next h => subst he; exact ⟨hx, by simpa using h⟩
  · rintro ⟨he, ht⟩
    exact ⟨some e, he, by simp [ht]⟩

end Ring

/-- The guest bytes a block was compiled from, and the watch it is indexed
on. -/
structure Source where
  watch : WatchId
  page : Nat
  first : Offset
  last : Offset
  /-- The bytes themselves, as they were when the block was compiled. -/
  bytes : List UInt8
  deriving DecidableEq, Repr

namespace Source

def overlaps (s : Source) (first last : Offset) : Bool :=
  first ≤ s.last && s.first ≤ last

def start (s : Source) : UInt32 := addressOf s.page s.first

def stop (s : Source) : UInt32 := addressOf s.page s.last

def buckets (s : Source) : Bucket × Bucket := (bucketOf s.first, bucketOf s.last)

/-- A source overlaps a range exactly when they have a byte in common. -/
theorem overlaps_iff {s : Source} {first last : Offset}
    (hs : s.first ≤ s.last) (h : first ≤ last) :
    s.overlaps first last = true ↔
      ∃ o : Offset, first ≤ o ∧ o ≤ last ∧ s.first ≤ o ∧ o ≤ s.last := by
  simp only [overlaps, Bool.and_eq_true, decide_eq_true_eq, Fin.le_def] at *
  constructor
  · rintro ⟨h1, h2⟩
    by_cases hle : first.val ≤ s.first.val
    · exact ⟨s.first, hle, h2, Nat.le_refl _, hs⟩
    · exact ⟨first, Nat.le_refl _, h, by omega, h1⟩
  · rintro ⟨o, h1, h2, h3, h4⟩
    omega

end Source

structure Descriptor where
  kind : BlockKind := .free
  /-- Arena position and length of the region. -/
  start : Nat := 0
  size : Nat := 0
  /-- Present while the block is indexed on a watch. -/
  source : Option Source := none
  links : Links := .unlinked
  ring : Ring := .empty
  /-- How often the descriptor was closed around new code. -/
  generation : UInt32 := 0
  /-- The operations the code in the region stands for. -/
  program : List Operation := []
  deriving DecidableEq, Repr

namespace Descriptor

def unused : Descriptor := {}

def trampoline (s : Slot) : Descriptor where
  start := trampolinePosition s
  size := trampolineBytes

def isLive (d : Descriptor) : Bool := d.kind.isLive

/-- Whether nothing links or indexes the block: neither its exits nor its ring
nor a source. -/
def isClean (d : Descriptor) : Bool :=
  d.source.isNone && d.ring.toList.isEmpty &&
    Slot.all.all fun s => (d.links.get s).block = .trampoline s

end Descriptor

end Recompiler
