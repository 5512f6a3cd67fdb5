import Recompiler.Fault
import Recompiler.Guest.Bus
import Recompiler.Guest.Page

/-!
# Guest memory

Memory starts at address 0 and is a whole number of pages.  Reading outside it
finds all ones, writing outside it changes nothing.  Each page may be ROM, may
be barred from compilation, and may be under a watch, with a mark that says so.
-/

namespace Recompiler

structure WatchId where
  number : Nat
  deriving DecidableEq, Repr

structure Page where
  bytes : Vector UInt8 pageSize
  /-- Writes are dropped. -/
  rom : Bool := false
  /-- Code on the page is never compiled. -/
  noCode : Bool := false
  /-- The watch that intercepts writes to the page. -/
  watch : Option WatchId := none
  /-- Writes have to go through a watch. -/
  hasCode : Bool := false
  deriving DecidableEq

namespace Page

def zero : Page where
  bytes := Vector.replicate pageSize 0

/-- The page's flags as a word: readable, writeable, under a watch, barred
from compilation, ROM, from the lowest bit up. -/
def flags (p : Page) : Nat :=
  1 + (if p.rom then 0 else 2) + (if p.hasCode then 4 else 0) +
    (if p.noCode then 8 else 0) + (if p.rom then 16 else 0)

end Page

/-- The only way a memory cannot be made: its size is no positive multiple of
the page size, or does not fit the address space. -/
structure MemorySizeError where
  size : Nat
  deriving DecidableEq, Repr

def MemorySizeError.message (e : MemorySizeError) : String :=
  s!"guest memory size {hexText e.size} is not a non-zero multiple of the 4KiB page size"

structure Memory where
  pages : Array Page
  deriving DecidableEq

namespace Memory

def ofSize (size : Nat) : Except MemorySizeError Memory :=
  if size = 0 ∨ size % pageSize ≠ 0 ∨ UInt32.size < size then
    .error ⟨size⟩
  else
    .ok ⟨Array.replicate (size / pageSize) Page.zero⟩

def pageCount (m : Memory) : Nat := m.pages.size

def size (m : Memory) : Nat := m.pages.size * pageSize

def contains (m : Memory) (addr : UInt32) : Bool := addr.toNat < m.size

/-- The flags of a page; a page outside memory has none. -/
def flags (m : Memory) (page : Nat) : Nat :=
  (m.pages[page]?).elim 0 Page.flags

def isRom (m : Memory) (page : Nat) : Bool :=
  (m.pages[page]?).elim false Page.rom

def isNoCode (m : Memory) (page : Nat) : Bool :=
  (m.pages[page]?).elim false Page.noCode

/-- Whether a page of memory is marked as one that code is compiled from. -/
def hasCode (m : Memory) (page : Nat) : Bool :=
  (m.pages[page]?).elim false Page.hasCode

def watch? (m : Memory) (page : Nat) : Option WatchId :=
  (m.pages[page]?).bind Page.watch

def bytes? (m : Memory) (page : Nat) : Option (Vector UInt8 pageSize) :=
  (m.pages[page]?).map Page.bytes

/-- The memory with one page changed; a page outside it is left alone. -/
def modifyPage (m : Memory) (page : Nat) (f : Page → Page) : Memory :=
  ⟨m.pages.modify page f⟩

def read (m : Memory) (addr : UInt32) : UInt8 :=
  match m.pages[pageOf addr]? with
  | some p => p.bytes[(offsetOf addr).val]
  | none => 0xFF

/-- The word of a width at an address, the lowest byte first; addresses
wrap. -/
def readWidth (m : Memory) (width : Width) (addr : UInt32) : UInt32 :=
  ofBytes ((List.range width.bytes).map fun i => m.read (addr + i.toUInt32))

/-- Stores a byte, whatever the page's flags say. -/
def store (m : Memory) (addr : UInt32) (value : UInt8) : Memory :=
  m.modifyPage (pageOf addr) fun p =>
    { p with bytes := p.bytes.set (offsetOf addr).val value (offsetOf addr).isLt }

def storeWidth (m : Memory) (width : Width) (addr value : UInt32) : Memory :=
  (List.range width.bytes).foldl
    (fun m i => m.store (addr + i.toUInt32) (byteAt value i)) m

/-- Writes a byte; ROM drops it. -/
def write (m : Memory) (addr : UInt32) (value : UInt8) : Memory :=
  if m.isRom (pageOf addr) then m else m.store addr value

/-- Writes a word byte by byte, each to its own page. -/
def writeWidth (m : Memory) (width : Width) (addr value : UInt32) : Memory :=
  (List.range width.bytes).foldl
    (fun m i => m.write (addr + i.toUInt32) (byteAt value i)) m

/-- Copies bytes in from an address on, whatever the flags say; what lies past
the end of memory is dropped. -/
def load (m : Memory) (addr : UInt32) (bytes : List UInt8) : Memory :=
  go m addr.toNat bytes
where
  /-- The copy, at a position that may have left the address space. -/
  go (m : Memory) (position : Nat) : List UInt8 → Memory
    | [] => m
    | b :: rest =>
        if position < m.size then
          go (m.store position.toUInt32 b) (position + 1) rest
        else m

def setRom (m : Memory) (page : Nat) (rom : Bool) : Memory :=
  m.modifyPage page fun p => { p with rom }

def setNoCode (m : Memory) (page : Nat) (noCode : Bool) : Memory :=
  m.modifyPage page fun p => { p with noCode }

/-- Puts a page under a watch, or under none, and marks it so. -/
def setWatch (m : Memory) (page : Nat) (watch : Option WatchId) : Memory :=
  m.modifyPage page fun p => { p with watch, hasCode := watch.isSome }

/-- Runs a bus program on memory that nothing watches. -/
def run {α : Type} (m : Memory) (p : BusProgram α) : α × Memory :=
  p.run read writeWidth m

/-! ## Each operation through what it leaves to be read -/

theorem getElem?_modifyPage (m : Memory) (page n : Nat) (f : Page → Page) :
    (m.modifyPage page f).pages[n]? =
      if page = n then (m.pages[n]?).map f else m.pages[n]? := by
  simp only [modifyPage, Array.getElem?_modify]

@[simp] theorem pageCount_modifyPage (m : Memory) (page : Nat)
    (f : Page → Page) : (m.modifyPage page f).pageCount = m.pageCount := by
  simp [modifyPage, pageCount]

theorem contains_iff (m : Memory) (addr : UInt32) :
    m.contains addr = true ↔ pageOf addr < m.pageCount := by
  rw [contains, decide_eq_true_iff, pageOf, pageCount, size,
    Nat.div_lt_iff_lt_mul (by decide)]

/-- A stored byte is read back, and no other byte changes. -/
theorem read_store (m : Memory) (a b : UInt32) (v : UInt8) :
    (m.store a v).read b = if a = b ∧ m.contains a then v else m.read b := by
  simp only [read, store, getElem?_modifyPage]
  by_cases hp : pageOf a = pageOf b
  · by_cases ho : offsetOf a = offsetOf b
    · have hab : a = b := by
        rw [← addressOf_pageOf_offsetOf a, ← addressOf_pageOf_offsetOf b, hp, ho]
      subst hab
      cases hm : m.pages[pageOf a]? with
      | none =>
          have : ¬ m.contains a = true := by
            rw [contains_iff, pageCount]
            exact fun hlt => by simp [Array.getElem?_eq_getElem hlt] at hm
          simp [this]
      | some p =>
          have hlt := (Array.getElem?_eq_some_iff.mp hm).1
          simp [(contains_iff m a).mpr hlt]
    · have hab : a ≠ b := fun h => ho (h ▸ rfl)
      have hne : (offsetOf a).val ≠ (offsetOf b).val := fun h => ho (Fin.ext h)
      cases hm : m.pages[pageOf b]? with
      | none => simp [hp, hab]
      | some p => simp [hp, hab, hne]
  · have hab : a ≠ b := fun h => hp (h ▸ rfl)
    simp [hp, hab]

end Memory

end Recompiler
