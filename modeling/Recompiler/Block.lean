/-!
# Blocks, exits and return codes

A block is named by a number.  Numbers 0 and 1 name the two trampolines that
unlinked exits jump to; every other number names a descriptor of the pool.  A
block has at most two exits that can be linked, one per slot, and whatever way
control leaves compiled code is told by a return code.
-/

namespace Recompiler

inductive Slot where
  | first
  | second
  deriving DecidableEq, Repr

namespace Slot

def index : Slot → Nat
  | first => 0
  | second => 1

def all : List Slot := [first, second]

theorem mem_all (s : Slot) : s ∈ all := by
  cases s <;> simp [all]

theorem index_lt_two (s : Slot) : s.index < 2 := by
  cases s <;> decide

def name : Slot → String
  | first => "Link1"
  | second => "Link2"

end Slot

/-- The name of a block. -/
structure BlockId where
  number : Nat
  deriving DecidableEq, Repr

namespace BlockId

def trampoline : Slot → BlockId
  | .first => ⟨0⟩
  | .second => ⟨1⟩

/-- The name of the first descriptor of the pool. -/
def lowest : BlockId := ⟨2⟩

def isTrampoline (id : BlockId) : Bool := id.number < lowest.number

theorem isTrampoline_trampoline (s : Slot) :
    (trampoline s).isTrampoline = true := by
  cases s <;> rfl

theorem isTrampoline_iff {id : BlockId} :
    id.isTrampoline = true ↔ ∃ s, id = trampoline s := by
  constructor
  · intro h
    obtain ⟨n⟩ := id
    simp only [isTrampoline, lowest] at h
    match n, h with
    | 0, _ => exact ⟨.first, rfl⟩
    | 1, _ => exact ⟨.second, rfl⟩
  · rintro ⟨s, rfl⟩
    exact isTrampoline_trampoline s

theorem trampoline_inj {s t : Slot} : trampoline s = trampoline t ↔ s = t := by
  cases s <;> cases t <;> decide

def text : BlockId → String
  | ⟨0⟩ => "#link1"
  | ⟨1⟩ => "#link2"
  | ⟨n⟩ => s!"#{n}"

def word (id : BlockId) : UInt32 := id.number.toUInt32

def ofWord (w : UInt32) : BlockId := ⟨w.toNat⟩

theorem ofWord_word {id : BlockId} (h : id.number < UInt32.size) :
    ofWord id.word = id := by
  obtain ⟨n⟩ := id
  simp only [ofWord, word, Nat.toUInt32, UInt32.toNat_ofNat', mk.injEq]
  exact Nat.mod_eq_of_lt h

end BlockId

/-- The control-flow shape of a block. -/
inductive BlockKind where
  /-- No compiled code: an unused region or a block that was torn down. -/
  | free
  /-- Every exit returns to the dispatcher. -/
  | normal
  /-- One known successor, reached through the first slot. -/
  | single
  /-- Two known successors: not taken through the first slot, taken through
  the second. -/
  | dual
  deriving DecidableEq, Repr

namespace BlockKind

/-- The number of exits that can be linked. -/
def exitCount : BlockKind → Nat
  | free => 0
  | normal => 0
  | single => 1
  | dual => 2

def isLive : BlockKind → Bool
  | free => false
  | _ => true

theorem isLive_of_lt_exitCount {k : BlockKind} {n : Nat} (h : n < k.exitCount) :
    k.isLive = true := by
  cases k <;> first | rfl | exact absurd h (Nat.not_lt_zero n)

end BlockKind

/-- Why control left compiled code. -/
inductive ReturnCode where
  /-- Through a transfer that cannot be linked, such as a return. -/
  | normal
  /-- The cycle budget was used up when a block was entered. -/
  | cycles
  /-- Through an unlinked exit of the first slot. -/
  | firstExit
  /-- Through an unlinked exit of the second slot. -/
  | secondExit
  /-- The next instruction is the interpreter's. -/
  | opcode
  /-- A software interrupt; its vector is left in the context. -/
  | callback
  /-- A store of the running block invalidated that block. -/
  | selfModified
  deriving DecidableEq, Repr

namespace ReturnCode

def all : List ReturnCode :=
  [normal, cycles, firstExit, secondExit, opcode, callback, selfModified]

def word : ReturnCode → UInt32
  | normal => 0
  | cycles => 1
  | firstExit => 2
  | secondExit => 3
  | opcode => 4
  | callback => 5
  | selfModified => 6

def ofWord? (w : UInt32) : Option ReturnCode := all[w.toNat]?

@[simp] theorem ofWord?_word (c : ReturnCode) : ofWord? c.word = some c := by
  cases c <;> rfl

theorem word_inj {c d : ReturnCode} (h : c.word = d.word) : c = d := by
  have hsame := congrArg ofWord? h
  rwa [ofWord?_word, ofWord?_word, Option.some.injEq] at hsame

/-- The code an unlinked exit of a slot returns. -/
def ofSlot : Slot → ReturnCode
  | .first => firstExit
  | .second => secondExit

/-- The slot whose unlinked exit a code tells of. -/
def slot? : ReturnCode → Option Slot
  | firstExit => some .first
  | secondExit => some .second
  | _ => none

theorem slot?_eq_some_iff {c : ReturnCode} {s : Slot} :
    c.slot? = some s ↔ c = ofSlot s := by
  cases c <;> cases s <;> decide

end ReturnCode

end Recompiler
