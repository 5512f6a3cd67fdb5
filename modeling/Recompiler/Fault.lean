import Recompiler.Block

/-!
# Faults

A fault is a broken rule of the recompiler itself, not an event of the guest.
It ends whatever was being done, and nothing is observed of the state it
leaves.  Each constructor is one cause; `Fault.message` words them.
-/

namespace Recompiler

/-- A rule about arena, links or page watches that was found broken. -/
inductive Corruption where
  | openWhileOpen
  | closeWithoutOpen
  | missingExit
  | notCompiled
  | helperWithoutOwner
  | unindexedBlock
  | releasedWithBlocks
  | gapBetweenRegions
  | leakedDescriptor
  | slotTarget
  | foreignBlock
  | outsideMemory
  | strayControl
  deriving DecidableEq, Repr

def Corruption.message : Corruption → String
  | openWhileOpen => "open_block while a block is open"
  | closeWithoutOpen => "close_block without an open block"
  | missingExit => "linked an exit the block does not have"
  | notCompiled => "executing a block that is not compiled"
  | helperWithoutOwner => "compiled code called a helper without an engine"
  | unindexedBlock => "block missing from its code page bucket"
  | releasedWithBlocks => "released a code page that still has blocks"
  | gapBetweenRegions => "arena regions are not contiguous"
  | leakedDescriptor => "descriptors leaked from the pool"
  | slotTarget => "link slot disagrees with link target"
  | foreignBlock => "code page indexes a block it does not own"
  | outsideMemory => "translating outside guest memory"
  | strayControl => "compiled code ran past its block"

/-- Why the recompiler gave up. -/
inductive Fault where
  | descriptorsExhausted (capacity : Nat)
  | overrun (written size : Nat)
  | corrupted (what : Corruption)
  | linkToFreed (source : BlockId) (slot : Slot) (target : BlockId)
  | unrecordedLink (source : BlockId) (slot : Slot) (target : BlockId)
  | falseRecord (source : BlockId) (slot : Slot) (target : BlockId)
  | uncleanFree (block : BlockId)
  | coverageMismatch (page bucket recorded actual : Nat)
  | watchesExhausted (capacity : Nat)
  | unknownReturn (word : UInt32)
  deriving DecidableEq, Repr

def hexText (n : Nat) : String := "0x" ++ String.ofList (Nat.toDigits 16 n)

def Fault.message : Fault → String
  | descriptorsExhausted capacity =>
      s!"cache block pool exhausted ({capacity} descriptors)"
  | overrun written size =>
      s!"block overran scratch space: wrote {written} bytes into a {size} byte region"
  | corrupted what => s!"cache arena corrupted: {what.message}"
  | linkToFreed source slot target =>
      s!"block {source.text} {slot.name} links to freed block {target.text}"
  | unrecordedLink source slot target =>
      s!"block {source.text} {slot.name} links to {target.text} but is missing from its back-reference ring"
  | falseRecord source slot target =>
      s!"back-reference ring of block {target.text} names {source.text} {slot.name}, which does not link there"
  | uncleanFree block =>
      s!"free block {block.text} still carries links or a code page"
  | coverageMismatch page bucket recorded actual =>
      s!"code page {hexText page} bucket {bucket} write_map is {recorded}, blocks cover it {actual} times"
  | watchesExhausted capacity =>
      s!"code page pool exhausted ({capacity} handlers)"
  | unknownReturn word =>
      s!"compiled code returned invalid block return code {word.toNat}"

/-! ## Computations that may fail -/

/-- A computation in two steps succeeds when both do. -/
theorem bind_eq_ok_iff {α β : Type} {x : Except Fault α} {f : α → Except Fault β} {b : β} :
    (x >>= f) = .ok b ↔ ∃ a, x = .ok a ∧ f a = .ok b := by
  cases x with
  | error e =>
      constructor
      · intro h
        cases h
      · rintro ⟨a, h, _⟩
        cases h
  | ok a =>
      constructor
      · exact fun h => ⟨a, rfl, h⟩
      · rintro ⟨_, hx, h⟩
        cases hx
        exact h

theorem map_bind_eq {α α' β β' : Type} {p : α → α'} {q : β → β'} {f : α → Except Fault β}
    {g : α' → Except Fault β'} (h : ∀ a, (f a).map q = g (p a)) (x : Except Fault α) :
    (x >>= f).map q = x.map p >>= g := by
  cases x with
  | error e => rfl
  | ok a => exact h a

def succeeds {α : Type} (x : Except Fault α) (p : α → Bool) : Bool :=
  match x with
  | .ok a => p a
  | .error _ => false

def failsWith {α : Type} (x : Except Fault α) (fault : Fault) : Bool :=
  match x with
  | .ok _ => false
  | .error f => f = fault

theorem eq_error_of_failsWith {α : Type} {x : Except Fault α} {fault : Fault}
    (h : failsWith x fault = true) : x = .error fault := by
  cases x with
  | error _ => rw [of_decide_eq_true h]
  | ok _ => cases h

theorem exists_of_succeeds {α : Type} {x : Except Fault α} {p : α → Bool}
    (h : succeeds x p = true) : ∃ a, x = .ok a ∧ p a = true := by
  cases x with
  | error _ => cases h
  | ok a => exact ⟨a, rfl, h⟩

end Recompiler
