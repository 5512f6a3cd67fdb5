import Recompiler.Proofs.Emulator.Block

/-!
# Where the exits of a block lead

The code of a block has one way out through a slot that can be linked.  On that
way it stores an address, which the last of its instructions decides.
-/

namespace Recompiler

open Operation

/-! ## The code of an exit -/

/-- Operations with one way out through a slot of a block, on which an address
is stored. -/
structure StoresOnExit (ops : List Operation) (id : BlockId) (slot : Slot) (addr : UInt32) :
    Prop where
  code : ∃ before count after, ops = before ++ leaveThrough id slot addr count ++ after ∧
    jumpThrough (.exitSlot id slot) ∉ before ++ after

theorem StoresOnExit.within {ops : List Operation} {id : BlockId} {slot : Slot} {addr : UInt32}
    (h : StoresOnExit ops id slot addr) {before after : List Operation}
    (hb : jumpThrough (.exitSlot id slot) ∉ before)
    (ha : jumpThrough (.exitSlot id slot) ∉ after) :
    StoresOnExit (before ++ ops ++ after) id slot addr := by
  obtain ⟨xs, count, ys, rfl, hn⟩ := h
  refine ⟨before ++ xs, count, ys ++ after, by simp only [List.append_assoc], ?_⟩
  rw [List.mem_append, not_or] at hn
  simp only [List.mem_append, not_or]
  exact ⟨⟨hb, hn.1⟩, hn.2, ha⟩

/-! ## The exits of a block -/

section NoJump

variable (place : HostAddress)

theorem jump_not_mem_effectiveAddress (a : Address) :
    jumpThrough place ∉ effectiveAddress a := by
  obtain ⟨base, index, disp⟩ := a
  rw [effectiveAddress, List.mem_append, not_or]
  constructor
  · cases base with
    | none => simp
    | some r => by_cases hd : disp = 0 <;> simp [hd]
  · cases index <;> simp

theorem jump_not_mem_body (p : Placed) (label : Nat) : jumpThrough place ∉ p.body label := by
  have haddr := jump_not_mem_effectiveAddress place
  obtain ⟨i, next⟩ := p
  cases i with
  | store a width src => cases src <;> simp [Placed.body, writeMemory, haddr a]
  | load dst a | lea dst a => simp [Placed.body, readMemory, haddr a]
  | alu op dst src => cases src <;> by_cases hk : op.keepsResult <;> simp [Placed.body, hk]
  | _ => simp [Placed.body, readMemory, writeMemory, lowerStack, raiseStack]

theorem jump_not_mem_bodies (label : Nat) (ps : List Placed) :
    jumpThrough place ∉ bodies label ps := by
  induction ps generalizing label with
  | nil => exact List.not_mem_nil
  | cons p rest ih =>
      rw [bodies, List.mem_append, not_or]
      exact ⟨jump_not_mem_body place p label, ih _⟩

theorem jump_not_mem_leaveWith (eip : Option UInt32) (count : Nat) (code : ReturnCode) :
    jumpThrough place ∉ leaveWith eip count code := by
  cases eip <;> by_cases hc : count = 0 <;> simp [leaveWith, spend, hc]

theorem jump_not_mem_writeStubs (label count : Nat) (ps : List Placed) :
    jumpThrough place ∉ writeStubs label count ps := by
  induction ps generalizing label count with
  | nil => exact List.not_mem_nil
  | cons p rest ih =>
      rw [writeStubs]
      split
      · simp [jump_not_mem_leaveWith, ih]
      · exact ih _ _

theorem jump_not_mem_leaveThrough {id : BlockId} {slot : Slot}
    (hp : place ≠ .exitSlot id slot) (addr : UInt32) (count : Nat) :
    jumpThrough place ∉ leaveThrough id slot addr count := by
  by_cases hc : count = 0 <;> simp [leaveThrough, spend, hc, hp]

end NoJump

theorem Exit.storesOnExit {e : Exit} {slot : Slot} {addr : UInt32}
    (h : e.target? slot = some addr) (id : BlockId) (count label : Nat) :
    StoresOnExit (e.operations id count label) id slot addr := by
  have hother : ∀ {s t : Slot}, s ≠ t → (HostAddress.exitSlot id s) ≠ .exitSlot id t :=
    fun hne he => hne (HostAddress.exitSlot.inj he).2
  cases e with
  | limit target | jump target =>
      cases slot with
      | first =>
          cases h
          exact ⟨[], count, [], by simp [Exit.operations], by simp⟩
      | second => cases h
  | branch cond taken notTaken =>
      cases slot with
      | first =>
          cases h
          refine ⟨[loadFlags Field.eflags, .branch (.guest cond) label], count,
            place label :: leaveThrough id .second taken count, rfl, ?_⟩
          simp [jump_not_mem_leaveThrough _ (hother (show Slot.first ≠ .second by decide))]
      | second =>
          cases h
          refine ⟨[loadFlags Field.eflags, .branch (.guest cond) label] ++
            leaveThrough id .first notTaken count ++ [place label], count, [],
            by simp [Exit.operations], ?_⟩
          simp [jump_not_mem_leaveThrough _ (hother (show Slot.second ≠ .first by decide))]
  | computed | interpret _ | callback _ => cases slot <;> cases h

/-- **A block stores the address that its exit leads to,** and has no other way
out through that slot. -/
theorem Sequence.storesOnExit {seq : Sequence} {slot : Slot} {addr : UInt32}
    (h : seq.exit.target? slot = some addr) (id : BlockId) :
    StoresOnExit (seq.operations id) id slot addr := by
  have hexit := Exit.storesOnExit h id seq.instructions.length
    (cycleLabel + 1 + writeCount seq.instructions)
  rw [Sequence.operations, List.append_assoc (_ ++ _ ++ _)]
  refine hexit.within ?_ ?_
  · simp [prologue, jump_not_mem_bodies]
  · simp [jump_not_mem_writeStubs]

/-! ## What decides where an exit leads -/

/-- Where a block that ends with an instruction goes on, by its kind and the
slot it is left through. -/
inductive Placed.LeadsTo (p : Placed) : BlockKind → Slot → UInt32 → Prop
  | jump {target : UInt32} (h : p.instruction = .jump target) : LeadsTo p .single .first target
  | call {target : UInt32} (h : p.instruction = .call target) : LeadsTo p .single .first target
  /-- The block was cut off. -/
  | next (h : p.exit? = none) : LeadsTo p .single .first p.next
  | notTaken {cond : Condition} {target : UInt32} (h : p.instruction = .jumpIf cond target) :
      LeadsTo p .dual .first p.next
  | taken {cond : Condition} {target : UInt32} (h : p.instruction = .jumpIf cond target) :
      LeadsTo p .dual .second target

/-- An instruction that ends a block decides where its exit leads. -/
theorem Placed.leadsTo_of_exit? {p : Placed} {e : Exit} (he : p.exit? = some e) {slot : Slot}
    {addr : UInt32} (h : e.target? slot = some addr) : p.LeadsTo e.kind slot addr := by
  obtain ⟨i, next⟩ := p
  cases i with
  | jump target =>
      cases he
      cases slot with
      | first => cases h; exact .jump rfl
      | second => cases h
  | call target =>
      cases he
      cases slot with
      | first => cases h; exact .call rfl
      | second => cases h
  | jumpIf cond target =>
      cases he
      cases slot with
      | first => cases h; exact .notTaken rfl
      | second => cases h; exact .taken rfl
  | ret | jumpReg _ | interrupt _ =>
      cases he
      cases slot <;> cases h
  | _ => cases he

theorem Follows.leadsTo {code : UInt32 → Option Placed} {eip : UInt32} {ps : List Placed}
    {e : Exit} (hf : Follows code eip ps e) (hne : ps ≠ []) {slot : Slot} {addr : UInt32}
    (h : e.target? slot = some addr) :
    ∃ p, ps.getLast? = some p ∧ p.LeadsTo e.kind slot addr := by
  induction hf with
  | limit _ | interpret _ => exact absurd rfl hne
  | @last eip p e _ he => exact ⟨p, rfl, p.leadsTo_of_exit? he h⟩
  | @next eip p ps e _ he hf ih =>
      cases ps with
      | nil =>
          cases hf with
          | limit _ =>
              cases slot with
              | first => cases h; exact ⟨p, rfl, .next he⟩
              | second => cases h
          | interpret _ => cases slot <;> cases h
      | cons q rest =>
          obtain ⟨r, hr, hleads⟩ := ih (List.cons_ne_nil q rest) h
          exact ⟨r, by rw [List.getLast?_cons_cons, hr], hleads⟩

end Recompiler
