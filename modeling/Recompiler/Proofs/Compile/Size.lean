import Mathlib.Algebra.GroupWithZero.Nat
import Recompiler.Proofs.Compile.Source

/-!
# The size of a block's code

Every host instruction has a length it never exceeds, and so has every
operation.  Summed over the body of an instruction, over an exit and over a
stub these stay within the room set aside for each, so a block never outgrows
its scratch space.
-/

namespace Recompiler

namespace HostInstruction

theorem length_rex_le (wide : Bool) (reg rm : HostRegister) : (rex wide reg rm).length ≤ 1 := by
  unfold rex
  generalize 0x40 ||| (if wide then 8 else 0) ||| 4 * reg.high ||| rm.high = b
  by_cases hb : b = 0x40 <;> simp [hb]

theorem length_rexByte_le (reg rm : HostRegister) : (rexByte reg rm).length ≤ 1 := by
  unfold rexByte
  simp only
  split
  · exact Nat.zero_le _
  · exact Nat.le_refl _

@[simp] theorem length_field (reg : UInt8) (offset : UInt32) : (field reg offset).length = 5 := rfl

/-- The longest an instruction gets. -/
def room : HostInstruction → Nat
  | pushFlags | popFlags | ret | raw _ => 1
  | push _ | pop _ => 2
  | callReg _ | jumpMem _ | moveReg _ _ | moveReg64 _ _ | alu _ _ _ | unary _ _ => 3
  | shlImm _ _ => 4
  | callRel _ | jumpRel _ => 5
  | jumpIf _ _ | moveImm _ _ => 6
  | load .long _ _ | load64 _ _ | store .long _ _ | store .byte _ _ | aluImm _ _ _ => 7
  | load _ _ _ | store .word _ _ => 8
  | storeImm _ _ | subFieldImm _ _ | moveAddress _ _ => 10

theorem length_encode_le (i : HostInstruction) : i.encode.length ≤ i.room := by
  have hrex := length_rex_le
  have hbyte := length_rexByte_le
  cases i with
  | load width dst offset | store width offset dst =>
      have := hrex false dst .rbx
      have := hbyte dst .rbx
      cases width <;> simp [encode, literalBytes, room] <;> omega
  | load64 dst offset =>
      have := hrex true dst .rbx
      simp [encode, literalBytes, room]
      omega
  | push r | pop r | callReg r | jumpMem r | moveImm r _ | shlImm r _ | aluImm _ r _ =>
      have := hrex false .rax r
      simp [encode, literalBytes, room]
      omega
  | unary op r =>
      have := hrex false .rax r
      cases op <;> simp [encode, literalBytes, room] <;> omega
  | moveReg dst src | alu _ dst src =>
      have := hrex false src dst
      simp [encode, literalBytes, room]
      omega
  | moveReg64 dst src =>
      have := hrex true src dst
      simp [encode, literalBytes, room]
      omega
  | moveAddress dst addr =>
      have := hrex true .rax dst
      simp [encode, literalBytes, room]
      omega
  | pushFlags | popFlags | ret | raw _ | callRel _ | jumpRel _ | jumpIf _ _ | storeImm _ _
  | subFieldImm _ _ =>
      simp [encode, literalBytes, room]

def roomOf (is : List HostInstruction) : Nat := (is.map room).sum

theorem length_flatMap_encode_le (is : List HostInstruction) :
    (is.flatMap encode).length ≤ roomOf is := by
  induction is with
  | nil => exact Nat.le_refl _
  | cons i rest ih =>
      rw [List.flatMap_cons, List.length_append, roomOf, List.map_cons, List.sum_cons]
      exact Nat.add_le_add (length_encode_le i) ih

end HostInstruction

namespace Operation

/-- The longest an operation gets; a call is one by name. -/
def room : Operation → Nat
  | place _ => 0
  | literal _ => 1
  | move _ _ | alu _ _ _ | unary _ _ | paramRole _ _ => 3
  | shlImm _ _ => 4
  | leave _ | moveImm _ _ | paramImm _ _ => 7
  | aluImm _ _ _ | paramPointer _ _ => 7
  | loadContext _ _ _ | storeContext _ _ _ => 8
  | branch _ _ => 9
  | storeContextImm _ _ | subContextImm _ _ => 10
  | call _ | jumpThrough _ => 13
  | loadFlags _ => 17
  | enter => 31
  | saveFlags _ => 35

theorem codeLength_le_room (op : Operation) : op.codeLength ≤ op.room := by
  refine Nat.le_trans (HostInstruction.length_flatMap_encode_le _) ?_
  cases op with
  | move dst src =>
      simp only [instructions]
      split <;> simp [HostInstruction.roomOf, HostInstruction.room, room]
  | paramRole param src =>
      simp only [instructions]
      split <;> simp [HostInstruction.roomOf, HostInstruction.room, room]
  | shlImm r amount =>
      simp only [instructions]
      split <;> simp [HostInstruction.roomOf, HostInstruction.room, room]
  | loadContext _ _ width | storeContext _ _ width =>
      cases width <;> simp [instructions, HostInstruction.roomOf, HostInstruction.room, room]
  | branch cond label =>
      cases cond <;>
        simp [instructions, BranchCondition.instructions, HostInstruction.roomOf,
          HostInstruction.room, room]
  | call target =>
      cases target with
      | absolute a =>
          simp only [instructions, callInstructions]
          split <;> simp [HostInstruction.roomOf, HostInstruction.room, room]
      | helper _ | exitSlot _ _ =>
          simp [instructions, callInstructions, HostInstruction.roomOf, HostInstruction.room, room]
  | _ => simp [instructions, preserved, HostInstruction.roomOf, HostInstruction.room, room]

end Operation

/-! ## Runs of operations -/

@[simp] theorem codeLength_nil : codeLength [] = 0 := rfl

@[simp] theorem codeLength_cons (op : Operation) (ops : List Operation) :
    codeLength (op :: ops) = op.codeLength + codeLength ops := rfl

@[simp] theorem codeLength_append (xs ys : List Operation) :
    codeLength (xs ++ ys) = codeLength xs + codeLength ys := by
  induction xs with
  | nil => simp
  | cons op rest ih => simp [ih, Nat.add_assoc]

def roomOf (ops : List Operation) : Nat := (ops.map Operation.room).sum

@[simp] theorem roomOf_nil : roomOf [] = 0 := rfl

@[simp] theorem roomOf_cons (op : Operation) (ops : List Operation) :
    roomOf (op :: ops) = op.room + roomOf ops := by
  simp [roomOf]

@[simp] theorem roomOf_append (xs ys : List Operation) :
    roomOf (xs ++ ys) = roomOf xs + roomOf ys := by
  simp [roomOf]

theorem codeLength_le_roomOf (ops : List Operation) : codeLength ops ≤ roomOf ops := by
  induction ops with
  | nil => exact Nat.le_refl _
  | cons op rest ih =>
      rw [codeLength_cons, roomOf_cons]
      exact Nat.add_le_add op.codeLength_le_room ih

theorem roomOf_effectiveAddress (a : Address) : roomOf (Operation.effectiveAddress a) ≤ 30 := by
  obtain ⟨base, index, disp⟩ := a
  by_cases hd : disp = 0 <;> rcases base with _ | base <;> rcases index with _ | ⟨index, shift⟩ <;>
    simp [Operation.effectiveAddress, Operation.room, hd]

/-- **The body of an instruction stays within the room set aside for it.** -/
theorem codeLength_body_le (p : Placed) (label : Nat) :
    codeLength (p.body label) ≤ instructionRoom := by
  refine Nat.le_trans (codeLength_le_roomOf _) ?_
  unfold Placed.body
  cases p.instruction with
  | load dst a =>
      have := roomOf_effectiveAddress a
      simp [Operation.readMemory, Operation.room, instructionRoom]
      omega
  | store a width src =>
      have := roomOf_effectiveAddress a
      cases src <;> simp [Operation.writeMemory, Operation.room, instructionRoom] <;> omega
  | lea dst a =>
      have := roomOf_effectiveAddress a
      simp [Operation.room, instructionRoom]
      omega
  | alu op dst src =>
      cases src <;> simp only [] <;> split <;> simp [Operation.room, instructionRoom]
  | _ =>
      simp [Operation.readMemory, Operation.writeMemory, Operation.lowerStack,
        Operation.raiseStack, Operation.room, instructionRoom]

theorem codeLength_body (p : Placed) (label : Nat) :
    codeLength (p.body label) = codeLength (p.body 0) := by
  unfold Placed.body Operation.writeMemory
  cases p.instruction with
  | store a width src =>
      cases src <;> simp only [codeLength_append, codeLength_cons] <;> rfl
  | push _ | call _ => simp only [codeLength_append, codeLength_cons]; rfl
  | _ => rfl

theorem codeLength_spend_le (count : Nat) : codeLength (Operation.spend count) ≤ 10 := by
  refine Nat.le_trans (codeLength_le_roomOf _) ?_
  unfold Operation.spend
  split <;> simp [Operation.room]

theorem codeLength_leaveWith_le (eip : Option UInt32) (count : Nat) (code : ReturnCode) :
    codeLength (Operation.leaveWith eip count code) ≤ stubRoom := by
  have hspend := codeLength_spend_le count
  have hleave := (Operation.leave code).codeLength_le_room
  unfold Operation.leaveWith
  cases eip with
  | none =>
      simp [stubRoom, Operation.room] at *
      omega
  | some eip =>
      have := (Operation.storeContextImm Field.eip eip).codeLength_le_room
      simp [stubRoom, Operation.room] at *
      omega

/-- **An exit stays within the room set aside for it.** -/
theorem codeLength_exit_le (e : Exit) (id : BlockId) (count label : Nat) :
    codeLength (e.operations id count label) ≤ exitRoom := by
  have hthrough : ∀ slot target,
      codeLength (Operation.leaveThrough id slot target count) ≤ 33 := by
    intro slot target
    have hspend := codeLength_spend_le count
    have h1 := (Operation.storeContextImm Field.eip target).codeLength_le_room
    have h2 := (Operation.jumpThrough (.exitSlot id slot)).codeLength_le_room
    simp [Operation.leaveThrough, Operation.room] at *
    omega
  have hwith : ∀ eip code, codeLength (Operation.leaveWith eip count code) ≤ exitRoom :=
    fun eip code => Nat.le_trans (codeLength_leaveWith_le eip count code) (by decide)
  unfold Exit.operations
  cases e with
  | limit target | jump target => exact Nat.le_trans (hthrough _ _) (by decide)
  | branch cond taken notTaken =>
      have h1 := hthrough .first notTaken
      have h2 := hthrough .second taken
      have h3 := (Operation.loadFlags Field.eflags).codeLength_le_room
      have h4 := (Operation.branch (.guest cond) label).codeLength_le_room
      have h5 := (Operation.place label).codeLength_le_room
      simp [exitRoom, Operation.room] at *
      omega
  | computed | interpret _ | callback _ => exact hwith _ _

/-! ## A whole block -/

theorem codeLength_bodies (label : Nat) (ps : List Placed) :
    codeLength (bodies label ps) = (ps.map fun p => codeLength (p.body 0)).sum := by
  induction ps generalizing label with
  | nil => rfl
  | cons p rest ih =>
      rw [bodies, codeLength_append, codeLength_body, ih, List.map_cons, List.sum_cons]

@[simp] theorem writeCount_cons (p : Placed) (ps : List Placed) :
    writeCount (p :: ps) = (if p.instruction.stores then 1 else 0) + writeCount ps := by
  unfold writeCount
  rw [List.filter_cons]
  split
  · rw [List.length_cons, Nat.add_comm]
  · rw [Nat.zero_add]

theorem codeLength_writeStubs_le (label count : Nat) (ps : List Placed) :
    codeLength (writeStubs label count ps) ≤ writeCount ps * stubRoom := by
  induction ps generalizing label count with
  | nil => exact Nat.zero_le _
  | cons p rest ih =>
      rw [writeStubs, writeCount_cons]
      split
      · have hstub := codeLength_leaveWith_le (some p.resume) (count + 1) .selfModified
        have hplace := (Operation.place label).codeLength_le_room
        have hrest := ih (label + 1) (count + 1)
        rw [List.cons_append, codeLength_cons, codeLength_append, Nat.add_mul]
        simp only [Operation.room] at hplace
        omega
      · rw [Nat.zero_add]
        exact ih label (count + 1)

/-- Taking instructions leaves room for the exit and for every stub. -/
theorem room_takeInstructions (page : Vector UInt8 pageSize) {limits : Limits} (fuel : Nat)
    {offset : Nat} (ho : offset ≤ pageSize) (eip : UInt32) (count : Nat) {written stubs : Nat}
    (h : written + exitRoom + stubs * stubRoom ≤ limits.codeBytes) (label : Nat) :
    let s := takeInstructions page limits fuel offset eip count written stubs
    written + codeLength (bodies label s.instructions) + exitRoom +
      (stubs + writeCount s.instructions) * stubRoom ≤ limits.codeBytes := by
  have hnone : written + codeLength (bodies label []) + exitRoom +
      (stubs + writeCount []) * stubRoom ≤ limits.codeBytes := h
  induction fuel generalizing offset eip count written stubs with
  | zero => exact h
  | succ fuel ih =>
      by_cases hlt : offset < pageSize
      · rw [takeInstructions_succ _ _ _ hlt]
        simp only
        split
        · exact hnone
        next hroom =>
        rw [not_or, Limits.full, decide_eq_true_iff, Nat.not_lt, Nat.add_mul] at hroom
        split
        · exact hnone
        next i hi =>
        obtain ⟨p, hp⟩ : ∃ p : Placed, p =
            ⟨i, eip + (limits.decoder.decode (window page ⟨offset, hlt⟩) eip).length.toUInt32⟩ :=
          ⟨_, rfl⟩
        rw [← hp]
        have hbody : codeLength (p.body 0) ≤ instructionRoom := codeLength_body_le p 0
        generalize hn : (if i.stores then 1 else 0) = n
        have hn1 : n ≤ 1 := by rw [← hn]; split <;> decide
        have hcount : ∀ ps, writeCount (p :: ps) = n + writeCount ps := fun ps => by
          rw [writeCount_cons, ← hn, hp]
        have hstubs : (if i.stores then stubs + 1 else stubs) = stubs + n := by
          rw [← hn]; split <;> rfl
        have hone : n * stubRoom ≤ stubRoom := Nat.le_trans (Nat.mul_le_mul_right _ hn1)
          (Nat.le_of_eq (Nat.one_mul _))
        split
        · rw [codeLength_bodies, hcount, List.map_cons, List.sum_cons]
          simp only [List.map_nil, List.sum_nil, writeCount, List.filter_nil, List.length_nil,
            Nat.add_mul]
          omega
        · have hnext : written + codeLength (p.body 0) + exitRoom + (stubs + n) * stubRoom ≤
              limits.codeBytes := by
            rw [Nat.add_mul]
            omega
          have := ih (limits.decoder.add_length_le page ⟨offset, hlt⟩ eip)
            (eip + (limits.decoder.decode (window page ⟨offset, hlt⟩) eip).length.toUInt32)
            (count + 1) hnext hnext
          simp only [codeLength_bodies] at this
          rw [hstubs, codeLength_bodies, hcount, List.map_cons, List.sum_cons, ← Nat.add_assoc,
            ← Nat.add_assoc]
          exact this
      · rw [takeInstructions, dif_neg hlt]
        exact hnone

/-- **A block fits its scratch space.** -/
theorem codeLength_operations_le {limits : Limits} (hl : limits.Sufficient)
    (page : Vector UInt8 pageSize) (eip : UInt32) (id : BlockId) :
    codeLength ((Sequence.at page limits eip).operations id) ≤ limits.codeBytes := by
  have hstart : codeLength (prologue (.trampoline .first)) + exitRoom + 1 * stubRoom ≤
      limits.codeBytes := Nat.le_trans (by decide) hl.codeBytes
  have hroom := room_takeInstructions page pageSize
    (Nat.le_of_lt (offsetOf eip).isLt) eip 0 hstart (cycleLabel + 1)
  have hexit := codeLength_exit_le (Sequence.at page limits eip).exit id
    (Sequence.at page limits eip).instructions.length
    (cycleLabel + 1 + writeCount (Sequence.at page limits eip).instructions)
  have hstubs := codeLength_writeStubs_le (cycleLabel + 1) 0
    (Sequence.at page limits eip).instructions
  have hleave := (Operation.leave .cycles).codeLength_le_room
  have hplace := (Operation.place cycleLabel).codeLength_le_room
  have hwritten := codeLength_prologue (.trampoline .first)
  have hcount : 1 * stubRoom = stubRoom := Nat.one_mul _
  have hcycles : (Operation.leave .cycles).room ≤ stubRoom := by decide
  simp only [Operation.room, Nat.add_mul] at hroom hplace
  simp only [Sequence.operations, codeLength_append, codeLength_cons, codeLength_nil,
    codeLength_prologue]
  rw [Sequence.at] at *
  omega

/-! ## The least code of a block -/

def leaveBytes : Nat := 6

@[simp] theorem codeLength_leave (code : ReturnCode) :
    (Operation.leave code).codeLength = leaveBytes := by
  cases code <;> rfl

theorem le_codeLength_exit (e : Exit) (id : BlockId) (count label : Nat) :
    leaveBytes ≤ codeLength (e.operations id count label) := by
  have hthrough : ∀ slot target,
      leaveBytes ≤ codeLength (Operation.leaveThrough id slot target count) := by
    intro slot target
    have hstore : (Operation.storeContextImm Field.eip target).codeLength = 10 := rfl
    simp only [Operation.leaveThrough, List.cons_append, codeLength_cons, hstore, leaveBytes]
    omega
  have hwith : ∀ eip code, leaveBytes ≤ codeLength (Operation.leaveWith eip count code) := by
    intro eip code
    simp only [Operation.leaveWith, codeLength_append, codeLength_cons, codeLength_nil,
      codeLength_leave]
    omega
  unfold Exit.operations
  cases e with
  | limit target | jump target => exact hthrough _ _
  | branch cond taken notTaken =>
      have := hthrough .first notTaken
      simp only [codeLength_append, codeLength_cons] at *
      omega
  | computed | interpret _ | callback _ => exact hwith _ _

def leastCode : Nat := 36

/-- **A block is never shorter** than its prologue, the way out when the budget
is used up, and another one. -/
theorem leastCode_le (s : Sequence) (id : BlockId) : leastCode ≤ codeLength (s.operations id) := by
  have hexit := le_codeLength_exit s.exit id s.instructions.length
    (cycleLabel + 1 + writeCount s.instructions)
  simp only [Sequence.operations, codeLength_append, codeLength_cons, codeLength_nil,
    codeLength_prologue, codeLength_leave]
  simp only [leastCode, leaveBytes] at *
  omega

end Recompiler
