import Recompiler.Proofs.Compile.Listing
import Recompiler.Proofs.Host.ReadBack

/-!
# Operations are read back

What operations write is the code of their listing, and the host reads it as the
instructions of the listing, whatever comes behind it.
-/

namespace Recompiler

/-! ## Every instruction can be read -/

section

variable (named : HostAddress → UInt64)

theorem exists_reading_toward {i : HostInstruction} (disp : UInt32)
    (h : ∃ reading, i.reading named = some reading) :
    ∃ reading, (i.toward disp).reading named = some reading := by
  cases i with
  | jumpRel old => exact ⟨_, rfl⟩
  | jumpIf cond old => exact ⟨_, rfl⟩
  | _ => exact h

theorem exists_reading_branch (cond : BranchCondition) :
    ∀ i ∈ cond.instructions, ∃ reading, i.reading named = some reading := by
  cases cond <;> simp [BranchCondition.instructions, HostInstruction.reading]

theorem exists_reading {op : Operation} (h : ∀ b, op ≠ .literal b) (here : Int) :
    ∀ i ∈ op.instructions here, ∃ reading, i.reading named = some reading := by
  cases op with
  | literal b => exact absurd rfl (h b)
  | branch cond label => exact exists_reading_branch named cond
  | call target =>
      cases target with
      | absolute a =>
          rw [Operation.instructions, Operation.callInstructions]
          split <;> simp [HostInstruction.reading]
      | helper _ | exitSlot _ _ =>
          simp [Operation.instructions, Operation.callInstructions, HostInstruction.reading]
  | loadContext dst offset width =>
      cases width <;> simp [Operation.instructions, HostInstruction.reading]
  | storeContext src offset width =>
      cases width <;> simp [Operation.instructions, HostInstruction.reading]
  | enter => simp [Operation.instructions, preserved, HostInstruction.reading]
  | move _ _ | shlImm _ _ | paramRole _ _ =>
      rw [Operation.instructions]
      split <;> simp [HostInstruction.reading]
  | jumpThrough slot =>
      have hlow : ¬(HostRegister.rax.low = HostRegister.rsp.low ∨
        HostRegister.rax.low = HostRegister.rbp.low) := by decide
      simp [Operation.instructions, HostInstruction.reading, hlow]
  | _ => simp [Operation.instructions, HostInstruction.reading]

theorem exists_mapM {α β : Type} {f : α → Option β} {l : List α}
    (h : ∀ a ∈ l, ∃ b, f a = some b) : ∃ bs, l.mapM f = some bs := by
  induction l with
  | nil => exact ⟨[], rfl⟩
  | cons a rest ih =>
      obtain ⟨b, hb⟩ := h a List.mem_cons_self
      obtain ⟨bs, hbs⟩ := ih fun x hx => h x (List.mem_cons_of_mem _ hx)
      exact ⟨b :: bs, by rw [List.mapM_cons, hb, hbs]; rfl⟩

theorem exists_reading_listing {ops : List Operation} (h : ∀ op ∈ ops, ∀ b, op ≠ .literal b)
    (base cursor : Nat) :
    ∀ i ∈ listing base cursor ops, ∃ reading, i.reading named = some reading := by
  induction ops generalizing cursor with
  | nil => exact fun i hi => absurd hi List.not_mem_nil
  | cons op rest ih =>
      have hrest := ih fun x hx => h x (List.mem_cons_of_mem _ hx)
      intro i hi
      by_cases hbranch : ∃ cond label, op = .branch cond label
      · obtain ⟨cond, label, rfl⟩ := hbranch
        rw [listing] at hi
        rcases List.mem_append.mp hi with hi | hi
        · obtain ⟨j, hj, rfl⟩ := List.mem_map.mp hi
          exact exists_reading_toward named _ (exists_reading_branch named cond j hj)
        · exact hrest _ i hi
      · rw [listing_cons fun cond label hop => hbranch ⟨cond, label, hop⟩] at hi
        rcases List.mem_append.mp hi with hi | hi
        · exact exists_reading named (h op List.mem_cons_self) _ i hi
        · exact hrest _ i hi

/-! ## Calls -/

theorem displacement?_toInt (disp : Int32) :
    displacement? disp.toInt = some disp.toUInt32 := by
  rw [displacement?, displacement, Int32.ofInt_toInt, if_pos rfl]

theorem toInt_of_displacement? {n : Int} {w : UInt32} (h : displacement? n = some w) :
    (Int32.ofInt n).toInt = n := by
  rw [displacement?] at h
  split at h
  · assumption
  · cases h

/-- A displacement leads from one address to another just if it is the distance. -/
theorem bmod_eq_iff (here : Int) (a : UInt64) (disp : Int32) :
    Int.bmod (a.toNat - (here + 5)) UInt64.size = disp.toInt ↔
      (here + 5 + disp.toInt) % UInt64.size = a.toNat := by
  have hsize : (UInt64.size : Int) = 18446744073709551616 := rfl
  have ha : a.toNat < 18446744073709551616 := a.toNat_lt
  have hlow : -2147483648 ≤ disp.toInt := disp.le_toInt
  have hhigh : disp.toInt < 2147483648 := disp.toInt_lt
  rw [Int.bmod_def, hsize]
  omega

theorem code_call_absolute (here : Int) (a : UInt64) :
    (∃ disp : Int32, (here + 5 + disp.toInt) % UInt64.size = a.toNat ∧
      (Operation.call (.absolute a)).code here =
        (0xE8 :: HostInstruction.bytes32 disp.toUInt32).map CodeByte.literal) ∨
    ((∀ disp : Int32, (here + 5 + disp.toInt) % UInt64.size ≠ a.toNat) ∧
      (Operation.call (.absolute a)).instructions here =
        [.moveAddress .rax (.absolute a), .callReg .rax]) := by
  by_cases hreach : ∃ disp : Int32, (here + 5 + disp.toInt) % UInt64.size = a.toNat
  · obtain ⟨disp, hdisp⟩ := hreach
    have hdistance := (bmod_eq_iff here a disp).mpr hdisp
    refine Or.inl ⟨disp, hdisp, ?_⟩
    rw [Operation.code, Operation.instructions, Operation.callInstructions, hdistance,
      displacement?_toInt]
    rfl
  · refine Or.inr ⟨fun disp h => hreach ⟨disp, h⟩, ?_⟩
    rw [Operation.instructions, Operation.callInstructions]
    split
    · next w hw =>
        have hdistance := toInt_of_displacement? hw
        exact absurd ⟨_, (bmod_eq_iff here a _).mp hdistance.symm⟩ hreach
    · rfl

/-! ## The result -/

def Pen.written (named : HostAddress → UInt64) (p : Pen) (base : Nat) (ops : List Operation) :
    List UInt8 :=
  let pen := ({ p with labels := [] } : Pen).emitAll base ops
  (pen.image.slice p.cursor (pen.cursor - p.cursor)).map (CodeByte.value named)

/-- **Code is read back as what it stands for.**  Whatever addresses the names stand for:

* what operations leave, once every branch is filled in, is read as the instructions of
  their listing, and what follows it is read as if it stood alone;
* the same holds of the code of each operation by itself;
* a call is direct, with a displacement that leads from the next instruction to its target
  on addresses that wrap at 64 bits, if there is such a displacement, and goes through a
  register otherwise. -/
theorem readAll_written (named : HostAddress → UInt64) (p : Pen) (base : Nat)
    (ops : List Operation) (hops : ∀ op ∈ ops, ∀ b, op ≠ .literal b) :
    (∃ readings,
      (listing base p.cursor ops).mapM (HostInstruction.reading named) = some readings ∧
      ∀ rest, Reading.readAll (p.written named base ops ++ rest) =
        (Reading.readAll rest).map (readings ++ ·)) ∧
    (∀ op ∈ ops, ∀ here : Int, ∃ readings,
      (op.instructions here).mapM (HostInstruction.reading named) = some readings ∧
      ∀ rest, Reading.readAll ((op.code here).map (CodeByte.value named) ++ rest) =
        (Reading.readAll rest).map (readings ++ ·)) ∧
    ∀ (here : Int) (a : UInt64),
      (∃ disp : Int32, (here + 5 + disp.toInt) % UInt64.size = a.toNat ∧
        (Operation.call (.absolute a)).code here =
          (0xE8 :: HostInstruction.bytes32 disp.toUInt32).map CodeByte.literal) ∨
      ((∀ disp : Int32, (here + 5 + disp.toInt) % UInt64.size ≠ a.toNat) ∧
        (Operation.call (.absolute a)).instructions here =
          [.moveAddress .rax (.absolute a), .callReg .rax]) := by
  refine ⟨?_, ?_, code_call_absolute⟩
  · obtain ⟨readings, hreadings⟩ :=
      exists_mapM fun i hi => exists_reading_listing named hops base p.cursor i hi
    refine ⟨readings, hreadings, fun rest => ?_⟩
    have hwithin : Pen.Within p.cursor { p with labels := [] } := Pen.within_start rfl rfl
    have hlisting := hwithin.slice_emitAll base ops
    rw [Pen.written, hlisting]
    exact Reading.readAll_flatMap_encode hreadings rest
  · intro op hop here
    obtain ⟨readings, hreadings⟩ :=
      exists_mapM fun i hi => exists_reading named (hops op hop) here i hi
    exact ⟨readings, hreadings, Reading.readAll_flatMap_encode hreadings⟩

/-- A branch over a near and a far call. -/
theorem readAll_of_branch_over_calls :
    (∀ op ∈ [Operation.branch (.nonZero .addr) 3, .call (.absolute 0x2000),
        .call (.absolute 0x7FFF00000000), .place 3, .storeContext .temp 1 .byte],
      ∀ b, op ≠ .literal b) ∧
    ∀ rest,
      Reading.readAll
        (({} : Pen).written (fun _ => 0) 0x1000 [.branch (.nonZero .addr) 3,
          .call (.absolute 0x2000), .call (.absolute 0x7FFF00000000), .place 3,
          .storeContext .temp 1 .byte] ++ rest) =
        (Reading.readAll rest).map
          ([⟨.alu .test, [.register .long .r8, .register .long .r8]⟩,
            ⟨.jumpIf .notEqual, [.relative 17]⟩,
            ⟨.call, [.relative 0xFF2]⟩,
            ⟨.move, [.register .quad .rax, .imm64 0x7FFF00000000]⟩,
            ⟨.call, [.register .quad .rax]⟩,
            ⟨.move, [.memory .byte .rbx 1, .register .byte .r9]⟩] ++ ·) := by
  have hops : ∀ op ∈ [Operation.branch (.nonZero .addr) 3, .call (.absolute 0x2000),
      .call (.absolute 0x7FFF00000000), .place 3, .storeContext .temp 1 .byte],
      ∀ b, op ≠ .literal b := by simp
  obtain ⟨readings, hreadings, hread⟩ := (readAll_written (fun _ => 0) {} 0x1000 _ hops).1
  have hlisted : (listing 0x1000 0 [Operation.branch (.nonZero .addr) 3,
      .call (.absolute 0x2000), .call (.absolute 0x7FFF00000000), .place 3,
      .storeContext .temp 1 .byte]).mapM (HostInstruction.reading fun _ => 0) = some
        [⟨.alu .test, [.register .long .r8, .register .long .r8]⟩,
          ⟨.jumpIf .notEqual, [.relative 17]⟩,
          ⟨.call, [.relative 0xFF2]⟩,
          ⟨.move, [.register .quad .rax, .imm64 0x7FFF00000000]⟩,
          ⟨.call, [.register .quad .rax]⟩,
          ⟨.move, [.memory .byte .rbx 1, .register .byte .r9]⟩] := by decide
  cases hlisted.symm.trans hreadings
  exact ⟨hops, hread⟩

end

end Recompiler
