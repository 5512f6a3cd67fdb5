import Recompiler.Proofs.Host.Pieces

/-!
# Instructions are read back

The bytes of an instruction, whatever follows them, are read as that instruction,
and no more of them is read.  So a list of instructions is read back from its bytes
one after the other, and what follows is read as if it stood alone.
-/

namespace Recompiler

namespace Reading

open HostInstruction

variable {p : HostPrefixes}

/-! ## Bodies that several instructions share -/

theorem finds_immediate (hsize : p.size = .long) (imm : UInt32) :
    Finds (immediate p) (bytes32 imm) (.imm32 imm) :=
  Finds.guarded hsize (finds_word32 imm).map

variable {bs : List UInt8} {digit : Nat} {operand : OperandSize → HostOperand}

theorem finds_arithmetic (h : Finds (modrm p) bs (digit, operand)) (hsize : p.size = .long)
    (imm : UInt32) :
    Finds (body p 0x81) (bs ++ bytes32 imm)
      ⟨arithmetic digit, [operand .long, .imm32 imm]⟩ := by
  refine h.bind ?_
  rw [← hsize]
  exact (finds_immediate hsize imm).map

theorem finds_testImm (h : Finds (modrm p) bs (0, operand)) (hsize : p.size = .long)
    (imm : UInt32) :
    Finds (body p 0xF7) (bs ++ bytes32 imm) ⟨.alu .test, [operand .long, .imm32 imm]⟩ := by
  refine h.bind (Finds.guarded rfl ?_)
  rw [← hsize]
  exact (finds_immediate hsize imm).map

theorem finds_moveImm (h : Finds (modrm p) bs (0, operand)) (hsize : p.size = .long)
    (imm : UInt32) :
    Finds (body p 0xC7) (bs ++ bytes32 imm) ⟨.move, [operand .long, .imm32 imm]⟩ := by
  refine h.bind (Finds.guarded rfl ?_)
  rw [← hsize]
  exact (finds_immediate hsize imm).map

/-- An operation between two registers, the ModRM byte's last field first. -/
theorem finds_between {m : Mnemonic} {opcode : UInt8} (wide : Bool) (dst src : HostRegister)
    (hop : opcode.toNat / 16 ≠ 4) (h66 : opcode ≠ 0x66)
    (hbody : ∀ p, body p opcode = (do
      let x ← modrm p
      return ⟨m, [x.2 p.size, p.register p.size (p.number 4 x.1)]⟩)) :
    Finds reader
      (rex wide src dst ++ opcode :: [HostInstruction.modrm 3 src.low dst.low])
      ⟨m, [.register (if wide then .quad else .long) dst,
        .register (if wide then .quad else .long) src]⟩ := by
  have hp := HostPrefixes.says_rex false wide src dst
  have hne : (if wide then OperandSize.quad else .long) ≠ .byte := by
    cases wide <;> decide
  refine finds_of_body (mayBeRex_rex ..) hop h66 ?_
  have hread := (finds_register hp src.low_lt).map
    (f := fun x => (⟨m, [x.2 (if wide then .quad else .long),
      HostPrefixes.register ⟨false, (rex wide src dst).head?⟩ (if wide then .quad else .long)
        (HostPrefixes.number ⟨false, (rex wide src dst).head?⟩ 4 x.1)]⟩ : Reading))
  rw [hbody, hp.size]
  simp only [hp.reg, HostPrefixes.register_number hne] at hread
  exact hread

/-! ## Every instruction -/

section

variable (dst src r : HostRegister) (offset imm : UInt32)

theorem finds_push : Finds reader (rex false .rax r ++ [0x50 + r.low])
    ⟨.push, [.register .quad r]⟩ := by
  have hp := HostPrefixes.says_rex false false .rax r
  have hbody (p : HostPrefixes) : body p (0x50 + r.low) =
      pure ⟨.push, [.register p.stackSize (.ofNumber (p.number 1 r.low.toNat))]⟩ := by
    cases r <;> rfl
  refine finds_of_body (mayBeRex_rex ..) (by cases r <;> decide) (by cases r <;> decide) ?_
  rw [hbody, hp.rm, HostRegister.ofNumber_number]
  exact Finds.pure _

theorem finds_pop : Finds reader (rex false .rax r ++ [0x58 + r.low])
    ⟨.pop, [.register .quad r]⟩ := by
  have hp := HostPrefixes.says_rex false false .rax r
  have hbody (p : HostPrefixes) : body p (0x58 + r.low) =
      pure ⟨.pop, [.register p.stackSize (.ofNumber (p.number 1 r.low.toNat))]⟩ := by
    cases r <;> rfl
  refine finds_of_body (mayBeRex_rex ..) (by cases r <;> decide) (by cases r <;> decide) ?_
  rw [hbody, hp.rm, HostRegister.ofNumber_number]
  exact Finds.pure _

theorem body_moveConstant (p : HostPrefixes) : body p (0xB8 + dst.low) = (do
    return ⟨.move, [p.register p.size (p.number 1 dst.low.toNat), ← wideImmediate p]⟩) := by
  cases dst <;> rfl

theorem finds_moveReg32 : Finds reader (rex false .rax dst ++ (0xB8 + dst.low) :: bytes32 imm)
    ⟨.move, [.register .long dst, .imm32 imm]⟩ := by
  have hp := HostPrefixes.says_rex false false .rax dst
  refine finds_of_body (mayBeRex_rex ..) (by cases dst <;> decide) (by cases dst <;> decide) ?_
  rw [body_moveConstant, hp.rm, hp.size, HostPrefixes.register_number (by decide), wideImmediate,
    if_neg (by rw [hp.size]; decide)]
  exact (finds_immediate hp.size imm).map

theorem finds_moveReg64 (a : UInt64) :
    Finds reader (rex true .rax dst ++ (0xB8 + dst.low) :: bytes64 a)
      ⟨.move, [.register .quad dst, .imm64 a]⟩ := by
  have hp := HostPrefixes.says_rex false true .rax dst
  refine finds_of_body (mayBeRex_rex ..) (by cases dst <;> decide) (by cases dst <;> decide) ?_
  rw [body_moveConstant, hp.rm, hp.size, HostPrefixes.register_number (by decide), wideImmediate,
    if_pos (show _ = OperandSize.quad from hp.size)]
  exact (finds_word64 a).map.map

/-- The instructions whose operand a ModRM byte names together with the operation. -/
theorem finds_group {m : Mnemonic} {size : OperandSize} {middle : UInt8}
    (hmiddle : middle.toNat < 8)
    (hbody : ∀ (p : HostPrefixes) (bs : List UInt8) (operand : OperandSize → HostOperand),
      p.size = .long → Finds (modrm p) bs (middle.toNat, operand) →
        Finds (body p 0xFF) bs ⟨m, [operand size]⟩)
    (hne : size ≠ .byte) :
    Finds reader (rex false .rax r ++ 0xFF :: [HostInstruction.modrm 3 middle r.low])
      ⟨m, [.register size r]⟩ := by
  have hp := HostPrefixes.says_rex false false .rax r
  refine finds_of_body (mayBeRex_rex ..) (by decide) (by decide) ?_
  have hread := hbody _ _ _ hp.size (finds_register hp hmiddle)
  rwa [HostPrefixes.register_number hne] at hread

theorem finds_callReg :
    Finds reader (rex false .rax r ++ 0xFF :: [HostInstruction.modrm 3 2 r.low])
      ⟨.call, [.register .quad r]⟩ :=
  finds_group r (by decide) (fun _ _ _ _ h => h.last (Finds.pure _)) (by decide)

theorem finds_inc :
    Finds reader (rex false .rax r ++ 0xFF :: [HostInstruction.modrm 3 0 r.low])
      ⟨.unary .inc, [.register .long r]⟩ :=
  finds_group r (by decide) (fun _ _ _ hsize h => hsize ▸ h.last (Finds.pure _)) (by decide)

theorem finds_dec :
    Finds reader (rex false .rax r ++ 0xFF :: [HostInstruction.modrm 3 1 r.low])
      ⟨.unary .dec, [.register .long r]⟩ :=
  finds_group r (by decide) (fun _ _ _ hsize h => hsize ▸ h.last (Finds.pure _)) (by decide)

theorem finds_jumpMem (hsib : r.low.toNat ≠ 4) (hbase : r.low.toNat ≠ 5) :
    Finds reader (rex false .rax r ++ 0xFF :: [HostInstruction.modrm 0 4 r.low])
      ⟨.jump, [.memory .quad r 0]⟩ := by
  have hp := HostPrefixes.says_rex false false .rax r
  refine finds_of_body (mayBeRex_rex ..) (by decide) (by decide) ?_
  exact (finds_memory hp 4 (by decide) hsib hbase).last (Finds.pure _)

theorem finds_load (wide : Bool) :
    Finds reader (rex wide dst .rbx ++ 0x8B :: field dst.low offset)
      ⟨.move, [.register (if wide then .quad else .long) dst,
        contextField (if wide then .quad else .long) offset]⟩ := by
  have hp := HostPrefixes.says_rex false wide dst .rbx
  have hne : (if wide then OperandSize.quad else .long) ≠ .byte := by
    cases wide <;> decide
  refine finds_of_body (mayBeRex_rex ..) (by decide) (by decide) ?_
  refine (finds_field hp dst.low_lt offset).last ?_
  dsimp only
  rw [hp.reg, HostPrefixes.register_number (hp.size ▸ hne), hp.size]
  exact Finds.pure _

/-- The two loads that fill up with zeros, told apart by the last bit of the opcode. -/
theorem finds_extend {b : UInt8} (hb : b.toNat / 2 = 0x5B) :
    Finds reader (rex false dst .rbx ++ 0x0F :: b :: field dst.low offset)
      ⟨.extend, [.register .long dst,
        contextField (if b.toNat % 2 = 0 then .byte else .word) offset]⟩ := by
  have hp := HostPrefixes.says_rex false false dst .rbx
  have hgroup : b.toNat / 16 ≠ 8 := by omega
  refine finds_of_body (mayBeRex_rex ..) (by decide) (by decide) ?_
  refine (Finds.lift (Reads.byte b)).bind ?_
  rw [if_neg hgroup]
  refine Finds.guarded hb ((finds_field hp dst.low_lt offset).last ?_)
  dsimp only
  rw [hp.reg, HostPrefixes.register_number (by rw [hp.size]; decide), hp.size]
  exact Finds.pure _

theorem finds_store :
    Finds reader (rex false src .rbx ++ 0x89 :: field src.low offset)
      ⟨.move, [contextField .long offset, .register .long src]⟩ := by
  have hp := HostPrefixes.says_rex false false src .rbx
  refine finds_of_body (mayBeRex_rex ..) (by decide) (by decide) ?_
  refine (finds_field hp src.low_lt offset).last ?_
  dsimp only
  rw [hp.reg, HostPrefixes.register_number (by rw [hp.size]; decide), hp.size]
  exact Finds.pure _

theorem finds_storeWord :
    Finds reader (0x66 :: rex false src .rbx ++ 0x89 :: field src.low offset)
      ⟨.move, [contextField .word offset, .register .word src]⟩ := by
  have hp := HostPrefixes.says_rex true false src .rbx
  refine finds_of_narrow (mayBeRex_rex ..) (by decide) ?_
  refine (finds_field hp src.low_lt offset).last ?_
  dsimp only
  rw [hp.reg, HostPrefixes.register_number (by rw [hp.size]; decide), hp.size]
  exact Finds.pure _

theorem finds_storeByte :
    Finds reader (rexByte src .rbx ++ 0x88 :: field src.low offset)
      ⟨.move, [contextField .byte offset, .register .byte src]⟩ := by
  have hp := HostPrefixes.says_rexByte src .rbx
  refine finds_of_body (mayBeRex_rexByte ..) (by decide) (by decide) ?_
  refine (finds_field hp src.low_lt offset).last ?_
  dsimp only
  rw [hp.reg, HostPrefixes.register_rexByte]
  exact Finds.pure _

theorem says_none : HostPrefixes.Says ⟨false, none⟩ .long .rax .rbx := by
  constructor <;> rfl

theorem finds_storeImm : Finds reader (0xC7 :: (field 0 offset ++ bytes32 imm))
    ⟨.move, [contextField .long offset, .imm32 imm]⟩ :=
  finds_of_body (Or.inl rfl) (by decide) (by decide)
    (finds_moveImm (finds_field says_none (show (0 : UInt8).toNat < 8 by decide) offset) rfl imm)

theorem finds_subFieldImm : Finds reader (0x81 :: (field 5 offset ++ bytes32 imm))
    ⟨.alu .sub, [contextField .long offset, .imm32 imm]⟩ :=
  finds_of_body (Or.inl rfl) (by decide) (by decide)
    (finds_arithmetic (finds_field says_none (by decide) offset) rfl imm)

theorem finds_aluImm (op : AluOp) :
    Finds reader
      (rex false .rax dst ++ (aluImmOpcode op).1 ::
        ([HostInstruction.modrm 3 (aluImmOpcode op).2 dst.low] ++ bytes32 imm))
      ⟨.alu op, [.register .long dst, .imm32 imm]⟩ := by
  have hp := HostPrefixes.says_rex false false .rax dst
  have hlt : (aluImmOpcode op).2.toNat < 8 := by cases op <;> decide
  refine finds_of_body (mayBeRex_rex ..) (by cases op <;> decide) (by cases op <;> decide) ?_
  rw [← HostPrefixes.register_number (p := ⟨false, (rex false .rax dst).head?⟩) (by decide)]
  have hreg := finds_register hp hlt
  cases op with
  | test => exact finds_testImm hreg hp.size imm
  | _ => exact finds_arithmetic hreg hp.size imm

theorem finds_shlImm (amount : UInt8) :
    Finds reader (rex false .rax r ++ 0xC1 :: [HostInstruction.modrm 3 4 r.low, amount])
      ⟨.shiftLeft, [.register .long r, .imm8 amount]⟩ := by
  have hp := HostPrefixes.says_rex false false .rax r
  refine finds_of_body (mayBeRex_rex ..) (by decide) (by decide) ?_
  refine (finds_register hp (show (4 : UInt8).toNat < 8 by decide)).bind (Finds.guarded rfl ?_)
  dsimp only
  rw [HostPrefixes.register_number (by rw [hp.size]; decide), hp.size]
  exact (Finds.lift (Reads.byte amount)).map

theorem finds_jumpIf (cond : Condition) (disp : UInt32) :
    Finds reader (0x0F :: (0x80 ||| cond.number.toUInt8) :: bytes32 disp)
      ⟨.jumpIf cond, [.relative disp.toInt32]⟩ := by
  have hgroup : (0x80 ||| cond.number.toUInt8).toNat / 16 = 8 := by cases cond <;> rfl
  have hcond : Condition.ofNumber (0x80 ||| cond.number.toUInt8).toNat = cond := by
    cases cond <;> rfl
  refine finds_of_body (Or.inl rfl) (by decide) (by decide) ?_
  refine (Finds.lift (Reads.byte _)).bind ?_
  rw [if_pos hgroup, hcond]
  exact (finds_word32 disp).map

end

variable {named : HostAddress → UInt64}

theorem map_value_literal (bs : List UInt8) :
    (bs.map CodeByte.literal).map (CodeByte.value named) = bs := by
  rw [List.map_map]
  exact List.map_id bs

theorem map_value_addressBytes (a : HostAddress) :
    (addressBytes a).map (CodeByte.value named) = bytes64 (a.resolve named) := by
  cases a with
  | absolute a => exact map_value_literal _
  | helper _ | exitSlot _ _ => rfl

/-- **An instruction's bytes are read as that instruction**, whatever follows them, and no
more than them is read. -/
theorem finds_encode {i : HostInstruction} {reading : Reading}
    (h : i.reading named = some reading) :
    Finds reader (i.encode.map (CodeByte.value named)) reading := by
  cases i with
  | moveAddress dst a =>
      cases h
      rw [encode, List.map_append, map_value_literal, map_value_addressBytes, literalBytes,
        List.append_assoc]
      exact finds_moveReg64 dst _
  | raw b => cases h
  | _ => ?_
  all_goals simp only [encode, List.append_nil, map_value_literal]
  case push r => cases h; exact finds_push r
  case pop r => cases h; exact finds_pop r
  case pushFlags => cases h; exact finds_of_body (Or.inl rfl) (by decide) (by decide) (Finds.pure _)
  case popFlags => cases h; exact finds_of_body (Or.inl rfl) (by decide) (by decide) (Finds.pure _)
  case ret => cases h; exact finds_of_body (Or.inl rfl) (by decide) (by decide) (Finds.pure _)
  case callReg r => cases h; exact finds_callReg r
  case callRel disp =>
    cases h
    exact finds_of_body (Or.inl rfl) (by decide) (by decide) (finds_word32 disp).map
  case jumpRel disp =>
    cases h
    exact finds_of_body (Or.inl rfl) (by decide) (by decide) (finds_word32 disp).map
  case jumpMem r =>
    rw [HostInstruction.reading] at h
    split at h
    · cases h
    · next hlow =>
        cases h
        rw [not_or, ← UInt8.toNat_inj, ← UInt8.toNat_inj] at hlow
        exact finds_jumpMem r hlow.1 hlow.2
  case jumpIf cond disp => cases h; exact finds_jumpIf cond disp
  case moveReg dst src =>
    cases h
    exact finds_between false dst src (by decide) (by decide) fun _ => rfl
  case moveReg64 dst src =>
    cases h
    exact finds_between true dst src (by decide) (by decide) fun _ => rfl
  case moveImm dst imm =>
    cases h
    rw [literalBytes, List.append_assoc]
    exact finds_moveReg32 dst imm
  case load width dst offset =>
    cases width <;> cases h <;> rw [literalBytes, List.append_assoc]
    · exact finds_extend dst offset rfl
    · exact finds_extend dst offset rfl
    · exact finds_load dst offset false
  case load64 dst offset =>
    cases h
    rw [literalBytes, List.append_assoc]
    exact finds_load dst offset true
  case store width offset src =>
    cases width <;> cases h <;> rw [literalBytes, List.append_assoc]
    · exact finds_storeByte src offset
    · exact finds_storeWord src offset
    · exact finds_store src offset
  case storeImm offset imm => cases h; exact finds_storeImm offset imm
  case subFieldImm offset imm => cases h; exact finds_subFieldImm offset imm
  case alu op dst src =>
    cases h
    exact finds_between false dst src (by cases op <;> decide) (by cases op <;> decide)
      fun p => by cases op <;> rfl
  case aluImm op dst imm =>
    cases h
    rw [literalBytes, List.append_assoc]
    exact finds_aluImm dst imm op
  case unary op r =>
    cases op <;> cases h
    · exact finds_inc r
    · exact finds_dec r
  case shlImm r amount => cases h; exact finds_shlImm r amount

/-! ## Instruction after instruction -/

theorem length_lt_of_run {bs rest : List UInt8} {x : Option Reading}
    (h : reader.run.run bs = some (x, rest)) : rest.length < bs.length := by
  obtain ⟨used, rfl, hrun⟩ := ByteReader.run_append h
  cases used with
  | nil => cases hrun []
  | cons b used =>
      rw [List.length_append, List.length_cons]
      omega

theorem atMost_of_le {bs : List UInt8} {count : Nat} (h : bs.length ≤ count) :
    readAll.atMost count bs = readAll bs := by
  induction count using Nat.strongRecOn generalizing bs with
  | ind count ih =>
      cases bs with
      | nil => cases count <;> rfl
      | cons b bs =>
          cases count with
          | zero => cases h
          | succ count =>
              rw [List.length_cons] at h
              rw [readAll, List.length_cons, readAll.atMost, readAll.atMost]
              split
              · next i rest hrun =>
                  have hlt := length_lt_of_run hrun
                  rw [List.length_cons] at hlt
                  rw [ih count (Nat.lt_succ_self _) (by omega),
                    ih bs.length (by omega) (by omega)]
              · rfl

theorem readAll_of_finds {bs : List UInt8} {i : Reading} (h : Finds reader bs i)
    (rest : List UInt8) : readAll (bs ++ rest) = (readAll rest).map (i :: ·) := by
  cases bs with
  | nil => cases h []
  | cons b bs =>
      have hrun := h rest
      rw [readAll, List.cons_append, List.length_cons, readAll.atMost, ← List.cons_append, hrun]
      show (readAll.atMost _ rest).map _ = _
      rw [atMost_of_le (by rw [List.length_append]; omega)]

theorem readAll_flatMap_encode {is : List HostInstruction} {readings : List Reading}
    (h : is.mapM (HostInstruction.reading named) = some readings) (rest : List UInt8) :
    readAll ((is.flatMap encode).map (CodeByte.value named) ++ rest) =
      (readAll rest).map (readings ++ ·) := by
  induction is generalizing readings with
  | nil =>
      cases h
      show readAll rest = (readAll rest).map id
      rw [Option.map_id]
      rfl
  | cons i is ih =>
      rw [List.mapM_cons] at h
      obtain ⟨first, hfirst, hrest⟩ := Option.bind_eq_some_iff.mp h
      obtain ⟨others, hothers, hreadings⟩ := Option.bind_eq_some_iff.mp hrest
      cases hreadings
      rw [List.flatMap_cons, List.map_append, List.append_assoc,
        readAll_of_finds (finds_encode hfirst), ih hothers, Option.map_map]
      rfl

end Reading

end Recompiler
