import Recompiler.Guest.ByteReader
import Recompiler.Guest.Decoder
import Recompiler.Guest.OpcodeMap
import Recompiler.Guest.VectorPrefix

/-!
# Encodings of guest instructions

An instruction is read byte by byte in the order prefixes, opcode, ModRM, SIB,
displacement, immediate, and then matched against the instructions that are
compiled.  An instruction that does not end within its window counts the whole
window.  `Decoder.ia32` is the decoder made of that.
-/

namespace Recompiler

inductive Segment where
  /-- A segment that spans all of memory. -/
  | flat
  /-- A segment with a base of its own. -/
  | based
  deriving DecidableEq, Repr

structure Prefixes where
  operand16 : Bool := false
  address16 : Bool := false
  locked : Bool := false
  /-- The last repeat prefix. -/
  repeated : Option UInt8 := none
  segment : Segment := .flat
  deriving DecidableEq, Repr

namespace Prefixes

def add? (p : Prefixes) (b : UInt8) : Option Prefixes :=
  if b = 0x26 ∨ b = 0x2E ∨ b = 0x36 ∨ b = 0x3E then
    some { p with segment := .flat }
  else if b = 0x64 ∨ b = 0x65 then some { p with segment := .based }
  else if b = 0x66 then some { p with operand16 := true }
  else if b = 0x67 then some { p with address16 := true }
  else if b = 0xF0 then some { p with locked := true }
  else if b = 0xF2 ∨ b = 0xF3 then some { p with repeated := some b }
  else none

/-- The prefix that selects among the instructions of an opcode: a repeat
prefix before an operand-size prefix. -/
def selector (p : Prefixes) : Selector :=
  match p.repeated with
  | some b => if b = 0xF3 then .pF3 else .pF2
  | none => if p.operand16 then .p66 else .plain

/-- Whether an instruction with these prefixes may be compiled at all. -/
def compiled (p : Prefixes) : Bool := !p.locked && p.repeated.isNone

end Prefixes

inductive OpcodeMap where
  | oneByte
  | twoByte
  /-- Maps that hold nothing that is compiled. -/
  | other
  deriving DecidableEq, Repr

structure Encoded where
  prefixes : Prefixes
  opcodeMap : OpcodeMap := .other
  opcode : Nat := 0
  /-- Absent also where the form is undefined. -/
  modrm : Option ModRM := none
  /-- The memory operand; absent where it uses 16-bit registers. -/
  address : Option Address := none
  /-- The low bytes of the immediate. -/
  imm : UInt32 := 0
  deriving DecidableEq, Repr

def signExtend (b : UInt32) : UInt32 :=
  if b &&& 0x80 = 0 then b &&& 0xFF else b ||| 0xFFFFFF00

namespace Encoded

open ByteReader

private def number (n : Nat) : ByteReader UInt32 := do
  return ofBytes (← bytes n)

def readImmediate (p : Prefixes) (i : Immediate) : ByteReader UInt32 :=
  number (i.length p.operand16 p.address16)

/-- The prefixes and the opcode byte after them.  More prefixes than an
instruction is long are never followed by an opcode. -/
def readPrefixes : Nat → Prefixes → ByteReader (Prefixes × Nat)
  | 0, p => .next fun b => .done (p, b.toNat)
  | n + 1, p => .next fun b =>
      match p.add? b with
      | some q => readPrefixes n q
      | none => .done (p, b.toNat)

def readAddress32 (m : ModRM) : ByteReader Address := do
  let (base, index) ←
    if m.rm = 4 then do
      let s := ModRM.ofByte (← byte)
      let base := if s.rm = 5 ∧ m.mode = 0 then none else some (Reg.ofNumber s.rm)
      let index := if s.reg = 4 then none else some (Reg.ofNumber s.reg, s.mode)
      pure (base, index)
    else
      pure (if m.rm = 5 ∧ m.mode = 0 then none else some (Reg.ofNumber m.rm), none)
  let disp ← match m.mode with
    | 1 => signExtend <$> number 1
    | 2 => number 4
    | _ => if base.isNone then number 4 else pure 0
  return ⟨base, index, disp⟩

/-- The memory operand of a ModRM byte with 16-bit addressing: a bare
displacement, or nothing where registers take part. -/
def readAddress16 (m : ModRM) : ByteReader (Option Address) :=
  match m.mode with
  | 0 =>
      if m.rm = 6 then do
        return some ⟨none, none, ← number 2⟩
      else pure none
  | 1 => do
      let _ ← number 1
      return none
  | _ => do
      let _ ← number 2
      return none

def readAddress (p : Prefixes) (m : ModRM) : ByteReader (Option Address) :=
  if m.isRegister then pure none
  else if p.address16 then readAddress16 m
  else some <$> readAddress32 m

def readTail (e : Encoded) (m : ModRM) : Tail → ByteReader Encoded
  | .ends => pure e
  | .operand i => do
      let address ← readAddress e.prefixes m
      return { e with modrm := some m, address, imm := ← readImmediate e.prefixes i }
  | .bare i => do
      let _ ← readImmediate e.prefixes i
      return e

def readForm (e : Encoded) : Form → ByteReader Encoded
  | .plain i => return { e with imm := ← readImmediate e.prefixes i }
  | .modrm tail => do
      let m := ModRM.ofByte (← byte)
      readTail e m (tail m)

/-- The rest of a vector instruction after the byte its prefix starts with. -/
def readVector (p : Prefixes) (kind : VectorPrefix) (first : UInt8) :
    ByteReader Encoded := do
  let extra ← bytes kind.extraLength
  let header := VectorHeader.ofBytes kind first.toNat (extra.map (·.toNat))
  let op := (← byte).toNat
  readForm { prefixes := p } (header.form op)

/-- The rest of an instruction after an opcode that may start a vector
prefix. -/
def readVectorOr (e : Encoded) (kind : VectorPrefix) : ByteReader Encoded := do
  let b ← byte
  let m := ModRM.ofByte b
  if kind.opens m then readVector e.prefixes kind b else readTail e m (kind.tail m)

def read : ByteReader Encoded := do
  let (p, op) ← readPrefixes maxInstructionLength {}
  if op = 0x0F then do
    let op := (← byte).toNat
    if op = 0x38 then do
      let op := (← byte).toNat
      readForm { prefixes := p } (.modrm (tailIn rows0F38 op { selector := p.selector }))
    else if op = 0x3A then do
      let op := (← byte).toNat
      readForm { prefixes := p } (.modrm (tailIn rows0F3A op { selector := p.selector }))
    else
      readForm { prefixes := p, opcodeMap := .twoByte, opcode := op }
        (twoByteForm op p.selector)
  else
    let e : Encoded := { prefixes := p, opcodeMap := .oneByte, opcode := op }
    match VectorPrefix.ofOpcode? op with
    | some kind => readVectorOr e kind
    | none => readForm e (oneByteForm op)

/-! ## Which encodings are compiled -/

/-- The memory operand, unless its segment has a base of its own. -/
def flatAddress? (e : Encoded) : Option Address :=
  match e.prefixes.segment with
  | .flat => e.address
  | .based => none

/-- An operation whose first operand is the register of the ModRM byte's last
field. -/
private def onRegister (m : ModRM) (f : Reg → Instruction) : Option Instruction :=
  if m.isRegister then some (f (.ofNumber m.rm)) else none

/-- The operation numbered in an opcode or a ModRM byte; additions and
subtractions with carry are not compiled. -/
def aluOp? : Nat → Option AluOp
  | 0 => some .add
  | 1 => some .or
  | 4 => some .and
  | 5 => some .sub
  | 6 => some .xor
  | 7 => some .cmp
  | _ => none

/-- The instruction of a one-byte opcode without a ModRM byte. -/
def plainInstruction? (e : Encoded) (next : UInt32) : Option Instruction :=
  let op := e.opcode
  let long (i : Instruction) := if e.prefixes.operand16 then none else some i
  if op < 0x40 ∧ op % 8 = 5 then
    (aluOp? (op / 8)).bind fun o => long (.alu o .eax (.imm e.imm))
  else if 0x40 ≤ op ∧ op < 0x48 then long (.unary .inc (.ofNumber op))
  else if 0x48 ≤ op ∧ op < 0x50 then long (.unary .dec (.ofNumber op))
  else if 0x50 ≤ op ∧ op < 0x58 then long (.push (.ofNumber op))
  else if 0x58 ≤ op ∧ op < 0x60 then long (.pop (.ofNumber op))
  else if 0x70 ≤ op ∧ op < 0x80 then
    long (.jumpIf (.ofNumber op) (next + signExtend e.imm))
  else if 0xB8 ≤ op ∧ op < 0xC0 then long (.moveImm (.ofNumber op) e.imm)
  else match op with
    | 0x90 => long .nop
    | 0xA1 => do long (.load .eax ⟨none, none, ← flat⟩)
    | 0xA3 => do long (.store ⟨none, none, ← flat⟩ .long (.reg .eax))
    | 0xA9 => long (.alu .test .eax (.imm e.imm))
    | 0xC3 => long .ret
    | 0xCD => some (.interrupt e.imm.toUInt8)
    | 0xE8 => long (.call (next + e.imm))
    | 0xE9 => long (.jump (next + e.imm))
    | 0xEB => long (.jump (next + signExtend e.imm))
    | _ => none
where
  /-- The absolute address of the operand, in a flat segment. -/
  flat : Option UInt32 :=
    match e.prefixes.segment with
    | .flat => some e.imm
    | .based => none

/-- The instruction of a one-byte opcode with a ModRM byte. -/
def modrmInstruction? (e : Encoded) (m : ModRM) : Option Instruction :=
  let op := e.opcode
  let long (i : Option Instruction) := if e.prefixes.operand16 then none else i
  let width : Width := if e.prefixes.operand16 then .word else .long
  let reg := Reg.ofNumber m.reg
  let storeOf (width : Width) (src : Stored) :=
    e.flatAddress?.map fun a => .store a width src
  if op < 0x40 then
    match op % 8 with
    | 1 => (aluOp? (op / 8)).bind fun o => long (onRegister m (.alu o · (.reg reg)))
    | 3 => (aluOp? (op / 8)).bind fun o => long (onRegister m (.alu o reg <| .reg ·))
    | _ => none
  else match op with
    | 0x81 => (aluOp? m.reg).bind fun o => long (onRegister m (.alu o · (.imm e.imm)))
    | 0x83 => (aluOp? m.reg).bind fun o =>
        long (onRegister m (.alu o · (.imm (signExtend e.imm))))
    | 0x85 => long (onRegister m (.alu .test · (.reg reg)))
    | 0x88 =>
        if m.reg < 4 then storeOf .byte (.reg reg)
        else storeOf .byte (.highByte (.ofNumber (m.reg - 4)))
    | 0x89 =>
        if m.isRegister then long (onRegister m (.move · reg))
        else storeOf width (.reg reg)
    | 0x8B =>
        if m.isRegister then long (onRegister m (.move reg ·))
        else long (e.flatAddress?.map (.load reg ·))
    | 0x8D => long (e.address.map (.lea reg ·))
    | 0xC6 => if m.reg = 0 then storeOf .byte (.imm e.imm) else none
    | 0xC7 =>
        if m.reg ≠ 0 then none
        else if m.isRegister then long (onRegister m (.moveImm · e.imm))
        else storeOf width (.imm e.imm)
    | 0xF7 => if m.reg < 2 then long (onRegister m (.alu .test · (.imm e.imm))) else none
    | 0xFF =>
        match m.reg with
        | 0 => long (onRegister m (.unary .inc ·))
        | 1 => long (onRegister m (.unary .dec ·))
        | 4 => long (onRegister m .jumpReg)
        | _ => none
    | _ => none

/-- The instruction of a second-map opcode. -/
def twoByteInstruction? (e : Encoded) (next : UInt32) : Option Instruction :=
  if e.prefixes.operand16 then none
  else if 0x80 ≤ e.opcode ∧ e.opcode < 0x90 then
    some (.jumpIf (.ofNumber e.opcode) (next + e.imm))
  else if e.opcode = 0x1F then
    e.modrm.bind fun m => if m.reg = 0 then some .nop else none
  else none

/-- The compiled instruction an encoding stands for, given the address after
it. -/
def instruction? (e : Encoded) (next : UInt32) : Option Instruction :=
  if e.prefixes.compiled then
    match e.opcodeMap with
    | .oneByte =>
        match e.modrm with
        | some m => e.modrmInstruction? m
        | none => e.plainInstruction? next
    | .twoByte => e.twoByteInstruction? next
    | .other => none
  else none

end Encoded

def decode (window : List UInt8) (ip : UInt32) : Decoded :=
  match Encoded.read.run window with
  | none => ⟨window.length, none⟩
  | some (e, rest) =>
      let length := window.length - rest.length
      ⟨length, e.instruction? (ip + length.toUInt32)⟩

/-! ## What is decoded depends on the bytes counted -/

/-- An instruction that ends within its window is found in any other window
that starts with the same bytes. -/
theorem decode_append {used rest rest' : List UInt8} {e : Encoded} {ip : UInt32}
    (h : Encoded.read.run (used ++ rest) = some (e, rest)) :
    decode (used ++ rest) ip = decode (used ++ rest') ip := by
  obtain ⟨used', hused, hrun⟩ := ByteReader.run_append h
  have : used' = used := List.append_cancel_right hused.symm
  subst this
  simp [decode, hrun]

theorem length_decode_le (w : List UInt8) (ip : UInt32) :
    (decode w ip).length ≤ w.length := by
  unfold decode
  split
  · exact Nat.le_refl _
  · exact Nat.sub_le _ _

theorem decode_congr {w w' : List UInt8} {ip : UInt32} (hlen : w.length = w'.length)
    (h : w.take (decode w ip).length = w'.take (decode w ip).length) :
    decode w' ip = decode w ip := by
  cases hr : Encoded.read.run w with
  | none =>
      have hwhole : (decode w ip).length = w.length := by
        unfold decode
        rw [hr]
      rw [hwhole, List.take_length, hlen, List.take_length] at h
      rw [h]
  | some r =>
      obtain ⟨e, rest⟩ := r
      obtain ⟨used, hused, _⟩ := ByteReader.run_append hr
      have hlength : (decode w ip).length = used.length := by
        unfold decode
        rw [hr, hused]
        simp
      rw [hlength, hused, List.take_left' rfl] at h
      rw [← List.take_append_drop used.length w', ← h, hused]
      rw [hused] at hr
      exact (decode_append hr).symm

theorem read_eq_next : ∃ branch, Encoded.read = .next branch := ⟨_, rfl⟩

theorem length_decode_pos {w : List UInt8} (hw : w ≠ []) (ip : UInt32) :
    0 < (decode w ip).length := by
  obtain ⟨b, bs, rfl⟩ := List.exists_cons_of_ne_nil hw
  unfold decode
  split
  · exact Nat.succ_pos _
  · next e rest hr =>
      obtain ⟨branch, hread⟩ := read_eq_next
      rw [hread] at hr
      obtain ⟨used, hused, _⟩ := ByteReader.run_append (r := branch b) hr
      have : rest.length ≤ bs.length := by
        rw [hused, List.length_append]
        exact Nat.le_add_left ..
      show 0 < (b :: bs).length - rest.length
      rw [List.length_cons]
      omega

def Decoder.ia32 : Decoder where
  decode := Recompiler.decode
  length_pos := length_decode_pos
  length_le := length_decode_le
  congr := decode_congr

end Recompiler
