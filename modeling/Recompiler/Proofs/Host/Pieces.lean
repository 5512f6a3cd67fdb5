import Recompiler.Proofs.Host.Reading

/-!
# The pieces of an encoding

What stands before an opcode, a ModRM byte with its displacement, a constant: each
is read from its own bytes alone, whatever follows them.  Registers enter an
encoding in two pieces, the low bits in a ModRM byte or the opcode and the high bit
in a REX byte; that `HostPrefixes` puts the pieces together again is shown once, for
every pair of registers (`HostPrefixes.Says`), and used by every instruction.
-/

namespace Recompiler

/-! ## Readers one after the other -/

theorem ByteReader.run_bind {α β : Type} (r : ByteReader α) (f : α → ByteReader β)
    (bs : List UInt8) :
    (r >>= f).run bs = (r.run bs).bind fun answer => (f answer.1).run answer.2 := by
  show (r.bind f).run bs = _
  induction r generalizing bs with
  | done a => rfl
  | next branch ih =>
      cases bs with
      | nil => rfl
      | cons b rest => exact ih b rest

/-- Whatever follows, the reader takes exactly `bs` and answers `a`. -/
def Reads {α : Type} (r : ByteReader α) (bs : List UInt8) (a : α) : Prop :=
  ∀ rest, r.run (bs ++ rest) = some (a, rest)

namespace Reads

variable {α β : Type}

theorem pure (a : α) : Reads (Pure.pure a) [] a := fun _ => rfl

theorem bind {r : ByteReader α} {f : α → ByteReader β} {bs cs : List UInt8} {a : α} {b : β}
    (h : Reads r bs a) (hf : Reads (f a) cs b) : Reads (r >>= f) (bs ++ cs) b := by
  intro rest
  rw [ByteReader.run_bind, List.append_assoc, h]
  exact hf rest

theorem byte (b : UInt8) : Reads ByteReader.byte [b] b := fun _ => rfl

theorem bytes (bs : List UInt8) : Reads (ByteReader.bytes bs.length) bs bs := by
  induction bs with
  | nil => exact pure []
  | cons b rest ih =>
      have h := (byte b).bind (f := fun b => do
        let rest ← ByteReader.bytes rest.length
        return b :: rest) (ih.bind (pure (b :: rest)))
      rwa [List.append_nil] at h

end Reads

/-- Whatever follows, the reader takes exactly `bs` and finds `a` there. -/
def Finds {α : Type} (r : OptionT ByteReader α) (bs : List UInt8) (a : α) : Prop :=
  Reads r.run bs (some a)

namespace Finds

variable {α β : Type}

theorem pure (a : α) : Finds (Pure.pure a) [] a := Reads.pure (some a)

theorem bind {r : OptionT ByteReader α} {f : α → OptionT ByteReader β} {bs cs : List UInt8}
    {a : α} {b : β} (h : Finds r bs a) (hf : Finds (f a) cs b) :
    Finds (r >>= f) (bs ++ cs) b := Reads.bind h hf

theorem last {r : OptionT ByteReader α} {f : α → OptionT ByteReader β} {bs : List UInt8}
    {a : α} {b : β} (h : Finds r bs a) (hf : Finds (f a) [] b) : Finds (r >>= f) bs b := by
  have := h.bind hf
  rwa [List.append_nil] at this

theorem map {r : OptionT ByteReader α} {f : α → β} {bs : List UInt8} {a : α}
    (h : Finds r bs a) : Finds (r >>= fun a => Pure.pure (f a)) bs (f a) :=
  h.last (pure (f a))

theorem lift {r : ByteReader α} {bs : List UInt8} {a : α} (h : Reads r bs a) :
    Finds (r : OptionT ByteReader α) bs a := by
  have := h.bind (f := fun a => Pure.pure (some a)) (Reads.pure (some a))
  rwa [List.append_nil] at this

theorem guarded {p : Prop} [Decidable p] {f : Unit → OptionT ByteReader β} {bs : List UInt8}
    {b : β} (hp : p) (hf : Finds (f ()) bs b) : Finds (guard p >>= f) bs b := by
  have hpure : (guard p : OptionT ByteReader Unit) = Pure.pure () := if_pos hp
  rw [hpure]
  exact (pure ()).bind hf

end Finds

/-! ## Words -/

theorem ofBytes_bytes32 (w : UInt32) : ofBytes (HostInstruction.bytes32 w) = w := by
  apply eq_of_byteAt
  intro i hi
  rw [byteAt_ofBytes (Nat.le_refl _) hi]
  simp only [HostInstruction.bytes32, List.getElem_map, List.getElem_range]

theorem or_shiftLeft_halves (w : UInt64) :
    w.toUInt32.toUInt64 ||| (w >>> 32).toUInt32.toUInt64 <<< 32 = w := by
  apply UInt64.toBitVec_inj.mp
  show BitVec.setWidth 64 (BitVec.setWidth 32 w.toBitVec) |||
    BitVec.setWidth 64 (BitVec.setWidth 32 (w.toBitVec >>> 32)) <<< 32 = w.toBitVec
  ext i hi
  by_cases h : i < 32
  · simp [h, BitVec.getLsbD_eq_getElem hi]
  · have h1 : i - 32 < 32 := by omega
    have h2 : 32 + (i - 32) = i := by omega
    simp [h, h1, h2, BitVec.getLsbD_eq_getElem hi]

theorem bytes64_eq (w : UInt64) :
    HostInstruction.bytes64 w =
      HostInstruction.bytes32 w.toUInt32 ++ HostInstruction.bytes32 (w >>> 32).toUInt32 := by
  simp only [HostInstruction.bytes64, HostInstruction.bytes32, byteAt, List.range_succ,
    List.range_zero, List.nil_append, List.cons_append, List.map_cons, List.map_nil,
    List.cons.injEq, and_true]
  refine ⟨?_, ?_, ?_, ?_, ?_, ?_, ?_, ?_⟩ <;> apply UInt8.toNat_inj.mp <;>
    simp [Nat.shiftRight_eq_div_pow] <;> omega

namespace Reading

open HostInstruction

theorem finds_word32 (w : UInt32) : Finds word32 (bytes32 w) w := by
  have h := Finds.lift (Reads.bytes (bytes32 w))
  have := h.map (f := ofBytes)
  rwa [ofBytes_bytes32] at this

theorem finds_word64 (w : UInt64) : Finds word64 (bytes64 w) w := by
  have h := (finds_word32 w.toUInt32).bind (f := fun low => do
    let high ← word32
    return low.toUInt64 ||| high.toUInt64 <<< 32) (finds_word32 (w >>> 32).toUInt32).map
  rwa [or_shiftLeft_halves, ← bytes64_eq] at h

end Reading

/-! ## Registers -/

namespace HostRegister

@[simp] theorem ofNumber_number (r : HostRegister) : ofNumber r.number = r := by
  cases r <;> rfl

theorem toNat_low (r : HostRegister) : r.low.toNat = r.number % 8 := by
  cases r <;> rfl

theorem high_cases (r : HostRegister) :
    r.high = 0 ∧ r.number = r.low.toNat ∨ r.high = 1 ∧ r.number = 8 + r.low.toNat := by
  cases r <;> decide

theorem low_lt (r : HostRegister) : r.low.toNat < 8 := by
  rw [toNat_low]
  exact Nat.mod_lt _ (by decide)

end HostRegister

namespace HostPrefixes

/-- What stands before an opcode says that operands have size `size`, that the middle
field of a ModRM byte means `reg`, and that its last field or the opcode means `rm`. -/
structure Says (p : HostPrefixes) (size : OperandSize) (reg rm : HostRegister) : Prop where
  size : p.size = size
  reg : p.number 4 reg.low.toNat = reg.number
  rm : p.number 1 rm.low.toNat = rm.number

theorem number_of_bit {p : HostPrefixes} {place : UInt8} {r : HostRegister}
    (h : p.bit place = (r.high != 0)) : p.number place r.low.toNat = r.number := by
  rcases r.high_cases with ⟨hhigh, hnumber⟩ | ⟨hhigh, hnumber⟩ <;>
    simp [number, h, hhigh, hnumber]

theorem says_of_bits {p : HostPrefixes} (wide : Bool) {reg rm : HostRegister}
    (hwide : p.bit 8 = wide) (hreg : p.bit 4 = (reg.high != 0))
    (hrm : p.bit 1 = (rm.high != 0)) :
    p.Says (if wide then .quad else if p.narrow then .word else .long) reg rm where
  size := by rw [size, hwide]
  reg := number_of_bit hreg
  rm := number_of_bit hrm

theorem says_rex (narrow wide : Bool) (reg rm : HostRegister) :
    Says ⟨narrow, (HostInstruction.rex wide reg rm).head?⟩
      (if wide then .quad else if narrow then .word else .long) reg rm := by
  apply says_of_bits wide <;> unfold bit HostInstruction.rex <;>
    rcases reg.high_cases with ⟨h, -⟩ | ⟨h, -⟩ <;>
      rcases rm.high_cases with ⟨h', -⟩ | ⟨h', -⟩ <;> rw [h, h'] <;> cases wide <;> rfl

theorem says_rexByte (reg rm : HostRegister) :
    Says ⟨false, (HostInstruction.rexByte reg rm).head?⟩ .long reg rm := by
  apply says_of_bits false <;> unfold bit HostInstruction.rexByte <;>
    rcases rm.high_cases with ⟨h', -⟩ | ⟨h', -⟩ <;> rw [h'] <;> cases reg <;> rfl

theorem register_number {p : HostPrefixes} {size : OperandSize} (h : size ≠ .byte)
    (r : HostRegister) : p.register size r.number = .register size r := by
  rw [register, if_neg fun hbyte => h hbyte.1, HostRegister.ofNumber_number]

theorem register_rexByte (reg rm : HostRegister) :
    register ⟨false, (HostInstruction.rexByte reg rm).head?⟩ .byte reg.number =
      .register .byte reg := by
  unfold HostInstruction.rexByte
  rcases rm.high_cases with ⟨h, -⟩ | ⟨h, -⟩ <;> rw [h] <;> cases reg <;> rfl

end HostPrefixes

namespace Reading

open HostInstruction

/-- Whether some bytes are a REX byte or nothing. -/
def MayBeRex (bs : List UInt8) : Prop := bs = [] ∨ ∃ b, bs = [b] ∧ b.toNat / 16 = 4

theorem mayBeRex_rex (wide : Bool) (reg rm : HostRegister) : MayBeRex (rex wide reg rm) := by
  unfold rex
  rcases reg.high_cases with ⟨h, -⟩ | ⟨h, -⟩ <;>
    rcases rm.high_cases with ⟨h', -⟩ | ⟨h', -⟩ <;> rw [h, h'] <;> cases wide <;>
      first
      | exact Or.inl rfl
      | exact Or.inr ⟨_, rfl, rfl⟩

theorem mayBeRex_rexByte (reg rm : HostRegister) : MayBeRex (rexByte reg rm) := by
  unfold rexByte
  rcases rm.high_cases with ⟨h, -⟩ | ⟨h, -⟩ <;> rw [h] <;> cases reg <;>
    first
    | exact Or.inl rfl
    | exact Or.inr ⟨_, rfl, rfl⟩

theorem reads_rexed {bs : List UInt8} (hbs : MayBeRex bs) {opcode : UInt8}
    (hop : opcode.toNat / 16 ≠ 4) (narrow : Bool) :
    Reads (ByteReader.byte >>= rexed narrow) (bs ++ [opcode]) (⟨narrow, bs.head?⟩, opcode) := by
  intro rest
  rcases hbs with rfl | ⟨b, rfl, hb⟩
  · show (rexed narrow opcode).run rest = _
    rw [rexed, if_neg hop]
    rfl
  · show (rexed narrow b).run (opcode :: rest) = _
    rw [rexed, if_pos hb]
    rfl

theorem reads_opening {bs : List UInt8} (hbs : MayBeRex bs) {opcode : UInt8}
    (hop : opcode.toNat / 16 ≠ 4) (h66 : opcode ≠ 0x66) :
    Reads opening (bs ++ [opcode]) (⟨false, bs.head?⟩, opcode) := by
  have h := reads_rexed hbs hop false
  intro rest
  rw [← h rest]
  rcases hbs with rfl | ⟨b, rfl, hb⟩
  · show ByteReader.run (if opcode = 0x66 then _ else _) rest = _
    rw [if_neg h66]
    rfl
  · have hne : b ≠ 0x66 := by
      rintro rfl
      exact absurd hb (by decide)
    show ByteReader.run (if b = 0x66 then _ else _) _ = _
    rw [if_neg hne]
    rfl

/-- An instruction without an operand-size prefix. -/
theorem finds_of_body {bs tail : List UInt8} {opcode : UInt8} {i : Reading}
    (hbs : MayBeRex bs) (hop : opcode.toNat / 16 ≠ 4) (h66 : opcode ≠ 0x66)
    (h : Finds (body ⟨false, bs.head?⟩ opcode) tail i) :
    Finds reader (bs ++ opcode :: tail) i := by
  have hread : Finds reader ((bs ++ [opcode]) ++ tail) i :=
    (Finds.lift (reads_opening hbs hop h66)).bind h
  rwa [List.append_assoc] at hread

theorem finds_of_narrow {bs tail : List UInt8} {opcode : UInt8} {i : Reading}
    (hbs : MayBeRex bs) (hop : opcode.toNat / 16 ≠ 4)
    (h : Finds (body ⟨true, bs.head?⟩ opcode) tail i) :
    Finds reader (0x66 :: bs ++ opcode :: tail) i := by
  have hopening : Reads opening (0x66 :: (bs ++ [opcode])) (⟨true, bs.head?⟩, opcode) :=
    fun rest => reads_rexed hbs hop true rest
  have hread : Finds reader ((0x66 :: (bs ++ [opcode])) ++ tail) i :=
    (Finds.lift hopening).bind h
  rwa [List.cons_append, List.append_assoc] at hread

/-! ## ModRM bytes -/

theorem modrm_fields (mode : UInt8) {middle last : UInt8} (hmode : mode.toNat < 4)
    (hmiddle : middle.toNat < 8) (hlast : last.toNat < 8) :
    (HostInstruction.modrm mode middle last).toNat / 64 = mode.toNat ∧
      (HostInstruction.modrm mode middle last).toNat / 8 % 8 = middle.toNat ∧
      (HostInstruction.modrm mode middle last).toNat % 8 = last.toNat := by
  have h : (HostInstruction.modrm mode middle last).toNat =
      64 * mode.toNat + 8 * middle.toNat + last.toNat := by
    unfold HostInstruction.modrm
    rw [UInt8.toNat_add, UInt8.toNat_add, UInt8.toNat_mul, UInt8.toNat_mul]
    simp only [UInt8.reduceToNat]
    omega
  omega

variable {p : HostPrefixes} {size : OperandSize} {reg rm : HostRegister}

theorem finds_register (hp : p.Says size reg rm) {middle : UInt8} (hmiddle : middle.toNat < 8) :
    Finds (modrm p) [HostInstruction.modrm 3 middle rm.low]
      (middle.toNat, fun size => p.register size rm.number) := by
  obtain ⟨hmode, hreg, hrm⟩ := modrm_fields 3 (by decide) hmiddle rm.low_lt
  have hplace : Finds (place p (HostInstruction.modrm 3 middle rm.low)) []
      (fun size => p.register size rm.number) := by
    rw [place, hrm, if_pos (show _ = 3 from hmode), hp.rm]
    exact Finds.pure _
  refine (Finds.lift (Reads.byte _)).bind ?_
  rw [← hreg]
  exact hplace.map

theorem finds_memory (hp : p.Says size reg rm) (middle : UInt8) (hmiddle : middle.toNat < 8)
    (hsib : rm.low.toNat ≠ 4) (hbase : rm.low.toNat ≠ 5) :
    Finds (modrm p) [HostInstruction.modrm 0 middle rm.low]
      (middle.toNat, fun size => .memory size rm 0) := by
  obtain ⟨hmode, hreg, hrm⟩ := modrm_fields 0 (by decide) hmiddle rm.low_lt
  have hplace : Finds (place p (HostInstruction.modrm 0 middle rm.low)) []
      (fun size => .memory size rm 0) := by
    rw [place, hrm, if_neg (by rw [hmode]; decide), hp.rm]
    refine Finds.guarded hsib ?_
    rw [if_neg (by rw [hmode]; decide), HostRegister.ofNumber_number]
    exact Finds.guarded ⟨hmode, hbase⟩ (Finds.pure _)
  refine (Finds.lift (Reads.byte _)).bind ?_
  rw [← hreg]
  exact hplace.map

/-- A ModRM byte and displacement that are a field of the context. -/
theorem finds_field (hp : p.Says size reg .rbx) {middle : UInt8} (hmiddle : middle.toNat < 8)
    (offset : UInt32) :
    Finds (modrm p) (field middle offset)
      (middle.toNat, fun size => contextField size offset) := by
  obtain ⟨hmode, hreg, hrm⟩ :=
    modrm_fields 2 (by decide) hmiddle HostRegister.rbx.low_lt
  have hplace : Finds (place p (HostInstruction.modrm 2 middle HostRegister.rbx.low))
      (bytes32 offset) (fun size => contextField size offset) := by
    rw [place, hrm, if_neg (by rw [hmode]; decide), hp.rm]
    refine Finds.guarded (by decide) ?_
    rw [if_pos (show _ = 2 from hmode)]
    exact (finds_word32 offset).map
  refine (Finds.lift (Reads.byte _)).bind ?_
  rw [← hreg]
  exact hplace.map

end Reading

end Recompiler
