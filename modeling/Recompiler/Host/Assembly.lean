import Recompiler.Host.Instruction

/-!
# From operations to code bytes

Each operation stands for a few host instructions.  Only two depend on where
they are put: a call is direct if its target is within reach, and a branch is
written with an empty displacement that is filled in when its label is placed.
-/

namespace Recompiler

def Role.host : Role → HostRegister
  | .ret => .rax
  | .op1 => .rcx
  | .op2 => .rdx
  | .addr => .r8
  | .temp => .r9

def paramHost : Fin 4 → HostRegister
  | 0 => .rdi
  | 1 => .rsi
  | 2 => .rdx
  | 3 => .rcx

/-- The registers that compiled code leaves as it found them, in the order
they are saved. -/
def preserved : List HostRegister := [.rbx, .rbp, .r12, .r13, .r14, .r15]

def displacement (n : Int) : UInt32 := (Int32.ofInt n).toUInt32

def displacement? (n : Int) : Option UInt32 :=
  if (Int32.ofInt n).toInt = n then some (displacement n) else none

/-- The instructions of a branch, its displacement still empty. -/
def BranchCondition.instructions : BranchCondition → List HostInstruction
  | .always => [.jumpRel 0]
  | .nonZero reg => [.alu .test reg.host reg.host, .jumpIf .notEqual 0]
  | .lessOrEqualZero reg => [.alu .test reg.host reg.host, .jumpIf .lessOrEqual 0]
  | .guest cond => [.jumpIf cond 0]

namespace Operation

/-- The instructions of a call from the host address `here`.  Host addresses
wrap at 64 bits. -/
def callInstructions (here : Int) (target : HostAddress) : List HostInstruction :=
  let far := [.moveAddress .rax target, .callReg .rax]
  match target with
  | .absolute a =>
      match displacement? (Int.bmod (a.toNat - (here + 5)) UInt64.size) with
      | some disp => [.callRel disp]
      | none => far
  | _ => far

/-- The instructions an operation stands for at the host address `here`. -/
def instructions (here : Int) : Operation → List HostInstruction
  | enter =>
      preserved.map .push ++ [.moveReg64 .rbx .rsi, .callReg .rdi] ++
        preserved.reverse.map .pop ++ [.ret]
  | leave code => [.moveImm .rax code.word, .ret]
  | move dst src => if dst = src then [] else [.moveReg dst.host src.host]
  | moveImm dst imm => [.moveImm dst.host imm]
  | loadContext dst offset width => [.load width dst.host offset]
  | storeContext src offset width => [.store width offset src.host]
  | storeContextImm offset imm => [.storeImm offset imm]
  | subContextImm offset imm => [.subFieldImm offset imm]
  | alu op dst src => [.alu op dst.host src.host]
  | aluImm op dst imm => [.aluImm op dst.host imm]
  | unary op reg => [.unary op reg.host]
  | shlImm reg amount => if amount = 0 then [] else [.shlImm reg.host amount]
  | saveFlags offset =>
      [.pushFlags, .pop .r10, .aluImm .and .r10 Flags.mask,
        .load .long .r11 offset, .aluImm .and .r11 (~~~Flags.mask),
        .alu .or .r11 .r10, .store .long offset .r11]
  | loadFlags offset =>
      [.load .long .r10 offset, .aluImm .and .r10 Flags.mask, .push .r10, .popFlags]
  | paramRole param src =>
      if paramHost param = src.host then []
      else [.moveReg (paramHost param) src.host]
  | paramImm param imm => [.moveImm (paramHost param) imm]
  | paramPointer param offset => [.load64 (paramHost param) offset]
  | call target => callInstructions here target
  | branch cond _ => cond.instructions
  | place _ => []
  | jumpThrough slot => [.moveAddress .rax slot, .jumpMem .rax]
  | literal b => [.raw b]

def code (here : Int) (op : Operation) : List CodeByte :=
  (op.instructions here).flatMap HostInstruction.encode

/-- The number of code bytes of an operation, calls by name taking their
longest form. -/
def codeLength (op : Operation) : Nat := (op.code 0).length

end Operation

/-! ## Code in place -/

/-- Code bytes from position 0 on; beyond those written all are zero. -/
structure Image where
  bytes : Array CodeByte := #[]
  deriving DecidableEq

namespace Image

def read (m : Image) (position : Nat) : CodeByte :=
  m.bytes.getD position (.literal 0)

def slice (m : Image) (position length : Nat) : List CodeByte :=
  (List.range length).map fun i => m.read (position + i)

def write (m : Image) (position : Nat) (b : CodeByte) : Image :=
  if position < m.bytes.size then
    ⟨m.bytes.setIfInBounds position b⟩
  else
    ⟨(m.bytes ++ Array.replicate (position - m.bytes.size) (CodeByte.literal 0)).push b⟩

def put (m : Image) (position : Nat) : List CodeByte → Image
  | [] => m
  | b :: rest => (m.write position b).put (position + 1) rest

theorem read_write (m : Image) (i j : Nat) (b : CodeByte) :
    (m.write i b).read j = if i = j then b else m.read j := by
  unfold write read
  split
  · next h =>
      by_cases hij : i = j
      · subst hij; simp [h]
      · simp [hij]
  · next h =>
      simp only [Array.getD_eq_getD_getElem?, Array.getElem?_push, Array.getElem?_append,
        Array.size_append, Array.size_replicate, Array.getElem?_replicate]
      by_cases hij : i = j
      · subst hij
        have : i = m.bytes.size + (i - m.bytes.size) := by omega
        simp [← this]
      · have hne : j ≠ m.bytes.size + (i - m.bytes.size) := by omega
        simp only [hne, if_false, hij]
        split
        · rfl
        · next hj =>
            have : m.bytes[j]? = none := Array.getElem?_eq_none (by omega)
            rw [this]
            split <;> rfl

/-- Bytes put into an image are read back in order, and no others change. -/
theorem read_put (m : Image) (i j : Nat) (bs : List CodeByte) :
    (m.put i bs).read j =
      if i ≤ j then (bs[j - i]?).getD (m.read j) else m.read j := by
  induction bs generalizing m i with
  | nil => simp [put]
  | cons b rest ih =>
      rw [put, ih, read_write]
      by_cases h : i = j
      · subst h
        simp [show ¬ i + 1 ≤ i by omega]
      · by_cases hle : i ≤ j
        · have h1 : i + 1 ≤ j := by omega
          have h2 : j - i = (j - (i + 1)) + 1 := by omega
          simp only [h1, hle, h, if_true, if_false]
          rw [h2, List.getElem?_cons_succ]
        · have h1 : ¬ i + 1 ≤ j := by omega
          simp [h1, hle, h]

end Image

/-- Labels of branches whose displacement is still to be filled in, with the
position of the displacement; the latest branch first. -/
abbrev Labels := List (Nat × Nat)

/-- Where code is being written. -/
structure Pen where
  image : Image := {}
  /-- The position of the next code byte. -/
  cursor : Nat := 0
  labels : Labels := []
  deriving DecidableEq

namespace Pen

def append (p : Pen) (bs : List CodeByte) : Pen :=
  { p with image := p.image.put p.cursor bs, cursor := p.cursor + bs.length }

/-- Fills in the displacement at `position` so that it leads to the cursor. -/
def patch (p : Pen) (position : Nat) : Pen :=
  let disp := displacement (p.cursor - (position + 4))
  { p with
    image := p.image.put position ((HostInstruction.bytes32 disp).map .literal) }

/-- Writes an operation; `base` is the host address of position 0. -/
def emit (p : Pen) (base : Nat) (op : Operation) : Pen :=
  let written := p.append (op.code (base + p.cursor))
  match op with
  | .branch _ label => { written with labels := (label, written.cursor - 4) :: p.labels }
  | .place label =>
      match p.labels.lookup label with
      | some position => written.patch position
      | none => written
  | _ => written

def emitAll (p : Pen) (base : Nat) (ops : List Operation) : Pen :=
  ops.foldl (fun p op => p.emit base op) p

end Pen

end Recompiler
