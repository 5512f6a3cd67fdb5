import Recompiler.Guest.Instruction
import Recompiler.Host.Assembly

/-!
# The code of a block

Operations for guest instructions, for the ways out of a block, and for a
whole block:

* a prologue that names the block as running and leaves at once if the cycle
  budget is used up;
* the body, instruction by instruction;
* the exit;
* stubs: the rare ways out that branches of prologue and body lead to.

Between instructions the whole guest state is in the context, so every exit
leaves it exact.
-/

namespace Recompiler

/-- How control leaves the body of a block. -/
inductive Exit where
  /-- A limit was reached; the guest goes on at an address. -/
  | limit (target : UInt32)
  | jump (target : UInt32)
  | branch (cond : Condition) (taken notTaken : UInt32)
  /-- The instruction pointer has been stored. -/
  | computed
  /-- The instruction at an address is the interpreter's. -/
  | interpret (eip : UInt32)
  | callback (next : UInt32)
  deriving DecidableEq, Repr

def Exit.kind : Exit → BlockKind
  | limit _ | jump _ => .single
  | branch _ _ _ => .dual
  | computed | interpret _ | callback _ => .normal

/-! ## Instructions -/

namespace Operation

open Role

/-- Leaves an effective address in `addr`.  `temp` is not kept. -/
def effectiveAddress (a : Address) : List Operation :=
  (match a.base with
    | some base =>
        loadContext addr (Field.reg base) .long ::
          (if a.disp = 0 then [] else [aluImm .add addr a.disp])
    | none => [moveImm addr a.disp]) ++
  match a.index with
    | some (index, shift) =>
        [loadContext temp (Field.reg index) .long, shlImm temp shift.toUInt8,
          alu .add addr temp]
    | none => []

/-- Reads guest memory at `addr` into `ret`. -/
def readMemory : List Operation :=
  [paramRole 1 addr, paramPointer 0 Field.owner, call (.helper .read32)]

/-- Writes `temp` to guest memory at `addr`, and branches to `label` if the
write invalidated the running block. -/
def writeMemory (width : Width) (label : Nat) : List Operation :=
  [paramRole 2 temp, paramRole 1 addr, paramPointer 0 Field.owner,
    call (.helper (.write width)), branch (.nonZero ret) label]

/-- Makes room for a word on the stack and leaves its address in `addr`. -/
def lowerStack : List Operation :=
  [loadContext addr (Field.reg .esp) .long, aluImm .sub addr 4,
    storeContext addr (Field.reg .esp) .long]

def raiseStack : List Operation :=
  [loadContext op1 (Field.reg .esp) .long, aluImm .add op1 4,
    storeContext op1 (Field.reg .esp) .long]

end Operation

def Instruction.stores : Instruction → Bool
  | .store _ _ _ | .push _ | .call _ => true
  | _ => false

/-- Where the guest goes on after an instruction whose write invalidated the
running block. -/
def Placed.resume (p : Placed) : UInt32 :=
  match p.instruction with
  | .call target => target
  | _ => p.next

open Operation in
/-- The body of an instruction.  `label` is where its write branches to. -/
def Placed.body (p : Placed) (label : Nat) : List Operation :=
  match p.instruction with
  | .nop | .jump _ | .jumpIf _ _ => []
  | .moveImm dst imm => [storeContextImm (Field.reg dst) imm]
  | .move dst src =>
      [loadContext .ret (Field.reg src) .long, storeContext .ret (Field.reg dst) .long]
  | .load dst a =>
      effectiveAddress a ++ readMemory ++ [storeContext .ret (Field.reg dst) .long]
  | .store a width src =>
      effectiveAddress a ++
        (match src with
          | .reg r => [loadContext .temp (Field.reg r) width]
          | .highByte r => [loadContext .temp (Field.byteReg r true) width]
          | .imm v => [moveImm .temp v]) ++
        writeMemory width label
  | .alu op dst src =>
      loadContext .ret (Field.reg dst) .long ::
        (match src with
          | .reg r => [loadContext .op1 (Field.reg r) .long, alu op .ret .op1]
          | .imm v => [aluImm op .ret v]) ++
        saveFlags Field.eflags ::
        (if op.keepsResult then [storeContext .ret (Field.reg dst) .long] else [])
  | .unary op r =>
      [loadContext .ret (Field.reg r) .long, loadFlags Field.eflags, unary op .ret,
        saveFlags Field.eflags, storeContext .ret (Field.reg r) .long]
  | .lea dst a => effectiveAddress a ++ [storeContext .addr (Field.reg dst) .long]
  | .push src =>
      loadContext .temp (Field.reg src) .long :: lowerStack ++ writeMemory .long label
  | .pop dst =>
      loadContext .addr (Field.reg .esp) .long :: readMemory ++ raiseStack ++
        [storeContext .ret (Field.reg dst) .long]
  | .call _ => moveImm .temp p.next :: lowerStack ++ writeMemory .long label
  | .ret =>
      loadContext .addr (Field.reg .esp) .long :: readMemory ++
        storeContext .ret Field.eip .long :: raiseStack
  | .jumpReg src =>
      [loadContext .ret (Field.reg src) .long, storeContext .ret Field.eip .long]
  | .interrupt vector => [storeContextImm Field.callback vector.toUInt32]

/-- How a block is left through an instruction that ends it. -/
def Placed.exit? (p : Placed) : Option Exit :=
  match p.instruction with
  | .jump target | .call target => some (.jump target)
  | .jumpIf cond target => some (.branch cond target p.next)
  | .ret | .jumpReg _ => some .computed
  | .interrupt _ => some (.callback p.next)
  | _ => none

/-! ## Ways out -/

namespace Operation

def spend (count : Nat) : List Operation :=
  if count = 0 then [] else [subContextImm Field.cycles count.toUInt32]

def leaveThrough (id : BlockId) (slot : Slot) (target : UInt32) (count : Nat) :
    List Operation :=
  storeContextImm Field.eip target :: spend count ++ [jumpThrough (.exitSlot id slot)]

def leaveWith (eip : Option UInt32) (count : Nat) (code : ReturnCode) :
    List Operation :=
  eip.toList.map (storeContextImm Field.eip) ++ spend count ++ [leave code]

end Operation

open Operation in
/-- The operations of an exit.  `label` is where a condition that holds
branches to. -/
def Exit.operations (e : Exit) (id : BlockId) (count label : Nat) : List Operation :=
  match e with
  | .limit target | .jump target => leaveThrough id .first target count
  | .branch cond taken notTaken =>
      [loadFlags Field.eflags, .branch (.guest cond) label] ++
        leaveThrough id .first notTaken count ++ place label :: leaveThrough id .second taken count
  | .computed => leaveWith none count .normal
  | .interpret eip => leaveWith (some eip) count .opcode
  | .callback next => leaveWith (some next) count .callback

/-! ## Whole blocks -/

/-- The label of the stub that leaves when the budget is used up. -/
def cycleLabel : Nat := 0

def prologue (id : BlockId) : List Operation :=
  [.storeContextImm Field.running id.word, .loadContext .ret Field.cycles .long,
    .branch (.lessOrEqualZero .ret) cycleLabel]

/-- The number of writes in a run of instructions. -/
def writeCount (ps : List Placed) : Nat :=
  (ps.filter fun p => p.instruction.stores).length

/-- The bodies of a run of instructions; writes are given labels in order,
from `label` on. -/
def bodies (label : Nat) : List Placed → List Operation
  | [] => []
  | p :: rest =>
      p.body label ++ bodies (if p.instruction.stores then label + 1 else label) rest

/-- The stubs of the writes of a run of instructions, of which `count` ran
before. -/
def writeStubs (label count : Nat) : List Placed → List Operation
  | [] => []
  | p :: rest =>
      if p.instruction.stores then
        .place label ::
          Operation.leaveWith (some p.resume) (count + 1) .selfModified ++
          writeStubs (label + 1) (count + 1) rest
      else writeStubs label (count + 1) rest

/-- What a block is compiled from. -/
structure Sequence where
  instructions : List Placed
  exit : Exit
  /-- The page offset one past the last source byte. -/
  stop : Nat
  deriving DecidableEq, Repr

def Sequence.operations (s : Sequence) (id : BlockId) : List Operation :=
  prologue id ++ bodies (cycleLabel + 1) s.instructions ++
    s.exit.operations id s.instructions.length
      (cycleLabel + 1 + writeCount s.instructions) ++
    [.place cycleLabel, .leave .cycles] ++
    writeStubs (cycleLabel + 1) 0 s.instructions

/-- The number of code bytes of a run of operations, calls by name taking
their longest form. -/
def codeLength (ops : List Operation) : Nat :=
  ops.foldr (fun op n => op.codeLength + n) 0

end Recompiler
