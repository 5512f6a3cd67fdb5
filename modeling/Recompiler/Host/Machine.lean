import Recompiler.Fault
import Recompiler.Host.Context
import Recompiler.Host.Operation

/-!
# What operations do

An abstract host that carries out operations: registers by role, arithmetic
flags, parameters of the next call, and the context.  Guest memory is out of
its sight; the helpers it calls stand for it, and after a call no register but
the result is what it was.  Branches lead forward, so a run of a list of
operations is a walk down that list.
-/

namespace Recompiler

/-- The registers by role. -/
structure Roles where
  ret : UInt32 := 0
  op1 : UInt32 := 0
  op2 : UInt32 := 0
  addr : UInt32 := 0
  temp : UInt32 := 0
  deriving DecidableEq, Repr

namespace Roles

def get (r : Roles) : Role → UInt32
  | .ret => r.ret
  | .op1 => r.op1
  | .op2 => r.op2
  | .addr => r.addr
  | .temp => r.temp

def set (r : Roles) (v : UInt32) : Role → Roles
  | .ret => { r with ret := v }
  | .op1 => { r with op1 := v }
  | .op2 => { r with op2 := v }
  | .addr => { r with addr := v }
  | .temp => { r with temp := v }

theorem get_set (r : Roles) (v : UInt32) (a b : Role) :
    (r.set v a).get b = if a = b then v else r.get b := by
  cases a <;> cases b <;> rfl

end Roles

/-- What compiled code can call, over a world `σ` that holds guest memory. -/
structure Helpers (σ : Type) where
  /-- The word at a guest address. -/
  read : σ → UInt32 → UInt32
  /-- A write, told which block is running; whether that block was
  invalidated. -/
  write : σ → UInt32 → Width → UInt32 → UInt32 → σ × Bool
  /-- What registers and flags are left with after a call. -/
  clobber : σ → Roles × Flags

/-- The state of the host. -/
structure HostState (σ : Type) where
  roles : Roles := {}
  flags : Flags := {}
  params : Vector UInt32 4 := Vector.replicate 4 0
  /-- Whether the first parameter is the handle of an emulator. -/
  handle : Bool := false
  context : Context
  world : σ
  /-- The rule that a call broke, if one did. -/
  broken : Option Corruption := none

/-- How a run of operations ends. -/
inductive Outcome (σ : Type) where
  /-- With a return code. -/
  | returned (code : UInt32) (state : HostState σ)
  /-- With a jump to the address held at a place. -/
  | jumped (slot : HostAddress) (state : HostState σ)
  /-- In no way that compiled code ever ends. -/
  | lost

namespace HostState

variable {σ : Type}

def setRole (s : HostState σ) (r : Role) (v : UInt32) : HostState σ :=
  { s with roles := s.roles.set v r }

/-- What is broken once a helper was called: it needs the handle. -/
def brokenByCall (s : HostState σ) : Option Corruption :=
  if s.handle then s.broken else s.broken.or (some .helperWithoutOwner)

/-- The state after a call of a helper, which leaves something else where the handle
was. -/
def call (h : Helpers σ) (s : HostState σ) : Helper → HostState σ
  | .read32 =>
      let result := h.read s.world s.params[1]
      let (roles, flags) := h.clobber s.world
      { s with
        roles := { roles with ret := result }
        flags
        handle := false
        broken := s.brokenByCall }
  | .write width =>
      let (world, hit) :=
        h.write s.world s.context.running width s.params[1] s.params[2]
      let (roles, flags) := h.clobber world
      { s with
        roles := { roles with ret := if hit then 1 else 0 }
        flags
        world
        handle := false
        broken := s.brokenByCall }

def setParam (s : HostState σ) (param : Fin 4) (v : UInt32) : HostState σ :=
  { s with params := s.params.set param.val v, handle := param.val ≠ 0 && s.handle }

def takes (s : HostState σ) : BranchCondition → Bool
  | .always => true
  | .nonZero r => s.roles.get r != 0
  | .lessOrEqualZero r => decide ((s.roles.get r).toInt32 ≤ 0)
  | .guest cond => cond.holds s.flags

/-- The state after an operation that neither leaves nor branches. -/
def step (h : Helpers σ) (s : HostState σ) : Operation → HostState σ
  | .move dst src => s.setRole dst (s.roles.get src)
  | .moveImm dst imm => s.setRole dst imm
  | .loadContext dst offset width => s.setRole dst (s.context.load offset width)
  | .storeContext src offset width =>
      { s with context := s.context.store offset width (s.roles.get src) }
  | .storeContextImm offset imm =>
      { s with context := s.context.store offset .long imm }
  | .subContextImm offset imm =>
      { s with
        context := s.context.store offset .long (s.context.load offset .long - imm) }
  | .alu op dst src =>
      let a := s.roles.get dst
      let b := s.roles.get src
      { s with
        roles := if op.keepsResult then s.roles.set (op.result a b) dst else s.roles
        flags := op.flags a b }
  | .aluImm op dst imm =>
      let a := s.roles.get dst
      { s with
        roles := if op.keepsResult then s.roles.set (op.result a imm) dst else s.roles
        flags := op.flags a imm }
  | .unary op r =>
      let a := s.roles.get r
      { s with roles := s.roles.set (op.result a) r, flags := op.flags s.flags a }
  | .shlImm r amount => s.setRole r (s.roles.get r <<< amount.toUInt32)
  | .saveFlags offset =>
      { s with
        context := s.context.store offset .long
          (s.flags.into (s.context.load offset .long)) }
  | .loadFlags offset =>
      { s with flags := .ofWord (s.context.load offset .long) }
  | .paramRole param src => s.setParam param (s.roles.get src)
  | .paramImm param imm => s.setParam param imm
  | .paramPointer param offset =>
      { s with
        handle := if param.val = 0 then offset = Field.owner && s.context.owner else s.handle }
  | .call (.helper f) => s.call h f
  | _ => s

/-- Carries out operations in order.  While a label is sought everything up to
its place is passed over. -/
def run (h : Helpers σ) (sought : Option Nat) (s : HostState σ) :
    List Operation → Outcome σ
  | [] => .lost
  | op :: rest =>
      match sought with
      | some label => s.run h (if op = .place label then none else some label) rest
      | none =>
          match op with
          | .leave code => .returned code.word (s.setRole .ret code.word)
          | .jumpThrough slot => .jumped slot s
          | .branch cond label => s.run h (if s.takes cond then some label else none) rest
          | .enter | .literal _ | .call (.absolute _) | .call (.exitSlot _ _) => .lost
          | op => (s.step h op).run h none rest

end HostState

end Recompiler
