/-!
# Guest registers

The architectural state of the 32-bit guest: eight general registers, the
instruction pointer and the flags word.
-/

namespace Recompiler

inductive Reg where
  | eax | ecx | edx | ebx | esp | ebp | esi | edi
  deriving DecidableEq, Repr

namespace Reg

def all : List Reg := [eax, ecx, edx, ebx, esp, ebp, esi, edi]

def index : Reg → Fin 8
  | eax => 0
  | ecx => 1
  | edx => 2
  | ebx => 3
  | esp => 4
  | ebp => 5
  | esi => 6
  | edi => 7

/-- The register with a given number; numbers are taken modulo 8. -/
def ofNumber (n : Nat) : Reg := all.get ⟨n % 8, by
  simp only [all, List.length_cons, List.length_nil]; omega⟩

@[simp] theorem ofNumber_index (r : Reg) : ofNumber r.index.val = r := by
  cases r <;> rfl

theorem index_inj {r s : Reg} : r.index = s.index ↔ r = s := by
  cases r <;> cases s <;> decide

end Reg

/-- The state of the guest CPU. -/
structure Cpu where
  regs : Vector UInt32 8 := Vector.replicate 8 0
  eip : UInt32 := 0
  /-- Bit 1 always reads as set. -/
  eflags : UInt32 := 2
  deriving DecidableEq, Repr

namespace Cpu

def reg (c : Cpu) (r : Reg) : UInt32 := c.regs[r.index.val]

def setReg (c : Cpu) (r : Reg) (value : UInt32) : Cpu :=
  { c with regs := c.regs.set r.index.val value }

@[simp] theorem reg_setReg (c : Cpu) (r s : Reg) (v : UInt32) :
    (c.setReg r v).reg s = if r = s then v else c.reg s := by
  simp only [reg, setReg, Vector.getElem_set]
  by_cases h : r = s
  · simp [h]
  · have : r.index.val ≠ s.index.val :=
      fun e => h (Reg.index_inj.mp (Fin.ext e))
    simp [h, this]

@[simp] theorem eip_setReg (c : Cpu) (r : Reg) (v : UInt32) :
    (c.setReg r v).eip = c.eip := rfl

@[simp] theorem eflags_setReg (c : Cpu) (r : Reg) (v : UInt32) :
    (c.setReg r v).eflags = c.eflags := rfl

end Cpu

end Recompiler
