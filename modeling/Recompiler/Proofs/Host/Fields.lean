import Recompiler.Guest.Semantics
import Recompiler.Host.Context
import Recompiler.Host.Operation

/-!
# The fields of the context

Compiled code reaches registers, flags, cycle budget and the rest by offset.
Each offset is that of one field, and an access there reads or changes that
field and no other.
-/

namespace Recompiler

namespace Context

variable (c : Context)

theorem load_long {offset : UInt32} (h : offset % 4 = 0) :
    c.load offset .long = c.word (offset.toNat / 4) := by
  show c.word _ >>> (8 * (offset % 4)) = _
  rw [h]
  exact UInt32.shiftRight_zero

theorem store_long {offset : UInt32} (h : offset % 4 = 0) (v : UInt32) :
    c.store offset .long v = c.setWord (offset.toNat / 4) v := by
  show c.setWord _ ((c.word _ &&& ~~~((0xFFFFFFFF : UInt32) <<< (8 * (offset % 4)))) |||
    v <<< (8 * (offset % 4))) = _
  rw [h]
  congr 1
  show (c.word _ &&& (0 : UInt32)) ||| v <<< (0 : UInt32) = v
  rw [UInt32.and_zero, UInt32.zero_or, UInt32.shiftLeft_zero]

/-! ## Registers -/

theorem load_reg (r : Reg) (width : Width) :
    c.load (Field.reg r) width = width.truncate (c.cpu.reg r) := by
  have h : (Field.reg r).toNat / 4 = r.index.val ∧ 8 * (Field.reg r % 4) = 0 := by
    cases r <;> decide
  rw [load, h.1, h.2, UInt32.shiftRight_zero, word, dif_pos r.index.isLt]
  rfl

@[simp] theorem load_reg_long (r : Reg) : c.load (Field.reg r) .long = c.cpu.reg r :=
  c.load_reg r .long

theorem load_byteReg (r : Reg) (width : Width) :
    c.load (Field.byteReg r true) width = width.truncate (c.cpu.reg r >>> 8) := by
  have h : (Field.byteReg r true).toNat / 4 = r.index.val ∧
      8 * (Field.byteReg r true % 4) = 8 := by
    cases r <;> decide
  rw [load, h.1, h.2, word, dif_pos r.index.isLt]
  rfl

@[simp] theorem store_reg (r : Reg) (v : UInt32) :
    c.store (Field.reg r) .long v = { c with cpu := c.cpu.setReg r v } := by
  have h : (Field.reg r).toNat / 4 = r.index.val ∧ Field.reg r % 4 = 0 := by
    cases r <;> decide
  rw [store_long c h.2, h.1, setWord, dif_pos r.index.isLt]
  rfl

/-! ## The other fields -/

@[simp] theorem store_eip (v : UInt32) :
    c.store Field.eip .long v = { c with cpu := c.cpu.goto v } :=
  c.store_long rfl v

@[simp] theorem load_eflags : c.load Field.eflags .long = c.cpu.eflags :=
  c.load_long rfl

@[simp] theorem store_eflags (v : UInt32) :
    c.store Field.eflags .long v = { c with cpu := { c.cpu with eflags := v } } :=
  c.store_long rfl v

@[simp] theorem load_cycles : c.load Field.cycles .long = c.cycles.toUInt32 :=
  c.load_long rfl

@[simp] theorem store_cycles (v : UInt32) :
    c.store Field.cycles .long v = { c with cycles := v.toInt32 } :=
  c.store_long rfl v

@[simp] theorem store_running (v : UInt32) :
    c.store Field.running .long v = { c with running := v } :=
  c.store_long rfl v

@[simp] theorem store_callback (v : UInt32) :
    c.store Field.callback .long v = { c with callback := v } :=
  c.store_long rfl v

end Context

end Recompiler
