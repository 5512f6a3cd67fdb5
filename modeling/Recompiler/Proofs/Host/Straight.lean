import Recompiler.Compile.Code
import Recompiler.Proofs.Host.Fields
import Recompiler.Host.Machine

/-!
# Runs of operations, piece by piece

Most operations neither leave nor branch.  A run passes through such pieces of
code one after the other, and while it looks for a label it passes over what
does not place it.
-/

namespace Recompiler

open Operation in
theorem Operation.effectiveAddress_index (base : Option Reg) (index : Reg) (shift : Nat)
    (disp : UInt32) :
    effectiveAddress ⟨base, some (index, shift), disp⟩ = effectiveAddress ⟨base, none, disp⟩ ++
      [loadContext .temp (Field.reg index) .long, shlImm .temp shift.toUInt8,
        alu .add .addr .temp] := by
  unfold effectiveAddress
  simp only [List.append_nil]

namespace HostState

variable {σ : Type} (h : Helpers σ) (s : HostState σ) (rest : List Operation)

/-! ## Looking for a label -/

theorem run_sought_append {label : Nat} {ops : List Operation} (hn : .place label ∉ ops) :
    s.run h (some label) (ops ++ rest) = s.run h (some label) rest := by
  induction ops with
  | nil => rfl
  | cons op ops ih =>
      rw [List.mem_cons, not_or] at hn
      show s.run h (if op = .place label then none else some label) (ops ++ rest) = _
      rw [if_neg (Ne.symm hn.1)]
      exact ih hn.2

theorem run_sought_place (label : Nat) :
    s.run h (some label) (.place label :: rest) = s.run h none rest := by
  show s.run h (if Operation.place label = .place label then none else some label) rest = _
  rw [if_pos rfl]

/-! ## Pieces of code -/

/-- Only the five lowest bits of a shift count matter. -/
theorem shiftLeft_toUInt8 (v : UInt32) (n : Nat) :
    v <<< n.toUInt8.toUInt32 = v <<< n.toUInt32 := by
  apply UInt32.toBitVec_inj.mp
  simp

open Operation

theorem run_effectiveAddress (a : Address) :
    ∃ t : HostState σ, s.run h none (effectiveAddress a ++ rest) = t.run h none rest ∧
      t.context = s.context ∧ t.world = s.world ∧ t.roles.addr = a.eval s.context.cpu := by
  obtain ⟨base, index, disp⟩ := a
  have hbase : ∀ more, ∃ t : HostState σ,
      s.run h none (effectiveAddress ⟨base, none, disp⟩ ++ more) = t.run h none more ∧
      t.context = s.context ∧ t.world = s.world ∧
      t.roles.addr = base.elim 0 s.context.cpu.reg + disp := by
    intro more
    cases base with
    | none => exact ⟨_, rfl, rfl, rfl, (UInt32.zero_add disp).symm⟩
    | some base =>
        unfold effectiveAddress
        by_cases hd : disp = 0
        · simp only [if_pos hd]
          refine ⟨_, rfl, rfl, rfl, ?_⟩
          rw [hd]
          exact (s.context.load_reg_long base).trans (UInt32.add_zero _).symm
        · simp only [if_neg hd]
          refine ⟨_, rfl, rfl, rfl, ?_⟩
          show s.context.load _ .long + disp = _
          rw [Context.load_reg_long]
          rfl
  cases index with
  | none =>
      obtain ⟨t, hrun, hc, hw, ha⟩ := hbase rest
      exact ⟨t, hrun, hc, hw, ha.trans (UInt32.add_zero _).symm⟩
  | some i =>
      obtain ⟨index, shift⟩ := i
      obtain ⟨t, hrun, hc, hw, ha⟩ := hbase ([loadContext .temp (Field.reg index) .long,
        shlImm .temp shift.toUInt8, alu .add .addr .temp] ++ rest)
      rw [effectiveAddress_index, List.append_assoc]
      refine ⟨_, hrun.trans rfl, hc, hw, ?_⟩
      show t.roles.addr + t.context.load _ .long <<< shift.toUInt8.toUInt32 = _
      rw [ha, hc, Context.load_reg_long, Address.eval]
      congr 1
      show _ <<< shift.toUInt8.toUInt32 = _ <<< shift.toUInt32
      exact shiftLeft_toUInt8 _ shift

theorem run_readMemory :
    ∃ t : HostState σ, s.run h none (readMemory ++ rest) = t.run h none rest ∧
      t.context = s.context ∧ t.world = s.world ∧ t.roles.ret = h.read s.world s.roles.addr := by
  refine ⟨_, rfl, rfl, rfl, ?_⟩
  show h.read s.world (s.params.set 1 s.roles.addr)[1] = _
  rw [Vector.getElem_set_self]

theorem run_writeMemory (width : Width) (label : Nat) :
    ∃ t : HostState σ,
      s.run h none (writeMemory width label ++ rest) =
        t.run h (if (h.write s.world s.context.running width s.roles.addr s.roles.temp).2
          then some label else none) rest ∧
      t.context = s.context ∧
      t.world = (h.write s.world s.context.running width s.roles.addr s.roles.temp).1 := by
  have hparams : ((s.params.set 2 s.roles.temp).set 1 s.roles.addr)[1] = s.roles.addr ∧
      ((s.params.set 2 s.roles.temp).set 1 s.roles.addr)[2] = s.roles.temp := by
    simp
  let t := [paramRole 2 .temp, paramRole 1 .addr, paramPointer 0 Field.owner,
    .call (.helper (.write width))].foldl (step h) s
  have hworld : t.world = (h.write s.world s.context.running width s.roles.addr s.roles.temp).1 := by
    show (h.write s.world s.context.running width
      ((s.params.set 2 s.roles.temp).set 1 s.roles.addr)[1]
      ((s.params.set 2 s.roles.temp).set 1 s.roles.addr)[2]).1 = _
    rw [hparams.1, hparams.2]
  have hret : t.roles.ret =
      if (h.write s.world s.context.running width s.roles.addr s.roles.temp).2 then 1 else 0 := by
    show (if (h.write s.world s.context.running width
      ((s.params.set 2 s.roles.temp).set 1 s.roles.addr)[1]
      ((s.params.set 2 s.roles.temp).set 1 s.roles.addr)[2]).2 then 1 else 0) = _
    rw [hparams.1, hparams.2]
  refine ⟨t, ?_, rfl, hworld⟩
  show t.run h (if t.takes (.nonZero .ret) then some label else none) rest = _
  have htakes : t.takes (.nonZero .ret) =
      (h.write s.world s.context.running width s.roles.addr s.roles.temp).2 := by
    show (t.roles.ret != 0) = _
    rw [hret]
    cases (h.write s.world s.context.running width s.roles.addr s.roles.temp).2 <;> rfl
  rw [htakes]

/-- Room is made for a word on the stack, and its address is left in `addr`. -/
theorem run_lowerStack :
    ∃ t : HostState σ, s.run h none (lowerStack ++ rest) = t.run h none rest ∧
      t.context = { s.context with
        cpu := s.context.cpu.setReg .esp (s.context.cpu.reg .esp - 4) } ∧
      t.world = s.world ∧ t.roles.addr = s.context.cpu.reg .esp - 4 ∧
      t.roles.temp = s.roles.temp := by
  refine ⟨_, rfl, ?_, rfl, ?_, rfl⟩
  · show s.context.store (Field.reg .esp) .long (s.context.load (Field.reg .esp) .long - 4) = _
    rw [Context.load_reg_long, Context.store_reg]
  · show s.context.load (Field.reg .esp) .long - 4 = _
    rw [Context.load_reg_long]

theorem run_raiseStack :
    ∃ t : HostState σ, s.run h none (raiseStack ++ rest) = t.run h none rest ∧
      t.context = { s.context with
        cpu := s.context.cpu.setReg .esp (s.context.cpu.reg .esp + 4) } ∧
      t.world = s.world ∧ t.roles.ret = s.roles.ret := by
  refine ⟨_, rfl, ?_, rfl, rfl⟩
  show s.context.store (Field.reg .esp) .long (s.context.load (Field.reg .esp) .long + 4) = _
  rw [Context.load_reg_long, Context.store_reg]

end HostState

end Recompiler
