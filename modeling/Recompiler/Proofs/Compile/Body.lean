import Recompiler.Proofs.Host.Straight

/-!
# The body of an instruction

The operations an instruction is compiled to do to the context and to the world
what the instruction does to CPU and memory, its writes made by the helper.
Nothing is asked of the helpers but that they read and write the memory that the
world shows: whether a write meets the running block is theirs to say, and no
register outlives a call but the result.

The instruction pointer is not kept up between instructions; only what computes
it stores it.
-/

namespace Recompiler

open Operation

variable {σ : Type}

/-- Helpers that read and write the memory a world shows. -/
structure Helpers.Faithful (h : Helpers σ) (ram : σ → Memory) : Prop where
  read : ∀ w addr, h.read w addr = (ram w).readWidth .long addr
  write : ∀ w running width addr v,
    ram (h.write w running width addr v).1 = (ram w).writeWidth width addr v
  /-- The bits beyond the width do not matter. -/
  truncate : ∀ w running width addr v,
    h.write w running width addr (width.truncate v) = h.write w running width addr v

/-- An instruction whose write, if it makes one, is made by the helper: the CPU
and the world after it, and whether the write met the running block. -/
def Placed.perform (p : Placed) (h : Helpers σ) (ram : σ → Memory) (running : UInt32) (c : Cpu)
    (w : σ) : Cpu × σ × Bool :=
  (p.effect c).run (fun w addr => (ram w.1).read addr)
    (fun w width addr v => h.write w.1 running width addr v) (w, false)

/-- A bus program sees the memory that the world shows, and leaves the world to
show the memory it leaves. -/
theorem Helpers.Faithful.run {h : Helpers σ} {ram : σ → Memory} (hf : h.Faithful ram)
    (running : UInt32) {α : Type} (q : BusProgram α) (w : σ × Bool) :
    (ram w.1).run q =
      ((q.run (fun w addr => (ram w.1).read addr)
          (fun w width addr v => h.write w.1 running width addr v) w).1,
        ram (q.run (fun w addr => (ram w.1).read addr)
          (fun w width addr v => h.write w.1 running width addr v) w).2.1) := by
  induction q generalizing w with
  | done a => rfl
  | read addr next ih => exact ih _ w
  | write width addr v next ih =>
      rw [BusProgram.run, ← ih, hf.write]
      rfl

theorem Placed.perform_eq {h : Helpers σ} {ram : σ → Memory} (hf : h.Faithful ram)
    (p : Placed) (running : UInt32) (c : Cpu) (w : σ) :
    (ram w).run (p.effect c) =
      ((p.perform h ram running c w).1, ram (p.perform h ram running c w).2.1) :=
  hf.run running (p.effect c) (w, false)

theorem Placed.perform_cases (p : Placed) (h : Helpers σ) (ram : σ → Memory) (running : UInt32)
    (c : Cpu) (w : σ) :
    (p.instruction.stores = false ∧ (p.perform h ram running c w).2 = (w, false)) ∨
      (p.instruction.stores = true ∧ ∃ width addr v,
        (p.perform h ram running c w).2 = h.write w running width addr v) := by
  obtain ⟨i, next⟩ := p
  cases i with
  | store _ _ _ | push _ | call _ => exact Or.inr ⟨rfl, _, _, _, rfl⟩
  | _ => exact Or.inl ⟨rfl, rfl⟩

def Instruction.storesEip : Instruction → Bool
  | .ret | .jumpReg _ => true
  | _ => false

theorem Width.truncate_truncate (width : Width) (v : UInt32) :
    width.truncate (width.truncate v) = width.truncate v := by
  cases width with
  | byte | word =>
      show (v &&& _) &&& _ = v &&& _
      rw [UInt32.and_assoc, UInt32.and_self]
  | long => rfl

/-! ## Where an instruction leaves the guest -/

namespace Placed

variable {p : Placed}

/-- An instruction that goes on goes on behind itself. -/
theorem eip_effect_of_exit?_none (h : p.exit? = none) (m : Memory) (c : Cpu) :
    (m.run (p.effect c)).1.eip = p.next := by
  obtain ⟨i, next⟩ := p
  cases i with
  | alu op dst src =>
      show (if op.keepsResult then _ else _ : Cpu).eip = next
      split
      · rfl
      · rfl
  | jump _ | jumpIf _ _ | call _ | ret | jumpReg _ | interrupt _ => cases h
  | _ => rfl

theorem vector?_of_exit?_none (h : p.exit? = none) : p.instruction.vector? = none := by
  obtain ⟨i, next⟩ := p
  cases i <;> first | rfl | cases h

theorem eip_effect_of_stores (h : p.instruction.stores = true) (m : Memory) (c : Cpu) :
    (m.run (p.effect c)).1.eip = p.resume ∧ p.instruction.vector? = none := by
  obtain ⟨i, next⟩ := p
  cases i with
  | store _ _ _ | push _ | call _ => exact ⟨rfl, rfl⟩
  | _ => cases h

end Placed

def contextAfter (c : Context) (i : Instruction) (cpu : Cpu) : Context :=
  { c with
    cpu := cpu.goto (if i.storesEip then cpu.eip else c.cpu.eip)
    callback := i.vector?.elim c.callback UInt8.toUInt32 }

namespace HostState

/-- What the body of an instruction at an address leaves; `hit` tells that its
write met the running block. -/
structure Carries (h : Helpers σ) (ram : σ → Memory) (p : Placed) (eip : UInt32)
    (s : HostState σ) (hit : Bool) (t : HostState σ) : Prop where
  world : (p.perform h ram s.context.running (s.context.cpu.goto eip) s.world).2 = (t.world, hit)
  context : t.context = contextAfter s.context p.instruction
    (p.perform h ram s.context.running (s.context.cpu.goto eip) s.world).1

section Body

variable {h : Helpers σ} {ram : σ → Memory} {s : HostState σ} {p : Placed} {eip : UInt32} {c : Cpu}

/-- A body that leaves memory alone. -/
theorem carries_of_still {t : HostState σ} (hw : t.world = s.world)
    (he : p.perform h ram s.context.running (s.context.cpu.goto eip) s.world = (c, s.world, false))
    (hc : t.context = contextAfter s.context p.instruction c) : s.Carries h ram p eip false t :=
  ⟨by rw [he, hw], by rw [hc, he]⟩

variable (hf : h.Faithful ram)

include hf

/-- A body that ends with a write. -/
theorem carries_of_write {u : HostState σ} {width : Width} {value : UInt32}
    (hw : u.world = s.world) (hc : u.context = contextAfter s.context p.instruction c)
    (hv : width.truncate u.roles.temp = width.truncate value)
    (he : p.perform h ram s.context.running (s.context.cpu.goto eip) s.world =
      (c, h.write s.world s.context.running width u.roles.addr value))
    (label : Nat) (rest : List Operation) :
    ∃ hit t, u.run h none (writeMemory width label ++ rest) =
      t.run h (if hit then some label else none) rest ∧ s.Carries h ram p eip hit t := by
  obtain ⟨t, hrun, hct, hwt⟩ := u.run_writeMemory h rest width label
  have hrunning : u.context.running = s.context.running := by
    rw [hc]
    rfl
  have hwrite : h.write u.world u.context.running width u.roles.addr u.roles.temp =
      h.write s.world s.context.running width u.roles.addr value := by
    rw [hw, hrunning, ← hf.truncate _ _ _ _ u.roles.temp, hv, hf.truncate]
  rw [hwrite] at hrun hwt
  exact ⟨_, t, hrun, by rw [he, hwt], by rw [hct, hc, he]⟩

/-- A store, once the operation is known that loads what it stores. -/
theorem run_store {a : Address} {width : Width} {src : Stored} {next : UInt32} {load : Operation}
    (hstep : ∀ (t : HostState σ) more,
      t.run h none (load :: more) = (t.step h load).run h none more)
    (hframe : ∀ t : HostState σ, (t.step h load).context = t.context ∧
      (t.step h load).world = t.world ∧ (t.step h load).roles.addr = t.roles.addr)
    (hload : ∀ t : HostState σ, t.context = s.context →
      width.truncate (t.step h load).roles.temp = width.truncate (src.value s.context.cpu))
    (label : Nat) (rest : List Operation) :
    ∃ hit t, s.run h none ((effectiveAddress a ++ [load] ++ writeMemory width label) ++ rest) =
      t.run h (if hit then some label else none) rest ∧
      s.Carries h ram ⟨.store a width src, next⟩ eip hit t := by
  obtain ⟨t, hrun, hc, hw, ha⟩ :=
    s.run_effectiveAddress h ([load] ++ (writeMemory width label ++ rest)) a
  obtain ⟨hc', hw', ha'⟩ := hframe t
  obtain ⟨hit, v, hwrite, hcarries⟩ := carries_of_write hf (p := ⟨.store a width src, next⟩)
    (c := (s.context.cpu.goto eip).goto next) (hw'.trans hw) (hc'.trans hc)
    (hload t hc) (by rw [ha', ha]; rfl) label rest
  refine ⟨hit, v, ?_, hcarries⟩
  rw [List.append_assoc, List.append_assoc, hrun]
  exact (hstep t _).trans hwrite

/-- A push, once the word to push has been loaded. -/
theorem run_push {u : HostState σ} (hw : u.world = s.world) (hc : u.context = s.context)
    (he : p.perform h ram s.context.running (s.context.cpu.goto eip) s.world =
      (c, h.write s.world s.context.running .long (s.context.cpu.reg .esp - 4) u.roles.temp))
    (hcpu : contextAfter s.context p.instruction c = { s.context with
      cpu := s.context.cpu.setReg .esp (s.context.cpu.reg .esp - 4) })
    (label : Nat) (rest : List Operation) :
    ∃ hit t, u.run h none ((lowerStack ++ writeMemory .long label) ++ rest) =
      t.run h (if hit then some label else none) rest ∧ s.Carries h ram p eip hit t := by
  obtain ⟨t, hrun, hct, hwt, ha, ht⟩ := u.run_lowerStack h (writeMemory .long label ++ rest)
  rw [List.append_assoc, hrun]
  refine carries_of_write hf (p := p) (c := c) (hwt.trans hw) ?_ (by rw [ht]) ?_ label rest
  · rw [hct, hc, hcpu]
  · rw [ha, hc]
    exact he

/-- The word on top of the stack is left in `ret`. -/
theorem run_top (rest : List Operation) :
    ∃ t : HostState σ,
      s.run h none (loadContext .addr (Field.reg .esp) .long :: readMemory ++ rest) =
        t.run h none rest ∧
      t.context = s.context ∧ t.world = s.world ∧
      t.roles.ret = (ram s.world).readWidth .long (s.context.cpu.reg .esp) := by
  obtain ⟨t, hrun, hc, hw, hr⟩ :=
    (s.step h (loadContext .addr (Field.reg .esp) .long)).run_readMemory h rest
  refine ⟨t, hrun, hc, hw, hr.trans ((hf.read _ _).trans ?_)⟩
  exact congrArg ((ram s.world).readWidth .long) (s.context.load_reg_long .esp)

omit hf in
/-- An operation on two words up to its flags. -/
theorem run_operand (op : AluOp) (dst : Reg) (src : Operand) (rest : List Operation) :
    ∃ t : HostState σ,
      s.run h none (loadContext .ret (Field.reg dst) .long ::
        (match src with
          | .reg r => [loadContext .op1 (Field.reg r) .long, alu op .ret .op1]
          | .imm v => [aluImm op .ret v]) ++ rest) = t.run h none rest ∧
      t.context = s.context ∧ t.world = s.world ∧
      t.flags = op.flags (s.context.cpu.reg dst) (src.value s.context.cpu) ∧
      (op.keepsResult = true →
        t.roles.ret = op.result (s.context.cpu.reg dst) (src.value s.context.cpu)) := by
  cases src with
  | reg r =>
      refine ⟨_, rfl, rfl, rfl, ?_, fun hk => ?_⟩
      · show op.flags (s.context.load (Field.reg dst) .long)
          (s.context.load (Field.reg r) .long) = _
        rw [Context.load_reg_long, Context.load_reg_long]
        rfl
      · show (if op.keepsResult then _ else _ : Roles).ret = _
        rw [if_pos hk]
        show op.result (s.context.load (Field.reg dst) .long)
          (s.context.load (Field.reg r) .long) = _
        rw [Context.load_reg_long, Context.load_reg_long]
        rfl
  | imm v =>
      refine ⟨_, rfl, rfl, rfl, ?_, fun hk => ?_⟩
      · show op.flags (s.context.load (Field.reg dst) .long) v = _
        rw [Context.load_reg_long]
        rfl
      · show (if op.keepsResult then _ else _ : Roles).ret = _
        rw [if_pos hk]
        show op.result (s.context.load (Field.reg dst) .long) v = _
        rw [Context.load_reg_long]
        rfl

theorem run_load {next : UInt32} (dst : Reg) (a : Address) (rest : List Operation) :
    ∃ t, s.run h none
        ((effectiveAddress a ++ readMemory ++ [storeContext .ret (Field.reg dst) .long]) ++ rest) =
      t.run h none rest ∧ s.Carries h ram ⟨.load dst a, next⟩ eip false t := by
  obtain ⟨t, hrun, hc, hw, ha⟩ := s.run_effectiveAddress h
    (readMemory ++ ([storeContext .ret (Field.reg dst) .long] ++ rest)) a
  obtain ⟨u, hrun', hc', hw', hr⟩ := t.run_readMemory h
    ([storeContext .ret (Field.reg dst) .long] ++ rest)
  refine ⟨u.step h (storeContext .ret (Field.reg dst) .long), ?_,
    carries_of_still (hw'.trans hw) rfl ?_⟩
  · show s.run h none ((effectiveAddress a ++ readMemory ++ [_]) ++ rest) = _
    rw [List.append_assoc, List.append_assoc, hrun, hrun']
    rfl
  · show u.context.store (Field.reg dst) .long u.roles.ret = _
    rw [hr, hf.read, hw, ha, hc', hc, Context.store_reg]
    rfl

omit hf in
theorem run_alu {next : UInt32} (op : AluOp) (dst : Reg) (src : Operand) (label : Nat)
    (rest : List Operation) :
    ∃ t, s.run h none (Placed.body ⟨.alu op dst src, next⟩ label ++ rest) =
      t.run h none rest ∧ s.Carries h ram ⟨.alu op dst src, next⟩ eip false t := by
  obtain ⟨t, hrun, hc, hw, hflags, hr⟩ := run_operand (h := h) (s := s) op dst src
    (saveFlags Field.eflags ::
      ((if op.keepsResult then [storeContext .ret (Field.reg dst) .long] else []) ++ rest))
  have hsave : t.context.store Field.eflags .long
      (t.flags.into (t.context.load Field.eflags .long)) = { s.context with
        cpu := s.context.cpu.setFlags
          (op.flags (s.context.cpu.reg dst) (src.value s.context.cpu)) } := by
    rw [Context.load_eflags, Context.store_eflags, hflags, hc]
    rfl
  have hbody : s.run h none (Placed.body ⟨.alu op dst src, next⟩ label ++ rest) =
      t.run h none (saveFlags Field.eflags ::
        ((if op.keepsResult then [storeContext .ret (Field.reg dst) .long] else []) ++ rest)) := by
    refine Eq.trans ?_ hrun
    exact congrArg (s.run h none) (List.append_assoc ..)
  let cpu := (s.context.cpu.goto next).setFlags
    (op.flags (s.context.cpu.reg dst) (src.value s.context.cpu))
  have heffect : Placed.perform ⟨.alu op dst src, next⟩ h ram s.context.running
      (s.context.cpu.goto eip) s.world =
      (if op.keepsResult then cpu.setReg dst
        (op.result (s.context.cpu.reg dst) (src.value s.context.cpu)) else cpu,
      s.world, false) := rfl
  cases hk : op.keepsResult with
  | true =>
      rw [hk] at hbody heffect
      refine ⟨(t.step h (saveFlags Field.eflags)).step h
        (storeContext .ret (Field.reg dst) .long), hbody.trans rfl,
        carries_of_still hw heffect ?_⟩
      show (t.context.store Field.eflags .long
        (t.flags.into (t.context.load Field.eflags .long))).store (Field.reg dst) .long
          t.roles.ret = _
      rw [hsave, Context.store_reg, hr hk]
      rfl
  | false =>
      rw [hk] at hbody heffect
      exact ⟨t.step h (saveFlags Field.eflags), hbody.trans rfl,
        carries_of_still hw heffect hsave⟩

theorem run_pop {next : UInt32} (dst : Reg) (rest : List Operation) :
    ∃ t, s.run h none (((loadContext .addr (Field.reg .esp) .long :: readMemory ++
        raiseStack) ++ [storeContext .ret (Field.reg dst) .long]) ++ rest) =
      t.run h none rest ∧ s.Carries h ram ⟨.pop dst, next⟩ eip false t := by
  obtain ⟨t, hrun, hc, hw, hr⟩ := run_top (s := s) hf
    (raiseStack ++ ([storeContext .ret (Field.reg dst) .long] ++ rest))
  obtain ⟨u, hrun', hc', hw', hr'⟩ := t.run_raiseStack h
    ([storeContext .ret (Field.reg dst) .long] ++ rest)
  refine ⟨u.step h (storeContext .ret (Field.reg dst) .long), ?_,
    carries_of_still (hw'.trans hw) rfl ?_⟩
  · show s.run h none (((_ :: readMemory ++ raiseStack) ++ [_]) ++ rest) = _
    rw [List.append_assoc, List.append_assoc, hrun, hrun']
    rfl
  · show u.context.store (Field.reg dst) .long u.roles.ret = _
    rw [Context.store_reg, hr', hr, hc', hc]
    rfl

theorem run_ret {next : UInt32} (rest : List Operation) :
    ∃ t, s.run h none ((loadContext .addr (Field.reg .esp) .long :: readMemory ++
        storeContext .ret Field.eip .long :: raiseStack) ++ rest) =
      t.run h none rest ∧ s.Carries h ram ⟨.ret, next⟩ eip false t := by
  obtain ⟨t, hrun, hc, hw, hr⟩ := run_top (s := s) hf
    (storeContext .ret Field.eip .long :: (raiseStack ++ rest))
  obtain ⟨u, hrun', hc', hw', _⟩ :=
    (t.step h (storeContext .ret Field.eip .long)).run_raiseStack h rest
  refine ⟨u, ?_, carries_of_still (hw'.trans hw) rfl ?_⟩
  · show s.run h none ((_ :: readMemory ++ _ :: raiseStack) ++ rest) = _
    rw [List.append_assoc]
    exact hrun.trans hrun'
  · have hstored : (t.step h (storeContext .ret Field.eip .long)).context =
        { s.context with cpu := (s.context.cpu.goto
          ((ram s.world).readWidth .long (s.context.cpu.reg .esp))) } := by
      show t.context.store Field.eip .long t.roles.ret = _
      rw [Context.store_eip, hr, hc]
    rw [hc', hstored]
    rfl

/-- **The body of an instruction has the effect of the instruction,** and goes
on at its label if the helper says that its write met the running block. -/
theorem run_body (s : HostState σ) (p : Placed) (eip : UInt32) (label : Nat)
    (rest : List Operation) :
    ∃ hit t, s.run h none (p.body label ++ rest) =
      t.run h (if hit then some label else none) rest ∧ s.Carries h ram p eip hit t := by
  obtain ⟨instruction, next⟩ := p
  cases instruction with
  | nop | jump target => exact ⟨false, _, rfl, carries_of_still rfl rfl rfl⟩
  | jumpIf cond target =>
      refine ⟨false, s, rfl, carries_of_still rfl rfl ?_⟩
      unfold contextAfter
      split
      · rfl
      · rfl
  | moveImm dst imm =>
      refine ⟨false, _, rfl, carries_of_still rfl rfl ?_⟩
      exact s.context.store_reg dst imm
  | move dst src =>
      refine ⟨false, _, rfl, carries_of_still rfl rfl ?_⟩
      show s.context.store (Field.reg dst) .long (s.context.load (Field.reg src) .long) = _
      rw [Context.load_reg_long, Context.store_reg]
      rfl
  | load dst a => exact ⟨false, run_load hf dst a rest⟩
  | store a width src =>
      cases src with
      | reg r =>
          refine run_store hf (fun _ _ => rfl) (fun _ => ⟨rfl, rfl, rfl⟩) (fun t hc => ?_) label
            rest
          show width.truncate (t.context.load (Field.reg r) width) = _
          rw [Context.load_reg, hc, Width.truncate_truncate]
          rfl
      | highByte r =>
          refine run_store hf (fun _ _ => rfl) (fun _ => ⟨rfl, rfl, rfl⟩) (fun t hc => ?_) label
            rest
          show width.truncate (t.context.load (Field.byteReg r true) width) = _
          rw [Context.load_byteReg, hc, Width.truncate_truncate]
          rfl
      | imm v =>
          exact run_store hf (fun _ _ => rfl) (fun _ => ⟨rfl, rfl, rfl⟩) (fun _ _ => rfl) label rest
  | alu op dst src => exact ⟨false, run_alu op dst src label rest⟩
  | unary op r =>
      refine ⟨false, _, rfl, carries_of_still rfl rfl ?_⟩
      show (s.context.store Field.eflags .long ((op.flags
        (.ofWord (s.context.load Field.eflags .long)) (s.context.load (Field.reg r) .long)).into
          (s.context.load Field.eflags .long))).store (Field.reg r) .long
            (op.result (s.context.load (Field.reg r) .long)) = _
      rw [Context.load_reg_long, Context.load_eflags, Context.store_eflags, Context.store_reg]
      rfl
  | lea dst a =>
      obtain ⟨t, hrun, hc, hw, ha⟩ := s.run_effectiveAddress h
        ([storeContext .addr (Field.reg dst) .long] ++ rest) a
      refine ⟨false, t.step h (storeContext .addr (Field.reg dst) .long), ?_,
        carries_of_still hw rfl ?_⟩
      · show s.run h none ((effectiveAddress a ++ [_]) ++ rest) = _
        rw [List.append_assoc, hrun]
        rfl
      · show t.context.store (Field.reg dst) .long t.roles.addr = _
        rw [ha, hc, Context.store_reg]
        rfl
  | push src =>
      refine run_push hf (s := s) (p := ⟨.push src, next⟩)
        (u := s.step h (loadContext .temp (Field.reg src) .long)) rfl rfl
        (c := (s.context.cpu.goto next).setReg .esp (s.context.cpu.reg .esp - 4)) ?_ rfl label rest
      show _ = (_, h.write _ _ .long _ (s.context.load (Field.reg src) .long))
      rw [Context.load_reg_long]
      rfl
  | pop dst => exact ⟨false, run_pop hf dst rest⟩
  | call target =>
      refine run_push hf (s := s) (p := ⟨.call target, next⟩)
        (u := s.step h (moveImm .temp next)) rfl rfl
        (c := (s.context.cpu.goto target).setReg .esp (s.context.cpu.reg .esp - 4)) ?_ rfl label
        rest
      rfl
  | ret => exact ⟨false, run_ret hf rest⟩
  | jumpReg src =>
      refine ⟨false, _, rfl, carries_of_still rfl rfl ?_⟩
      show s.context.store Field.eip .long (s.context.load (Field.reg src) .long) = _
      rw [Context.load_reg_long, Context.store_eip]
      rfl
  | interrupt vector =>
      refine ⟨false, _, rfl, carries_of_still rfl rfl ?_⟩
      exact s.context.store_callback _

end Body

end HostState

end Recompiler
