import Recompiler.Proofs.Compile.Body
import Recompiler.Proofs.Compile.Size

/-!
# Ways out of a block

A block is left through an exit slot or with a return code; either charges for
the instructions run.  The labels of a block are all different, and each is
placed once: the stub that a branch leads to is the one meant.
-/

namespace Recompiler

open Operation

/-! ## Charging -/

def Context.charge (c : Context) (count : Nat) : Context :=
  { c with cycles := (c.cycles.toUInt32 - count.toUInt32).toInt32 }

theorem not_exhausted_iff {cycles : Int32} : ¬cycles ≤ 0 ↔ 0 < cycles.toInt := by
  rw [Int32.le_iff_toInt_le, Int.not_le]
  rfl

/-- What a page holds can be charged for without leaving the range of the
budget. -/
theorem Context.toInt_charge {c : Context} {count : Nat} (hc : 0 < c.cycles.toInt)
    (hn : count ≤ pageSize) : (c.charge count).cycles.toInt = c.cycles.toInt - count := by
  have hlt := c.cycles.toInt_lt
  have hcount : (Int32.ofNat count).toInt = count := Int32.toInt_ofNat_of_lt (by
    simp only [pageSize] at hn
    omega)
  show (c.cycles - Int32.ofNat count).toInt = _
  rw [Int32.toInt_sub, hcount]
  simp only [pageSize] at hn
  exact Int.bmod_eq_of_le (by omega) (by omega)

namespace HostState

variable {σ : Type} (h : Helpers σ) (s : HostState σ) (rest : List Operation)

theorem run_spend (count : Nat) :
    ∃ t : HostState σ, s.run h none (spend count ++ rest) = t.run h none rest ∧
      t.context = s.context.charge count ∧ t.world = s.world := by
  unfold spend
  split
  · next hc =>
      refine ⟨s, rfl, ?_, rfl⟩
      rw [hc, Context.charge]
      show s.context = { s.context with cycles := (s.context.cycles.toUInt32 - 0).toInt32 }
      rw [UInt32.sub_zero]
      rfl
  · refine ⟨_, rfl, ?_, rfl⟩
    show s.context.store Field.cycles .long (s.context.load Field.cycles .long - _) = _
    rw [Context.load_cycles, Context.store_cycles]
    rfl

theorem run_leaveThrough (id : BlockId) (slot : Slot) (target : UInt32) (count : Nat) :
    ∃ t : HostState σ, s.run h none (leaveThrough id slot target count ++ rest) =
        .jumped (.exitSlot id slot) t ∧
      t.context = { s.context with cpu := s.context.cpu.goto target }.charge count ∧
      t.world = s.world := by
  obtain ⟨t, hrun, hc, hw⟩ := (s.step h (storeContextImm Field.eip target)).run_spend h
    (jumpThrough (.exitSlot id slot) :: rest) count
  refine ⟨t, ?_, ?_, hw⟩
  · show (s.step h (storeContextImm Field.eip target)).run h none
      ((spend count ++ [jumpThrough (.exitSlot id slot)]) ++ rest) = _
    rw [List.append_assoc]
    exact hrun
  · rw [hc]
    exact congrArg (Context.charge · count) (s.context.store_eip target)

theorem run_leaveWith (eip : Option UInt32) (count : Nat) (code : ReturnCode) :
    ∃ t : HostState σ, s.run h none (leaveWith eip count code ++ rest) = .returned code.word t ∧
      t.context =
        { s.context with cpu := s.context.cpu.goto (eip.getD s.context.cpu.eip) }.charge count ∧
      t.world = s.world := by
  have hleave : ∀ u : HostState σ, ∃ t : HostState σ,
      u.run h none (spend count ++ (leave code :: rest)) = .returned code.word t ∧
        t.context = u.context.charge count ∧ t.world = u.world := by
    intro u
    obtain ⟨t, hrun, hc, hw⟩ := u.run_spend h (leave code :: rest) count
    exact ⟨_, hrun, hc, hw⟩
  unfold leaveWith
  rw [List.append_assoc, List.append_assoc]
  cases eip with
  | none => exact hleave s
  | some eip =>
      obtain ⟨t, hrun, hc, hw⟩ := hleave (s.step h (storeContextImm Field.eip eip))
      refine ⟨t, hrun, ?_, hw⟩
      rw [hc]
      exact congrArg (Context.charge · count) (s.context.store_eip eip)

end HostState

/-! ## Labels -/

theorem place_not_mem_effectiveAddress (a : Address) (l : Nat) : place l ∉ effectiveAddress a := by
  obtain ⟨base, index, disp⟩ := a
  rw [effectiveAddress, List.mem_append, not_or]
  constructor
  · cases base with
    | none => simp
    | some r => by_cases hd : disp = 0 <;> simp [hd]
  · cases index <;> simp

theorem place_not_mem_body (p : Placed) (label l : Nat) : place l ∉ p.body label := by
  have haddr := fun a => place_not_mem_effectiveAddress a l
  obtain ⟨i, next⟩ := p
  cases i with
  | store a width src => cases src <;> simp [Placed.body, writeMemory, haddr a]
  | load dst a | lea dst a => simp [Placed.body, readMemory, haddr a]
  | alu op dst src => cases src <;> by_cases hk : op.keepsResult <;> simp [Placed.body, hk]
  | _ => simp [Placed.body, readMemory, writeMemory, lowerStack, raiseStack]

theorem place_not_mem_bodies (label : Nat) (ps : List Placed) (l : Nat) :
    place l ∉ bodies label ps := by
  induction ps generalizing label with
  | nil => exact List.not_mem_nil
  | cons p rest ih =>
      rw [bodies, List.mem_append, not_or]
      exact ⟨place_not_mem_body p label l, ih _⟩

theorem place_not_mem_leaveThrough (id : BlockId) (slot : Slot) (target : UInt32) (count l : Nat) :
    place l ∉ leaveThrough id slot target count := by
  by_cases hc : count = 0 <;> simp [leaveThrough, spend, hc]

theorem place_not_mem_leaveWith (eip : Option UInt32) (count : Nat) (code : ReturnCode) (l : Nat) :
    place l ∉ leaveWith eip count code := by
  cases eip <;> by_cases hc : count = 0 <;> simp [leaveWith, spend, hc]

theorem place_not_mem_exit (e : Exit) (id : BlockId) (count : Nat) {label l : Nat}
    (hl : l ≠ label) : place l ∉ e.operations id count label := by
  have hthrough := fun slot target => place_not_mem_leaveThrough id slot target count l
  cases e with
  | branch cond taken notTaken =>
      simp [Exit.operations, hthrough .first notTaken, hthrough .second taken, hl]
  | limit target | jump target => exact hthrough .first target
  | computed | interpret _ | callback _ => exact place_not_mem_leaveWith _ _ _ _

@[simp] theorem writeCount_append (xs ys : List Placed) :
    writeCount (xs ++ ys) = writeCount xs + writeCount ys := by
  rw [writeCount, writeCount, writeCount, List.filter_append, List.length_append]

theorem add_writeCount_concat (label : Nat) (done : List Placed) (p : Placed) :
    label + writeCount (done ++ [p]) =
      if p.instruction.stores then label + writeCount done + 1 else label + writeCount done := by
  rw [writeCount_append, writeCount_cons]
  split
  · rfl
  · rfl

/-- **A write that met the running block goes on at its own stub.** -/
theorem HostState.run_writeStubs {σ : Type} (h : Helpers σ) (s : HostState σ) {p : Placed}
    (hp : p.instruction.stores = true) (done rest : List Placed) (label count : Nat) :
    ∃ more, s.run h (some (label + writeCount done)) (writeStubs label count (done ++ p :: rest)) =
      s.run h none (leaveWith (some p.resume) (count + done.length + 1) .selfModified ++ more) := by
  induction done generalizing label count with
  | nil =>
      refine ⟨writeStubs (label + 1) (count + 1) rest, ?_⟩
      rw [List.nil_append, writeStubs, if_pos hp]
      exact s.run_sought_place h _ label
  | cons q done ih =>
      rw [List.cons_append, writeStubs, writeCount_cons, List.length_cons]
      split
      · obtain ⟨more, hrun⟩ := ih (label + 1) (count + 1)
        refine ⟨more, ?_⟩
        rw [show label + (1 + writeCount done) = label + 1 + writeCount done by omega,
          show count + (done.length + 1) = count + 1 + done.length by omega, ← hrun]
        refine s.run_sought_append h _ ?_
        rw [List.mem_cons, not_or]
        refine ⟨fun he => ?_, place_not_mem_leaveWith _ _ _ _⟩
        have := Operation.place.inj he
        omega
      · obtain ⟨more, hrun⟩ := ih label (count + 1)
        refine ⟨more, ?_⟩
        rw [Nat.zero_add, show count + (done.length + 1) = count + 1 + done.length by omega]
        exact hrun

/-! ## Exits -/

namespace Exit

/-- The address an exit stores when the flags are these; none if it has been
stored. -/
def goal? (f : Flags) : Exit → Option UInt32
  | limit target | jump target => some target
  | branch cond taken notTaken => some (if cond.holds f then taken else notTaken)
  | computed => none
  | interpret eip => some eip
  | callback next => some next

/-- How a block is left through an exit when the flags are these. -/
def outcome {σ : Type} (id : BlockId) (f : Flags) (t : HostState σ) : Exit → Outcome σ
  | limit _ | jump _ => .jumped (.exitSlot id .first) t
  | branch cond _ _ => .jumped (.exitSlot id (if cond.holds f then .second else .first)) t
  | computed => .returned ReturnCode.normal.word t
  | interpret _ => .returned ReturnCode.opcode.word t
  | callback _ => .returned ReturnCode.callback.word t

end Exit

/-- An instruction that ends a block leaves the guest where the exit has it. -/
theorem Placed.eip_effect_of_exit? {p : Placed} {e : Exit} (he : p.exit? = some e) (m : Memory)
    (c : Cpu) (eip : UInt32) :
    (e.goal? (m.run (p.effect c)).1.flags).getD
        (if p.instruction.storesEip then (m.run (p.effect c)).1.eip else eip) =
      (m.run (p.effect c)).1.eip := by
  obtain ⟨i, next⟩ := p
  cases i with
  | jumpIf cond target =>
      cases he
      have hflags : (m.run (Placed.effect ⟨.jumpIf cond target, next⟩ c)).1.flags = c.flags := by
        show (if cond.holds c.flags then _ else _ : Cpu).flags = _
        split
        · rfl
        · rfl
      rw [hflags]
      show (if cond.holds c.flags then target else next) =
        (if cond.holds c.flags then c.goto target else c.goto next).eip
      split
      · rfl
      · rfl
  | jump _ | call _ | ret | jumpReg _ | interrupt _ =>
      cases he
      rfl
  | _ => cases he

namespace HostState

variable {σ : Type} (h : Helpers σ) (s : HostState σ)

/-- **An exit stores where the guest goes on,** charges for the instructions run
and leaves. -/
theorem run_exit (e : Exit) (id : BlockId) (count label : Nat) (rest : List Operation) :
    ∃ t : HostState σ, s.run h none (e.operations id count label ++ rest) =
        e.outcome id s.context.cpu.flags t ∧
      t.context = { s.context with
        cpu := s.context.cpu.goto
          ((e.goal? s.context.cpu.flags).getD s.context.cpu.eip) }.charge count ∧
      t.world = s.world := by
  cases e with
  | limit target | jump target => exact s.run_leaveThrough h rest id .first target count
  | computed => exact s.run_leaveWith h rest none count .normal
  | interpret eip => exact s.run_leaveWith h rest (some eip) count .opcode
  | callback next => exact s.run_leaveWith h rest (some next) count .callback
  | branch cond taken notTaken =>
      let u := s.step h (loadFlags Field.eflags)
      have hflags : u.flags = s.context.cpu.flags := congrArg Flags.ofWord s.context.load_eflags
      have hbranch : s.run h none ((Exit.branch cond taken notTaken).operations id count label ++
          rest) = u.run h (if cond.holds s.context.cpu.flags then some label else none)
            (leaveThrough id .first notTaken count ++ (place label ::
              (leaveThrough id .second taken count ++ rest))) := by
        rw [← hflags]
        show u.run h _ ((leaveThrough id .first notTaken count ++ place label ::
          leaveThrough id .second taken count) ++ rest) = _
        rw [List.append_assoc]
        rfl
      rw [hbranch]
      simp only [Exit.goal?, Exit.outcome]
      cases cond.holds s.context.cpu.flags with
      | true =>
          rw [if_pos rfl, u.run_sought_append h _ (place_not_mem_leaveThrough _ _ _ _ _),
            u.run_sought_place]
          exact u.run_leaveThrough h rest id .second taken count
      | false =>
          rw [if_neg Bool.false_ne_true]
          exact u.run_leaveThrough h _ id .first notTaken count

end HostState

/-! ## Into and out of the bodies -/

def Sequence.tail (seq : Sequence) (id : BlockId) : List Operation :=
  seq.exit.operations id seq.instructions.length (cycleLabel + 1 + writeCount seq.instructions) ++
    ([.place cycleLabel, .leave .cycles] ++ writeStubs (cycleLabel + 1) 0 seq.instructions)

theorem Sequence.operations_eq (seq : Sequence) (id : BlockId) : seq.operations id =
    prologue id ++ (bodies (cycleLabel + 1) seq.instructions ++ seq.tail id) := by
  simp only [operations, tail, List.append_assoc]

namespace HostState

variable {σ : Type} (h : Helpers σ) (s : HostState σ)

theorem run_tail (seq : Sequence) (id : BlockId) :
    ∃ t : HostState σ, s.run h none (seq.tail id) = seq.exit.outcome id s.context.cpu.flags t ∧
      t.context = { s.context with
        cpu := s.context.cpu.goto
          ((seq.exit.goal? s.context.cpu.flags).getD s.context.cpu.eip) }.charge
            seq.instructions.length ∧
      t.world = s.world :=
  s.run_exit h _ _ _ _ _

theorem run_stub {seq : Sequence} {id : BlockId} {p : Placed} (hp : p.instruction.stores = true)
    {done rest : List Placed} (hseq : seq.instructions = done ++ p :: rest) (label : Nat) :
    ∃ t : HostState σ,
      s.run h (some (cycleLabel + 1 + writeCount done)) (bodies label rest ++ seq.tail id) =
        .returned ReturnCode.selfModified.word t ∧
      t.context =
        { s.context with cpu := s.context.cpu.goto p.resume }.charge (done.length + 1) ∧
      t.world = s.world := by
  have hcount : writeCount done < writeCount seq.instructions := by
    rw [hseq, writeCount_append, writeCount_cons, if_pos hp]
    omega
  obtain ⟨more, hstub⟩ := s.run_writeStubs h hp done rest (cycleLabel + 1) 0
  obtain ⟨t, hrun, hc, hw⟩ :=
    s.run_leaveWith h more (some p.resume) (0 + done.length + 1) .selfModified
  refine ⟨t, ?_, by rw [hc, Nat.zero_add]; rfl, hw⟩
  rw [s.run_sought_append h _ (place_not_mem_bodies _ _ _), Sequence.tail,
    s.run_sought_append h _ (place_not_mem_exit _ _ _ ?_),
    s.run_sought_append h _ ?_, hseq, hstub, hrun]
  · simp [cycleLabel]
  · omega

def started (id : BlockId) : HostState σ :=
  (s.step h (storeContextImm Field.running id.word)).step h
    (loadContext .ret Field.cycles .long)

theorem context_started (id : BlockId) :
    (s.started h id).context = { s.context with running := id.word } :=
  s.context.store_running id.word

theorem takes_started (id : BlockId) :
    (s.started h id).takes (.lessOrEqualZero .ret) = decide (s.context.cycles ≤ 0) := by
  show decide (((s.started h id).context.load Field.cycles .long).toInt32 ≤ 0) = _
  rw [Context.load_cycles, context_started]
  rfl

theorem run_started (seq : Sequence) (id : BlockId) :
    s.run h none (seq.operations id) =
      (s.started h id).run h (if s.context.cycles ≤ 0 then some cycleLabel else none)
        (bodies (cycleLabel + 1) seq.instructions ++ seq.tail id) := by
  rw [seq.operations_eq]
  show (s.started h id).run h
    (if (s.started h id).takes (.lessOrEqualZero .ret) then some cycleLabel else none)
      (bodies (cycleLabel + 1) seq.instructions ++ seq.tail id) = _
  rw [takes_started]
  simp only [decide_eq_true_eq]

theorem run_prologue (seq : Sequence) (id : BlockId) :
    ∃ t : HostState σ, s.run h none (seq.operations id) =
        t.run h (if s.context.cycles ≤ 0 then some cycleLabel else none)
          (bodies (cycleLabel + 1) seq.instructions ++ seq.tail id) ∧
      t.context = { s.context with running := id.word } ∧ t.world = s.world :=
  ⟨s.started h id, s.run_started h seq id, s.context_started h id, rfl⟩

theorem run_of_exhausted {s : HostState σ} (hcycles : s.context.cycles ≤ 0) (seq : Sequence)
    (id : BlockId) :
    ∃ t : HostState σ, s.run h none (seq.operations id) = .returned ReturnCode.cycles.word t ∧
      t.context = { s.context with running := id.word } ∧ t.world = s.world := by
  obtain ⟨t, hrun, hc, hw⟩ := s.run_prologue h seq id
  refine ⟨t.setRole .ret ReturnCode.cycles.word, ?_, hc, hw⟩
  rw [hrun, if_pos hcycles, t.run_sought_append h _ (place_not_mem_bodies _ _ _), Sequence.tail,
    t.run_sought_append h _ (place_not_mem_exit _ _ _ ?_)]
  · exact t.run_sought_place h _ cycleLabel
  · simp only [cycleLabel]
    omega

end HostState

end Recompiler
