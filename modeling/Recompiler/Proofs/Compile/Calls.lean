import Recompiler.Proofs.Compile.Charge
import Recompiler.Proofs.Host.Run

/-!
# The calls of a block

Compiled code reaches guest memory through helpers only.  What a block calls, and
in which state, is told here beside what it does: an instruction that does not
store makes reads at most, and one that stores ends with its write, whose answer
decides where the block goes on.  Behind its bodies a block calls nothing.
-/

namespace Recompiler

open Operation

/-- A call of a helper, with the state it finds. -/
structure HelperCall (σ : Type) where
  state : HostState σ
  helper : Helper

namespace HostState

variable {σ : Type}

def address (s : HostState σ) : UInt32 := getElem s.params 1 Part.address_lt

def value (s : HostState σ) : UInt32 := getElem s.params 2 Part.value_lt

/-- Whether a write meets the running block. -/
def hits (h : Helpers σ) (s : HostState σ) (width : Width) : Bool :=
  (h.write s.world s.context.running width s.address s.value).2

def heard (s : HostState σ) : Operation → List (HelperCall σ)
  | .call (.helper f) => [⟨s, f⟩]
  | _ => []

/-- The calls that operations make, in order. -/
def calls (h : Helpers σ) (sought : Option Nat) (s : HostState σ) :
    List Operation → List (HelperCall σ)
  | [] => []
  | op :: rest =>
      match sought with
      | some label => s.calls h (if op = .place label then none else some label) rest
      | none =>
          match op with
          | .leave _ | .jumpThrough _ => []
          | .branch cond label => s.calls h (if s.takes cond then some label else none) rest
          | .enter | .literal _ | .call (.absolute _) | .call (.exitSlot _ _) => []
          | op => s.heard op ++ (s.step h op).calls h none rest

variable (h : Helpers σ) (s : HostState σ)

theorem calls_sought_append {label : Nat} {xs : List Operation} (ys : List Operation)
    (hx : place label ∉ xs) :
    s.calls h (some label) (xs ++ ys) = s.calls h (some label) ys := by
  induction xs with
  | nil => rfl
  | cons op rest ih =>
      rw [List.mem_cons, not_or] at hx
      show s.calls h (if op = .place label then none else some label) (rest ++ ys) = _
      rw [if_neg (Ne.symm hx.1)]
      exact ih hx.2

theorem takes_call_write (width : Width) :
    (s.call h (.write width)).takes (.nonZero .ret) = s.hits h width := by
  show ((if s.hits h width then (1 : UInt32) else 0) != 0) = _
  cases s.hits h width <;> rfl

end HostState

/-! ## Operations that call nothing -/

/-- Whether an operation calls no helper. -/
def Operation.silent : Operation → Bool
  | .call (.helper _) => false
  | _ => true

theorem HostState.calls_of_silent {σ : Type} (h : Helpers σ) (s : HostState σ)
    (sought : Option Nat) {ops : List Operation} (hs : ops.all silent = true) :
    s.calls h sought ops = [] := by
  induction ops generalizing s sought with
  | nil => rfl
  | cons op rest ih =>
      rw [List.all_cons, Bool.and_eq_true] at hs
      obtain ⟨hop, hrest⟩ := hs
      cases sought with
      | some label => exact ih s _ hrest
      | none =>
          cases op with
          | leave _ | jumpThrough _ | enter | literal _ => rfl
          | branch cond label => exact ih s _ hrest
          | call target =>
              cases target with
              | helper f => cases hop
              | absolute _ | exitSlot _ _ => rfl
          | _ => exact ih _ none hrest

theorem silent_leaveThrough (id : BlockId) (slot : Slot) (target : UInt32) (count : Nat) :
    (leaveThrough id slot target count).all silent = true := by
  by_cases hc : count = 0 <;> simp [leaveThrough, spend, hc, silent]

theorem silent_leaveWith (eip : Option UInt32) (count : Nat) (code : ReturnCode) :
    (leaveWith eip count code).all silent = true := by
  cases eip <;> by_cases hc : count = 0 <;> simp [leaveWith, spend, hc, silent]

theorem silent_exit (e : Exit) (id : BlockId) (count label : Nat) :
    (e.operations id count label).all silent = true := by
  cases e with
  | limit target | jump target => exact silent_leaveThrough id .first target count
  | computed | interpret _ | callback _ => exact silent_leaveWith _ count _
  | branch cond taken notTaken =>
      have hfirst := silent_leaveThrough id .first notTaken count
      have hsecond := silent_leaveThrough id .second taken count
      simp [Exit.operations, hfirst, hsecond, silent]

theorem silent_writeStubs (label count : Nat) (ps : List Placed) :
    (writeStubs label count ps).all silent = true := by
  induction ps generalizing label count with
  | nil => rfl
  | cons p rest ih =>
      rw [writeStubs]
      split
      · simp [silent_leaveWith, ih, silent]
      · exact ih label (count + 1)

theorem Sequence.silent_tail (seq : Sequence) (id : BlockId) :
    (seq.tail id).all silent = true := by
  rw [tail, List.all_append, List.all_append, silent_exit, silent_writeStubs]
  rfl

/-! ## Operations between writes -/

/-- Whether an offset is in another word of the context than the cycle budget and
the block entered last. -/
def Field.isApart (offset : UInt32) : Bool :=
  Field.isAside offset && offset.toNat / 4 ≠ Field.running.toNat / 4

@[simp] theorem Field.isApart_reg (r : Reg) : Field.isApart (Field.reg r) = true := by
  cases r <;> rfl

@[simp] theorem Field.isApart_eip : Field.isApart Field.eip = true := rfl

@[simp] theorem Field.isApart_eflags : Field.isApart Field.eflags = true := rfl

@[simp] theorem Field.isApart_callback : Field.isApart Field.callback = true := rfl

theorem Context.running_store (c : Context) {offset : UInt32} (h : Field.isApart offset = true)
    (width : Width) (v : UInt32) : (c.store offset width v).running = c.running := by
  have hne : offset.toNat / 4 ≠ 11 := of_decide_eq_true (Bool.and_eq_true .. |>.mp h).2
  unfold store setWord
  simp only
  repeat' split
  all_goals rfl

/-- Whether an operation goes on to the next and changes neither memory nor the
cycle budget nor which block is running. -/
def Operation.quiet : Operation → Bool
  | .storeContext _ offset _ | .storeContextImm offset _ | .subContextImm offset _
  | .saveFlags offset => Field.isApart offset
  | .move _ _ | .moveImm _ _ | .loadContext _ _ _ | .alu _ _ _ | .aluImm _ _ _ | .unary _ _
  | .shlImm _ _ | .loadFlags _ | .paramRole _ _ | .paramImm _ _ | .paramPointer _ _
  | .place _ | .call (.helper .read32) => true
  | .leave _ | .jumpThrough _ | .branch _ _ | .enter | .literal _ | .call _ => false

theorem Operation.quiet_call {target : HostAddress} (h : (call target).quiet = true) :
    target = .helper .read32 := by
  cases target with
  | helper f =>
      cases f with
      | read32 => rfl
      | write width => cases h
  | absolute _ | exitSlot _ _ => cases h

namespace HostState

variable {σ : Type}

/-- States with the same world, cycle budget and running block. -/
structure Near (s t : HostState σ) : Prop where
  world : t.world = s.world
  running : t.context.running = s.context.running
  cycles : t.context.cycles = s.context.cycles

namespace Near

variable {s t u : HostState σ}

theorem refl (s : HostState σ) : s.Near s := ⟨rfl, rfl, rfl⟩

theorem trans (h : s.Near t) (h' : t.Near u) : s.Near u :=
  ⟨h'.world.trans h.world, h'.running.trans h.running, h'.cycles.trans h.cycles⟩

end Near

variable (h : Helpers σ)

theorem near_step (s : HostState σ) {op : Operation} (hop : op.quiet = true) :
    s.Near (s.step h op) := by
  cases op with
  | storeContext _ offset _ | storeContextImm offset _ | subContextImm offset _
  | saveFlags offset =>
      have haside : Field.isAside offset = true := (Bool.and_eq_true .. |>.mp hop).1
      exact ⟨rfl, s.context.running_store hop _ _, s.context.cycles_store haside _ _⟩
  | call target =>
      rw [quiet_call hop]
      exact ⟨rfl, rfl, rfl⟩
  | leave _ | jumpThrough _ | branch _ _ | enter | literal _ => cases hop
  | _ => exact ⟨rfl, rfl, rfl⟩

theorem run_cons_of_quiet (s : HostState σ) {op : Operation} (hop : op.quiet = true)
    (rest : List Operation) :
    s.run h none (op :: rest) = (s.step h op).run h none rest ∧
      s.calls h none (op :: rest) = s.heard op ++ (s.step h op).calls h none rest := by
  cases op with
  | call target =>
      rw [quiet_call hop]
      exact ⟨rfl, rfl⟩
  | leave _ | jumpThrough _ | branch _ _ | enter | literal _ => cases hop
  | _ => exact ⟨rfl, rfl⟩

/-- A quiet operation calls nothing but a read. -/
theorem helper_of_heard {s : HostState σ} {op : Operation} (hop : op.quiet = true)
    {c : HelperCall σ} (hc : c ∈ s.heard op) : c.state = s ∧ c.helper = .read32 := by
  cases op with
  | call target =>
      rw [quiet_call hop] at hc
      rw [List.mem_singleton.mp hc]
      exact ⟨rfl, rfl⟩
  | _ => exact absurd hc List.not_mem_nil

/-- **Quiet operations lead to what follows them,** reading at most. -/
theorem run_quiet {ops : List Operation} (hq : ops.all quiet = true) (s : HostState σ)
    (rest : List Operation) :
    ∃ t reads, s.run h none (ops ++ rest) = t.run h none rest ∧
      s.calls h none (ops ++ rest) = reads ++ t.calls h none rest ∧ s.Near t ∧
      ∀ c ∈ reads, s.Near c.state ∧ c.helper = .read32 := by
  induction ops generalizing s with
  | nil => exact ⟨s, [], rfl, rfl, .refl s, fun c hc => absurd hc List.not_mem_nil⟩
  | cons op ops ih =>
      rw [List.all_cons, Bool.and_eq_true] at hq
      obtain ⟨hop, hops⟩ := hq
      obtain ⟨hrun, hcalls⟩ := s.run_cons_of_quiet h hop (ops ++ rest)
      obtain ⟨t, reads, hrun', hcalls', hnear, hreads⟩ := ih hops (s.step h op)
      have hstep := s.near_step h hop
      refine ⟨t, s.heard op ++ reads, hrun.trans hrun', ?_, hstep.trans hnear, ?_⟩
      · rw [List.append_assoc, ← hcalls']
        exact hcalls
      · intro c hc
        rcases List.mem_append.mp hc with hc | hc
        · obtain ⟨hstate, hread⟩ := helper_of_heard hop hc
          exact ⟨hstate ▸ .refl s, hread⟩
        · obtain ⟨hafter, hread⟩ := hreads c hc
          exact ⟨hstep.trans hafter, hread⟩

end HostState

/-! ## Bodies -/

theorem quiet_effectiveAddress (a : Address) : (effectiveAddress a).all quiet = true := by
  obtain ⟨base, index, disp⟩ := a
  rw [effectiveAddress, List.all_append, Bool.and_eq_true]
  constructor
  · cases base with
    | none => rfl
    | some r => by_cases hd : disp = 0 <;> simp [hd, quiet]
  · cases index <;> rfl

theorem quiet_body {p : Placed} (hp : p.instruction.stores = false) (label : Nat) :
    (p.body label).all quiet = true := by
  have haddr := quiet_effectiveAddress
  obtain ⟨i, next⟩ := p
  cases i with
  | store _ _ _ | push _ | call _ => cases hp
  | alu op dst src => cases src <;> by_cases hk : op.keepsResult <;> simp [Placed.body, hk, quiet]
  | _ => simp [Placed.body, readMemory, raiseStack, haddr, quiet]

/-- An instruction that stores ends with its write, and branches if that met the
running block. -/
theorem body_of_stores {p : Placed} (hp : p.instruction.stores = true) (label : Nat) :
    ∃ before width, before.all quiet = true ∧ p.body label =
      before ++ [.call (.helper (.write width)), .branch (.nonZero .ret) label] := by
  have hwrite (ops : List Operation) (width : Width) (hops : ops.all quiet = true) :
      ∃ before width', before.all quiet = true ∧ ops ++ writeMemory width label =
        before ++ [.call (.helper (.write width')), .branch (.nonZero .ret) label] := by
    refine ⟨ops ++ [paramRole 2 .temp, paramRole 1 .addr, paramPointer 0 Field.owner], width,
      ?_, ?_⟩
    · rw [List.all_append, hops]
      rfl
    · rw [List.append_assoc]
      rfl
  obtain ⟨i, next⟩ := p
  cases i with
  | store a width src =>
      apply hwrite _ width
      rw [List.all_append, quiet_effectiveAddress]
      cases src <;> rfl
  | push src => exact hwrite (loadContext .temp (Field.reg src) .long :: lowerStack) .long (by
      simp [lowerStack, quiet])
  | call target => exact hwrite (moveImm .temp next :: lowerStack) .long rfl
  | _ => cases hp

namespace HostState

variable {σ : Type} (h : Helpers σ) (s : HostState σ)

/-- **A write is the last that the body of an instruction calls.** -/
theorem calls_body_of_stores {p : Placed} (hp : p.instruction.stores = true) (label : Nat)
    (rest : List Operation) :
    ∃ u width reads,
      s.run h none (p.body label ++ rest) = (u.call h (.write width)).run h
        (if u.hits h width then some label else none) rest ∧
      s.calls h none (p.body label ++ rest) = reads ++ ⟨u, .write width⟩ ::
        (u.call h (.write width)).calls h (if u.hits h width then some label else none) rest ∧
      s.Near u ∧ ∀ c ∈ reads, s.Near c.state ∧ c.helper = .read32 := by
  obtain ⟨before, width, hquiet, hbody⟩ := body_of_stores hp label
  obtain ⟨u, reads, hrun, hcalls, hnear, hreads⟩ := s.run_quiet h hquiet
    (.call (.helper (.write width)) :: .branch (.nonZero .ret) label :: rest)
  have hops : p.body label ++ rest = before ++
      (.call (.helper (.write width)) :: .branch (.nonZero .ret) label :: rest) := by
    rw [hbody, List.append_assoc]
    rfl
  rw [hops]
  refine ⟨u, width, reads, ?_, ?_, hnear, hreads⟩
  · rw [hrun, ← u.takes_call_write h width]
    rfl
  · rw [hcalls, ← u.takes_call_write h width]
    rfl

theorem calls_started (seq : Sequence) (id : BlockId) :
    s.calls h none (seq.operations id) =
      (s.started h id).calls h (if s.context.cycles ≤ 0 then some cycleLabel else none)
        (bodies (cycleLabel + 1) seq.instructions ++ seq.tail id) := by
  rw [seq.operations_eq]
  show (s.started h id).calls h
    (if (s.started h id).takes (.lessOrEqualZero .ret) then some cycleLabel else none)
      (bodies (cycleLabel + 1) seq.instructions ++ seq.tail id) = _
  rw [takes_started]
  simp only [decide_eq_true_eq]

/-- While a stub is looked for nothing is called. -/
theorem calls_sought_tail (label label' : Nat) (ps : List Placed) (seq : Sequence)
    (id : BlockId) :
    s.calls h (some label) (bodies label' ps ++ seq.tail id) = [] := by
  rw [s.calls_sought_append h _ (place_not_mem_bodies _ _ _)]
  exact s.calls_of_silent h _ (seq.silent_tail id)

end HostState

end Recompiler
