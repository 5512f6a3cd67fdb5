import Recompiler.Proofs.Compile.Follows
import Recompiler.Proofs.Compile.Leave

/-!
# What a block charges for

A block looks at the cycle budget when it is entered, and takes something off it
once at most, right before it is left.  What it takes off is bounded by the number
of instructions a block can have; a block that leaves an instruction to the
interpreter stays below that bound, so there is room for that instruction too.
-/

namespace Recompiler

open Operation

/-! ## Charges -/

/-- What an operation does to the cycle budget. -/
structure Charge where
  before : Int32
  amount : Nat
  after : Int32

/-- The budget lost what was charged, and did not wrap. -/
def Charge.Exact (c : Charge) : Prop := c.after.toInt = c.before.toInt - c.amount

namespace Charge

def total (cs : List Charge) : Nat := (cs.map amount).sum

/-- Exact charges that take the budget from one value to another: each finds what
the one before it left. -/
def Ledger : Int32 → List Charge → Int32 → Prop
  | start, [], finish => finish = start
  | start, c :: cs, finish => c.before = start ∧ c.Exact ∧ Ledger c.after cs finish

variable {start middle finish : Int32} {cs ds : List Charge}

theorem Ledger.append (h : Ledger start cs middle) (h' : Ledger middle ds finish) :
    Ledger start (cs ++ ds) finish := by
  induction cs generalizing start with
  | nil =>
      cases h
      exact h'
  | cons c cs ih => exact ⟨h.1, h.2.1, ih h.2.2⟩

/-- **The budget lost exactly what was charged,** if every charge was exact. -/
theorem Ledger.toInt (h : Ledger start cs finish) : finish.toInt = start.toInt - total cs := by
  induction cs generalizing start with
  | nil =>
      cases h
      exact (Int.sub_zero _).symm
  | cons c cs ih =>
      obtain ⟨rfl, hexact, hrest⟩ := h
      have htotal : total (c :: cs) = c.amount + total cs := List.sum_cons
      rw [ih hrest, hexact, htotal]
      omega

end Charge

/-- What an operation is meant to take off the cycle budget. -/
def Operation.price : Operation → Nat
  | .subContextImm offset imm => if offset = Field.cycles then imm.toNat else 0
  | _ => 0

/-- Whether an offset is in another word of the context than the cycle budget. -/
def Field.isAside (offset : UInt32) : Bool := offset.toNat / 4 ≠ Field.cycles.toNat / 4

@[simp] theorem Field.isAside_reg (r : Reg) : Field.isAside (Field.reg r) = true := by
  cases r <;> rfl

@[simp] theorem Field.isAside_eip : Field.isAside Field.eip = true := rfl

@[simp] theorem Field.isAside_eflags : Field.isAside Field.eflags = true := rfl

@[simp] theorem Field.isAside_running : Field.isAside Field.running = true := rfl

@[simp] theorem Field.isAside_callback : Field.isAside Field.callback = true := rfl

def Operation.spares : Operation → Bool
  | .storeContext _ offset _ | .storeContextImm offset _ | .subContextImm offset _
  | .saveFlags offset => Field.isAside offset
  | _ => true

theorem Context.cycles_store (c : Context) {offset : UInt32} (h : Field.isAside offset = true)
    (width : Width) (v : UInt32) : (c.store offset width v).cycles = c.cycles := by
  have hne : offset.toNat / 4 ≠ 10 := of_decide_eq_true h
  unfold store setWord
  simp only
  repeat' split
  all_goals rfl

theorem Operation.price_of_spares {op : Operation} (h : op.spares = true) : op.price = 0 := by
  cases op with
  | subContextImm offset imm =>
      refine if_neg ?_
      rintro rfl
      cases h
  | _ => rfl

namespace HostState

variable {σ : Type} (h : Helpers σ)

/-- What each operation does to the cycle budget, as they are carried out in
order. -/
def charges (sought : Option Nat) (s : HostState σ) : List Operation → List Charge
  | [] => []
  | op :: rest =>
      match sought with
      | some label => s.charges (if op = .place label then none else some label) rest
      | none =>
          match op with
          | .leave _ | .jumpThrough _ => []
          | .branch cond label => s.charges (if s.takes cond then some label else none) rest
          | .enter | .literal _ | .call (.absolute _) | .call (.exitSlot _ _) => []
          | op => ⟨s.context.cycles, op.price, (s.step h op).context.cycles⟩ ::
              (s.step h op).charges none rest

theorem cycles_step (s : HostState σ) {op : Operation} (hop : op.spares = true) :
    (s.step h op).context.cycles = s.context.cycles := by
  cases op with
  | storeContext src offset width | storeContextImm offset imm | subContextImm offset imm
  | saveFlags offset => exact s.context.cycles_store hop _ _
  | call target =>
      cases target with
      | helper f => cases f <;> rfl
      | absolute _ | exitSlot _ _ => rfl
  | alu _ _ _ | aluImm _ _ _ | unary _ _ => rfl
  | _ => rfl

end HostState

/-! ## Charging for instructions -/

theorem Operation.price_spend {n : Nat} (hn : n ≤ pageSize) :
    (Operation.subContextImm Field.cycles n.toUInt32).price = n := by
  have hlt : n < UInt32.size := by
    simp only [pageSize] at hn
    simp only [UInt32.size]
    omega
  show (if Field.cycles = Field.cycles then n.toUInt32.toNat else 0) = n
  rw [if_pos rfl, Nat.toUInt32, UInt32.toNat_ofNat']
  exact Nat.mod_eq_of_lt hlt

theorem Charge.total_spend {n : Nat} (hn : n ≤ pageSize) {before after : Int32} :
    total [⟨before, (Operation.subContextImm Field.cycles n.toUInt32).price, after⟩] = n := by
  rw [price_spend hn]
  exact Nat.add_zero n

namespace HostState

variable {σ : Type} (h : Helpers σ) (s : HostState σ)

/-- What a page holds can be charged for. -/
theorem toInt_spend {n : Nat} (hc : 0 < s.context.cycles.toInt) (hn : n ≤ pageSize) :
    (s.step h (.subContextImm Field.cycles n.toUInt32)).context.cycles.toInt =
      s.context.cycles.toInt - n := by
  have hstep : (s.step h (.subContextImm Field.cycles n.toUInt32)).context =
      s.context.charge n := by
    show s.context.store Field.cycles .long (s.context.load Field.cycles .long - _) = _
    rw [Context.load_cycles, Context.store_cycles]
    rfl
  rw [hstep]
  exact Context.toInt_charge hc hn

theorem exact_spend {n : Nat} (hc : 0 < s.context.cycles.toInt) (hn : n ≤ pageSize) :
    Charge.Exact ⟨s.context.cycles, (Operation.subContextImm Field.cycles n.toUInt32).price,
      (s.step h (.subContextImm Field.cycles n.toUInt32)).context.cycles⟩ := by
  rw [price_spend hn]
  exact s.toInt_spend h hc hn

theorem exact_of_spares {op : Operation} (hop : op.spares = true) :
    Charge.Exact ⟨s.context.cycles, op.price, (s.step h op).context.cycles⟩ := by
  rw [s.cycles_step h hop, price_of_spares hop]
  exact (Int.sub_zero _).symm

end HostState

/-! ## Operations that charge once -/

/-- Operations that take something off the budget only right before they leave,
and no more than a bound; before an instruction of the interpreter's, less. -/
inductive Frugal (bound : Nat) : List Operation → Prop
  | nil : Frugal bound []
  | spares {op : Operation} {rest : List Operation} (h : op.spares = true)
      (hrest : Frugal bound rest) : Frugal bound (op :: rest)
  | leaves {n : Nat} {code : ReturnCode} {rest : List Operation} (hn : n ≤ bound)
      (hcode : code = .opcode → n < bound) (hrest : Frugal bound rest) :
      Frugal bound (.subContextImm Field.cycles n.toUInt32 :: .leave code :: rest)
  | jumps {n : Nat} {slot : HostAddress} {rest : List Operation} (hn : n ≤ bound)
      (hrest : Frugal bound rest) :
      Frugal bound (.subContextImm Field.cycles n.toUInt32 :: .jumpThrough slot :: rest)

/-- How a run of operations is left: its charges are exact, and come to no more
than a bound; before an instruction of the interpreter's, to less. -/
def Outcome.Costs {σ : Type} (bound : Nat) (start : Int32) (cs : List Charge) : Outcome σ → Prop
  | .returned code t => Charge.Ledger start cs t.context.cycles ∧ Charge.total cs ≤ bound ∧
      (code = ReturnCode.opcode.word → Charge.total cs < bound)
  | .jumped _ t => Charge.Ledger start cs t.context.cycles ∧ Charge.total cs ≤ bound
  | .lost => True

theorem Outcome.Costs.cons {σ : Type} {bound : Nat} {c : Charge} {cs : List Charge}
    {o : Outcome σ} (hc : c.Exact) (hfree : c.amount = 0) (h : o.Costs bound c.after cs) :
    o.Costs bound c.before (c :: cs) := by
  have htotal : Charge.total (c :: cs) = Charge.total cs := by
    rw [Charge.total, List.map_cons, List.sum_cons, hfree, Nat.zero_add]
    rfl
  cases o with
  | returned code t =>
      obtain ⟨hledger, hle, hlt⟩ := h
      exact ⟨⟨rfl, hc, hledger⟩, by rwa [htotal], by rwa [htotal]⟩
  | jumped source t =>
      obtain ⟨hledger, hle⟩ := h
      exact ⟨⟨rfl, hc, hledger⟩, by rwa [htotal]⟩
  | lost => trivial

/-- A page of instructions at most, and one at least. -/
structure Bounded (bound : Nat) : Prop where
  pos : 0 < bound
  le : bound ≤ pageSize

/-- An operation that costs nothing, before operations that charge exactly. -/
theorem HostState.costs_of_spares {σ : Type} (h : Helpers σ) (s : HostState σ) {bound : Nat}
    (hb : Bounded bound) {op : Operation} {rest : List Operation} (hop : op.spares = true)
    (hc : 0 < s.context.cycles.toInt)
    (hrest : ∀ {t : HostState σ}, 0 < t.context.cycles.toInt → ∀ sought,
      (t.run h sought rest).Costs bound t.context.cycles (t.charges h sought rest)) :
    (s.run h none (op :: rest)).Costs bound s.context.cycles (s.charges h none (op :: rest)) := by
  have hgo : ((s.step h op).run h none rest).Costs bound s.context.cycles
      (⟨s.context.cycles, op.price, (s.step h op).context.cycles⟩ ::
        (s.step h op).charges h none rest) := by
    have hsame := s.cycles_step h hop
    exact .cons (c := ⟨_, _, _⟩) (s.exact_of_spares h hop) (price_of_spares hop)
      (hrest (by rw [hsame]; exact hc) none)
  cases op with
  | leave code => exact ⟨rfl, Nat.zero_le _, fun _ => hb.pos⟩
  | jumpThrough slot => exact ⟨rfl, Nat.zero_le _⟩
  | branch cond label => exact hrest hc (if s.takes cond then some label else none)
  | enter | literal _ => trivial
  | call target =>
      cases target with
      | helper f => exact hgo
      | absolute _ | exitSlot _ _ => trivial
  | _ => exact hgo

namespace Frugal

variable {bound : Nat} {xs ys : List Operation}

theorem append_of_spares (hx : xs.all Operation.spares = true) (hy : Frugal bound ys) :
    Frugal bound (xs ++ ys) := by
  induction xs with
  | nil => exact hy
  | cons op rest ih =>
      rw [List.all_cons, Bool.and_eq_true] at hx
      exact .spares hx.1 (ih hx.2)

/-- **What is frugal charges exactly,** whatever branch is taken. -/
theorem costs {σ : Type} (h : Helpers σ) (hf : Frugal bound xs) (hb : Bounded bound)
    {s : HostState σ} (hc : 0 < s.context.cycles.toInt) (sought : Option Nat) :
    (s.run h sought xs).Costs bound s.context.cycles (s.charges h sought xs) := by
  induction hf generalizing s sought with
  | nil => trivial
  | @spares op rest hop _ ih =>
      cases sought with
      | some label => exact ih hc _
      | none => exact s.costs_of_spares h hb hop hc ih
  | @leaves n code rest hn hcode _ ih =>
      cases sought with
      | some label => exact ih hc (some label)
      | none =>
          have hsize := Nat.le_trans hn hb.le
          have htotal : Charge.total (s.charges h none
              (subContextImm Field.cycles n.toUInt32 :: leave code :: rest)) = n :=
            Charge.total_spend hsize
          refine ⟨⟨rfl, s.exact_spend h hc hsize, rfl⟩, by rwa [htotal], fun hword => ?_⟩
          rw [htotal]
          exact hcode (ReturnCode.word_inj hword)
  | @jumps n slot rest hn _ ih =>
      cases sought with
      | some label => exact ih hc (some label)
      | none =>
          have hsize := Nat.le_trans hn hb.le
          have htotal : Charge.total (s.charges h none
              (subContextImm Field.cycles n.toUInt32 :: jumpThrough slot :: rest)) = n :=
            Charge.total_spend hsize
          exact ⟨⟨rfl, s.exact_spend h hc hsize, rfl⟩, by rwa [htotal]⟩

end Frugal

/-! ## Blocks -/

theorem spares_effectiveAddress (a : Address) :
    (effectiveAddress a).all Operation.spares = true := by
  obtain ⟨base, index, disp⟩ := a
  rw [effectiveAddress, List.all_append, Bool.and_eq_true]
  constructor
  · cases base with
    | none => rfl
    | some r => by_cases hd : disp = 0 <;> simp [hd, Operation.spares]
  · cases index <;> rfl

/-- From one instruction to the next the budget is what it was. -/
theorem spares_body (p : Placed) (label : Nat) : (p.body label).all Operation.spares = true := by
  have haddr := spares_effectiveAddress
  obtain ⟨i, next⟩ := p
  cases i with
  | store a width src => cases src <;> simp [Placed.body, writeMemory, haddr, Operation.spares]
  | alu op dst src =>
      cases src <;> by_cases hk : op.keepsResult <;> simp [Placed.body, hk, Operation.spares]
  | _ =>
      simp [Placed.body, readMemory, writeMemory, lowerStack, raiseStack, haddr, Operation.spares]

theorem spares_bodies (label : Nat) (ps : List Placed) :
    (bodies label ps).all Operation.spares = true := by
  induction ps generalizing label with
  | nil => rfl
  | cons p rest ih =>
      rw [bodies, List.all_append, spares_body, ih]
      rfl

namespace Frugal

variable {bound count : Nat} {rest : List Operation} (hrest : Frugal bound rest)

include hrest

theorem leaveThrough (id : BlockId) (slot : Slot) (target : UInt32) (hcount : count ≤ bound) :
    Frugal bound (Operation.leaveThrough id slot target count ++ rest) := by
  unfold Operation.leaveThrough spend
  apply Frugal.spares rfl
  split
  · exact .spares rfl hrest
  · exact .jumps hcount hrest

theorem leaveWith (eip : Option UInt32) {code : ReturnCode} (hcount : count ≤ bound)
    (hcode : code = .opcode → count < bound) :
    Frugal bound (Operation.leaveWith eip count code ++ rest) := by
  have hleave : Frugal bound (spend count ++ [leave code] ++ rest) := by
    unfold spend
    split
    · exact .spares rfl hrest
    · exact .leaves hcount hcode hrest
  unfold Operation.leaveWith
  rw [List.append_assoc, List.append_assoc] at *
  apply append_of_spares _ hleave
  cases eip <;> rfl

theorem exit {e : Exit} (id : BlockId) (label : Nat) (hcount : count ≤ bound)
    (hinterpret : ∀ eip, e = .interpret eip → count < bound) :
    Frugal bound (e.operations id count label ++ rest) := by
  cases e with
  | limit target | jump target => exact hrest.leaveThrough id .first target hcount
  | computed => exact hrest.leaveWith none hcount nofun
  | interpret eip => exact hrest.leaveWith (some eip) hcount fun _ => hinterpret eip rfl
  | callback next => exact hrest.leaveWith (some next) hcount nofun
  | branch cond taken notTaken =>
      have hsecond := (hrest.leaveThrough id .second taken hcount).spares
        (show (place label).spares = true from rfl)
      have hfirst := hsecond.leaveThrough id .first notTaken hcount
      show Frugal bound (loadFlags _ :: .branch _ label ::
        (Operation.leaveThrough id .first notTaken count ++
          (place label :: Operation.leaveThrough id .second taken count)) ++ rest)
      rw [List.cons_append, List.cons_append, List.append_assoc, List.cons_append]
      exact .spares rfl (.spares rfl hfirst)

theorem writeStubs (label : Nat) (ps : List Placed) (hcount : count + ps.length ≤ bound) :
    Frugal bound (Recompiler.writeStubs label count ps ++ rest) := by
  induction ps generalizing label count with
  | nil => exact hrest
  | cons p ps ih =>
      have hlength : count + 1 + ps.length ≤ bound := by
        rw [List.length_cons] at hcount
        omega
      unfold Recompiler.writeStubs
      split
      · rw [List.cons_append, List.cons_append, List.append_assoc]
        apply Frugal.spares rfl
        apply (ih (label + 1) hlength).leaveWith _ (by omega)
        intro hcode
        cases hcode
      · exact ih label hlength

end Frugal

/-! ## How many instructions a block has -/

/-- No more instructions than a bound; an instruction of the interpreter's behind
them stays within it. -/
structure Sequence.AtMost (s : Sequence) (bound : Nat) : Prop where
  length : s.instructions.length ≤ bound
  interpret : ∀ eip, s.exit = .interpret eip → s.instructions.length < bound

/-- **A block charges once, and for its own instructions at most.** -/
theorem Sequence.AtMost.frugal {s : Sequence} {bound : Nat} (h : s.AtMost bound) (id : BlockId) :
    Frugal bound (s.operations id) := by
  have hstubs : Frugal bound (writeStubs (cycleLabel + 1) 0 s.instructions) := by
    have hlength : 0 + s.instructions.length ≤ bound := by
      rw [Nat.zero_add]
      exact h.length
    have hstubs := Frugal.nil.writeStubs (cycleLabel + 1) s.instructions hlength
    rwa [List.append_nil] at hstubs
  have htail : Frugal bound (s.tail id) :=
    Frugal.exit (.spares rfl (.spares rfl hstubs)) id _ h.length h.interpret
  rw [s.operations_eq]
  exact .append_of_spares rfl (.append_of_spares (spares_bodies _ _) htail)

namespace HostState

variable {σ : Type} (h : Helpers σ) (s : HostState σ)

theorem charges_sought_append {label : Nat} {xs : List Operation} (ys : List Operation)
    (hx : place label ∉ xs) :
    s.charges h (some label) (xs ++ ys) = s.charges h (some label) ys := by
  induction xs with
  | nil => rfl
  | cons op rest ih =>
      rw [List.mem_cons, not_or] at hx
      show s.charges h (if op = .place label then none else some label) (rest ++ ys) = _
      rw [if_neg (Ne.symm hx.1)]
      exact ih hx.2

theorem ledger_of_exhausted {s : HostState σ} (hc : s.context.cycles ≤ 0) (seq : Sequence)
    (id : BlockId) :
    Charge.Ledger s.context.cycles (s.charges h none (seq.operations id)) s.context.cycles := by
  let t := s.step h (storeContextImm Field.running id.word)
  let u := t.step h (loadContext .ret Field.cycles .long)
  have htakes : u.takes (.lessOrEqualZero .ret) = true := by
    show decide ((t.context.load Field.cycles .long).toInt32 ≤ 0) = true
    rw [Context.load_cycles]
    exact decide_eq_true hc
  have hrest : u.charges h (some cycleLabel)
      (bodies (cycleLabel + 1) seq.instructions ++ seq.tail id) = [] := by
    rw [u.charges_sought_append h _ (place_not_mem_bodies _ _ _), Sequence.tail,
      u.charges_sought_append h _ (place_not_mem_exit _ _ _ ?_)]
    · rfl
    · simp only [cycleLabel]
      omega
  rw [seq.operations_eq]
  show Charge.Ledger s.context.cycles (⟨s.context.cycles, 0, t.context.cycles⟩ ::
    ⟨t.context.cycles, 0, u.context.cycles⟩ ::
      u.charges h (if u.takes (.lessOrEqualZero .ret) then some cycleLabel else none)
        (bodies (cycleLabel + 1) seq.instructions ++ seq.tail id)) _
  rw [htakes, if_pos rfl, hrest]
  have hstore : (storeContextImm Field.running id.word).spares = true := rfl
  have hload : (loadContext .ret Field.cycles .long).spares = true := rfl
  exact ⟨rfl, s.exact_of_spares h hstore, rfl, t.exact_of_spares h hload, rfl⟩

end HostState

theorem Placed.exit?_ne_interpret (p : Placed) (eip : UInt32) :
    p.exit? ≠ some (.interpret eip) := by
  obtain ⟨i, next⟩ := p
  cases i <;> nofun

/-- What instructions are taken from is used up: the limit, and the page. -/
theorem atMost_takeInstructions (page : Vector UInt8 pageSize) (limits : Limits)
    (fuel offset : Nat) (eip : UInt32) (count written stubs : Nat) :
    (takeInstructions page limits fuel offset eip count written stubs).AtMost
      (min (limits.instructions - count) (pageSize - offset)) := by
  induction fuel generalizing offset eip count written stubs with
  | zero => exact ⟨Nat.zero_le _, nofun⟩
  | succ fuel ih =>
      by_cases hlt : offset < pageSize
      · have hpos := limits.decoder.length_window_pos page ⟨offset, hlt⟩ eip
        rw [takeInstructions_succ _ _ _ hlt]
        simp only
        split
        · exact ⟨Nat.zero_le _, nofun⟩
        · next hroom =>
            rw [not_or] at hroom
            have hone : 0 < min (limits.instructions - count) (pageSize - offset) := by omega
            split
            · exact ⟨Nat.zero_le _, fun _ _ => hone⟩
            · split
              · next hexit =>
                  refine ⟨hone, ?_⟩
                  rintro at_ rfl
                  exact absurd hexit (Placed.exit?_ne_interpret _ at_)
              · have hless : ∀ n, n ≤ min (limits.instructions - (count + 1)) (pageSize -
                    (offset + (limits.decoder.decode (window page ⟨offset, hlt⟩) eip).length)) →
                    n + 1 ≤ min (limits.instructions - count) (pageSize - offset) := by
                  intro n hn
                  omega
                constructor
                · exact hless _ (ih _ _ _ _ _).length
                · intro at_ he
                  exact hless _ ((ih _ _ _ _ _).interpret at_ he)
      · rw [takeInstructions, dif_neg hlt]
        exact ⟨Nat.zero_le _, nofun⟩

/-- The most that is charged for a block, and an instruction of the
interpreter's behind it. -/
def Limits.dearest (l : Limits) : Nat := min l.instructions pageSize

theorem Limits.Sufficient.bounded {l : Limits} (h : l.Sufficient) : Bounded l.dearest :=
  ⟨Nat.lt_min.mpr ⟨h.instructions, by decide⟩, Nat.min_le_right ..⟩

theorem Sequence.atMost_at (page : Vector UInt8 pageSize) (limits : Limits) (eip : UInt32) :
    (Sequence.at page limits eip).AtMost limits.dearest := by
  obtain ⟨hlength, hinterpret⟩ := atMost_takeInstructions page limits pageSize (offsetOf eip).val
    eip 0 (codeLength (prologue (.trampoline .first))) 1
  have hle : min (limits.instructions - 0) (pageSize - (offsetOf eip).val) ≤ limits.dearest := by
    unfold Limits.dearest
    omega
  exact ⟨Nat.le_trans hlength hle, fun at_ he => Nat.lt_of_lt_of_le (hinterpret at_ he) hle⟩

end Recompiler
