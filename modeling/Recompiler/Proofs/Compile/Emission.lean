import Recompiler.Arena.Basic
import Recompiler.Proofs.Compile.Size

/-!
# Where code is written

Operations are written from the cursor on, and only behind it are branches
filled in.  So writing a block changes nothing outside the stretch it takes up,
and what it leaves there depends on the operations and the place alone, not on
what was there before.
-/

namespace Recompiler

namespace Pen

/-- Everything still to be filled in lies between `start` and the cursor. -/
structure Within (start : Nat) (p : Pen) : Prop where
  cursor : start ≤ p.cursor
  labels : ∀ x ∈ p.labels, start ≤ x.2 ∧ x.2 + 4 ≤ p.cursor

theorem within_start {start : Nat} {p : Pen} (hc : p.cursor = start) (hl : p.labels = []) :
    Within start p :=
  ⟨Nat.le_of_eq hc.symm, fun x hx => by rw [hl] at hx; cases hx⟩

/-- What is done about labels once the code of an operation is written. -/
def settle (p : Pen) : Operation → Pen
  | .branch _ label => { p with labels := (label, p.cursor - 4) :: p.labels }
  | .place label =>
      match p.labels.lookup label with
      | some position => p.patch position
      | none => p
  | _ => p

theorem emit_eq (p : Pen) (base : Nat) (op : Operation) :
    p.emit base op = (p.append (op.code (base + p.cursor))).settle op := by
  cases op <;> rfl

theorem cursor_settle (p : Pen) (op : Operation) : (p.settle op).cursor = p.cursor := by
  unfold settle
  split
  · rfl
  · split
    · rfl
    · rfl
  · rfl

theorem cursor_emit (p : Pen) (base : Nat) (op : Operation) :
    (p.emit base op).cursor = p.cursor + (op.code (base + p.cursor)).length := by
  rw [emit_eq, cursor_settle]
  rfl

/-- The displacement of a branch ends its code. -/
theorem four_le_length_branch (here : Int) (cond : BranchCondition) (label : Nat) :
    4 ≤ ((Operation.branch cond label).code here).length := by
  cases cond <;>
    simp [Operation.code, Operation.instructions, BranchCondition.instructions,
      HostInstruction.encode, HostInstruction.literalBytes]

theorem mem_of_lookup {l : Labels} {label position : Nat} (h : l.lookup label = some position) :
    (label, position) ∈ l := by
  induction l with
  | nil => cases h
  | cons x rest ih =>
      obtain ⟨k, v⟩ := x
      rw [List.lookup_cons] at h
      split at h
      · next hk =>
          rw [beq_iff_eq] at hk
          cases h
          exact hk ▸ List.mem_cons_self
      · exact List.mem_cons_of_mem _ (ih h)

theorem Within.append {start : Nat} {p : Pen} (h : Within start p) (bs : List CodeByte) :
    Within start (p.append bs) :=
  ⟨Nat.le_trans h.cursor (Nat.le_add_right ..), fun x hx =>
    ⟨(h.labels x hx).1, Nat.le_trans (h.labels x hx).2 (Nat.le_add_right ..)⟩⟩

theorem Within.settle {start : Nat} {p : Pen} (h : Within start p) {op : Operation}
    (hop : ∀ cond label, op = .branch cond label → start + 4 ≤ p.cursor) :
    Within start (p.settle op) := by
  unfold Pen.settle
  split
  · next cond label =>
      refine ⟨h.cursor, fun x hx => ?_⟩
      rcases List.mem_cons.mp hx with rfl | hx
      · have := hop cond label rfl
        simp only
        omega
      · exact h.labels x hx
  · split
    · exact ⟨h.cursor, h.labels⟩
    · exact h
  · exact h

theorem Within.emit {start : Nat} {p : Pen} (h : Within start p) (base : Nat) (op : Operation) :
    Within start (p.emit base op) := by
  rw [emit_eq]
  refine (h.append _).settle ?_
  rintro cond label rfl
  exact Nat.add_le_add h.cursor (four_le_length_branch _ cond label)

/-! ## Nothing changes outside -/

theorem read_append (p : Pen) (bs : List CodeByte) (i : Nat) :
    (p.append bs).image.read i =
      if p.cursor ≤ i then (bs[i - p.cursor]?).getD (p.image.read i) else p.image.read i :=
  Image.read_put ..

theorem read_patch (p : Pen) (position i : Nat) :
    (p.patch position).image.read i =
      if position ≤ i then
        (((HostInstruction.bytes32 (displacement (p.cursor - (position + 4)))).map
          CodeByte.literal)[i - position]?).getD (p.image.read i)
      else p.image.read i :=
  Image.read_put ..

theorem read_append_of_outside {p : Pen} (bs : List CodeByte) {i : Nat}
    (h : i < p.cursor ∨ (p.append bs).cursor ≤ i) :
    (p.append bs).image.read i = p.image.read i := by
  rw [read_append]
  split
  · next hle =>
      have hlen : bs.length ≤ i - p.cursor := by
        have : i < p.cursor ∨ p.cursor + bs.length ≤ i := h
        omega
      rw [List.getElem?_eq_none hlen]
      rfl
  · rfl

theorem read_patch_of_outside {p : Pen} {position i : Nat}
    (h : i < position ∨ position + 4 ≤ i) :
    (p.patch position).image.read i = p.image.read i := by
  rw [read_patch]
  split
  · next hle =>
      rw [List.getElem?_eq_none]
      · rfl
      · rw [List.length_map, HostInstruction.length_bytes32]
        omega
  · rfl

/-- Writing an operation changes nothing before `start` or from the cursor on. -/
theorem read_emit_of_outside {start : Nat} {p : Pen} (h : Within start p) (base : Nat)
    (op : Operation) {i : Nat} (hi : i < start ∨ (p.emit base op).cursor ≤ i) :
    (p.emit base op).image.read i = p.image.read i := by
  have hcursor := h.cursor
  have happend := h.append (op.code (base + p.cursor))
  rw [emit_eq, cursor_settle] at hi
  rw [emit_eq, ← read_append_of_outside (op.code (base + p.cursor))
    (hi.imp (fun hlt => Nat.lt_of_lt_of_le hlt hcursor) id)]
  generalize p.append (op.code (base + p.cursor)) = w at hi happend ⊢
  unfold settle
  split
  · rfl
  · split
    · next position hl =>
        obtain ⟨h1, h2⟩ := happend.labels _ (mem_of_lookup hl)
        refine read_patch_of_outside ?_
        simp only at h1 h2
        omega
    · rfl
  · rfl

theorem le_cursor_emitAll (p : Pen) (base : Nat) (ops : List Operation) :
    p.cursor ≤ (p.emitAll base ops).cursor := by
  induction ops generalizing p with
  | nil => exact Nat.le_refl _
  | cons op rest ih =>
      refine Nat.le_trans ?_ (ih _)
      rw [cursor_emit]
      exact Nat.le_add_right ..

theorem read_emitAll_of_outside {start : Nat} {p : Pen} (h : Within start p) (base : Nat)
    (ops : List Operation) {i : Nat} (hi : i < start ∨ (p.emitAll base ops).cursor ≤ i) :
    (p.emitAll base ops).image.read i = p.image.read i := by
  induction ops generalizing p with
  | nil => rfl
  | cons op rest ih =>
      have hcursor := le_cursor_emitAll (p.emit base op) base rest
      rw [show p.emitAll base (op :: rest) = (p.emit base op).emitAll base rest from rfl,
        ih (h.emit base op) hi, read_emit_of_outside h base op]
      exact hi.imp id (Nat.le_trans hcursor)

/-! ## What is written depends on nothing that was there -/

/-- Two pens that stand at the same place, and have written the same from
`start` on. -/
structure Agrees (start : Nat) (p q : Pen) : Prop where
  cursor : p.cursor = q.cursor
  labels : p.labels = q.labels
  within : Within start p
  read : ∀ i, start ≤ i → i < p.cursor → p.image.read i = q.image.read i

theorem Agrees.append {start : Nat} {p q : Pen} (h : Agrees start p q) (bs : List CodeByte) :
    Agrees start (p.append bs) (q.append bs) := by
  refine ⟨?_, h.labels, h.within.append bs, fun i h1 h2 => ?_⟩
  · show p.cursor + _ = q.cursor + _
    rw [h.cursor]
  · rw [read_append p, read_append q, h.cursor]
    split
    · next hle =>
        have hlt : i - q.cursor < bs.length := by
          have : i < p.cursor + bs.length := h2
          have := h.cursor
          omega
        rw [List.getElem?_eq_getElem hlt]
        rfl
    · next hle => exact h.read i h1 (by rw [h.cursor]; exact Nat.lt_of_not_le hle)

theorem cursor_patch (p : Pen) (position : Nat) : (p.patch position).cursor = p.cursor := rfl

theorem labels_patch (p : Pen) (position : Nat) : (p.patch position).labels = p.labels := rfl

theorem Agrees.patch {start : Nat} {p q : Pen} (h : Agrees start p q) (position : Nat) :
    Agrees start (p.patch position) (q.patch position) where
  cursor := by rw [cursor_patch, cursor_patch]; exact h.cursor
  labels := by rw [labels_patch, labels_patch]; exact h.labels
  within := ⟨by rw [cursor_patch]; exact h.within.cursor, by
    rw [cursor_patch, labels_patch]; exact h.within.labels⟩
  read i h1 h2 := by
    rw [cursor_patch] at h2
    rw [read_patch p, read_patch q, h.cursor, h.read i h1 h2]

theorem Agrees.emit {start : Nat} {p q : Pen} (h : Agrees start p q) (base : Nat)
    (op : Operation) : Agrees start (p.emit base op) (q.emit base op) := by
  have happend := h.append (op.code (base + p.cursor))
  have hwithin := h.within.emit base op
  rw [emit_eq] at hwithin
  rw [emit_eq, emit_eq, ← h.cursor]
  generalize p.append (op.code (base + p.cursor)) = v at happend hwithin ⊢
  generalize q.append (op.code (base + p.cursor)) = w at happend ⊢
  unfold settle at hwithin ⊢
  rw [← happend.labels]
  split
  · refine ⟨happend.cursor, ?_, hwithin, happend.read⟩
    rw [happend.cursor]
  · split
    · exact happend.patch _
    · exact happend
  · exact happend

theorem Agrees.emitAll {start : Nat} {p q : Pen} (h : Agrees start p q) (base : Nat)
    (ops : List Operation) : Agrees start (p.emitAll base ops) (q.emitAll base ops) := by
  induction ops generalizing p q with
  | nil => exact h
  | cons op rest ih => exact ih (h.emit base op)

end Pen

/-! ## Lengths -/

/-- Whether an operation's code is the same wherever it is put. -/
def Operation.Portable : Operation → Prop
  | call (.absolute _) => False
  | _ => True

theorem Operation.Portable.code_eq {op : Operation} (h : op.Portable) (here : Int) :
    op.code here = op.code 0 := by
  unfold Operation.code
  cases op with
  | call target =>
      cases target with
      | absolute a => exact h.elim
      | helper _ | exitSlot _ _ => rfl
  | _ => rfl

def Portable (ops : List Operation) : Prop := ∀ op ∈ ops, op.Portable

@[simp] theorem portable_nil : Portable [] := fun _ h => absurd h List.not_mem_nil

@[simp] theorem portable_cons {op : Operation} {ops : List Operation} :
    Portable (op :: ops) ↔ op.Portable ∧ Portable ops := List.forall_mem_cons

@[simp] theorem portable_append {xs ys : List Operation} :
    Portable (xs ++ ys) ↔ Portable xs ∧ Portable ys := List.forall_mem_append

theorem portable_effectiveAddress (a : Address) : Portable (Operation.effectiveAddress a) := by
  obtain ⟨base, index, disp⟩ := a
  rw [Operation.effectiveAddress, portable_append]
  constructor
  · cases base with
    | none => simp [Operation.Portable]
    | some r => by_cases hd : disp = 0 <;> simp [hd, Operation.Portable]
  · cases index <;> simp [Operation.Portable]

theorem portable_body (p : Placed) (label : Nat) : Portable (p.body label) := by
  have haddr := portable_effectiveAddress
  obtain ⟨i, next⟩ := p
  cases i with
  | store a width src =>
      cases src <;> simp [Placed.body, Operation.writeMemory, Operation.Portable, haddr a]
  | load dst a | lea dst a =>
      simp [Placed.body, Operation.readMemory, Operation.Portable, haddr a]
  | alu op dst src =>
      cases src <;> by_cases hk : op.keepsResult <;>
        simp [Placed.body, hk, Operation.Portable]
  | _ =>
      simp [Placed.body, Operation.readMemory, Operation.writeMemory, Operation.lowerStack,
        Operation.raiseStack, Operation.Portable]

theorem portable_bodies (label : Nat) (ps : List Placed) : Portable (bodies label ps) := by
  induction ps generalizing label with
  | nil => exact portable_nil
  | cons p rest ih => exact portable_append.mpr ⟨portable_body p label, ih _⟩

theorem portable_leaveWith (eip : Option UInt32) (count : Nat) (code : ReturnCode) :
    Portable (Operation.leaveWith eip count code) := by
  cases eip <;> by_cases hc : count = 0 <;>
    simp [Operation.leaveWith, Operation.spend, hc, Operation.Portable]

theorem portable_leaveThrough (id : BlockId) (slot : Slot) (target : UInt32) (count : Nat) :
    Portable (Operation.leaveThrough id slot target count) := by
  by_cases hc : count = 0 <;>
    simp [Operation.leaveThrough, Operation.spend, hc, Operation.Portable]

theorem portable_exit (e : Exit) (id : BlockId) (count label : Nat) :
    Portable (e.operations id count label) := by
  have hthrough := portable_leaveThrough id
  cases e with
  | branch cond taken notTaken =>
      simp [Exit.operations, Operation.Portable, hthrough .first notTaken count,
        hthrough .second taken count]
  | limit target | jump target => exact hthrough .first target count
  | computed | interpret _ | callback _ => exact portable_leaveWith _ _ _

theorem portable_writeStubs (label count : Nat) (ps : List Placed) :
    Portable (writeStubs label count ps) := by
  induction ps generalizing label count with
  | nil => exact portable_nil
  | cons p rest ih =>
      unfold writeStubs
      split
      · simp [Operation.Portable, portable_leaveWith, ih]
      · exact ih label (count + 1)

theorem Sequence.portable_operations (s : Sequence) (id : BlockId) :
    Portable (s.operations id) := by
  simp [Sequence.operations, prologue, Operation.Portable, portable_bodies, portable_exit,
    portable_writeStubs]

theorem Pen.cursor_emitAll (p : Pen) (base : Nat) {ops : List Operation} (h : Portable ops) :
    (p.emitAll base ops).cursor = p.cursor + codeLength ops := by
  induction ops generalizing p with
  | nil => rfl
  | cons op rest ih =>
      rw [show p.emitAll base (op :: rest) = (p.emit base op).emitAll base rest from rfl,
        ih _ fun x hx => h x (List.mem_cons_of_mem _ hx), Pen.cursor_emit,
        (h op List.mem_cons_self).code_eq, codeLength_cons, ← Nat.add_assoc]
      rfl

/-! ## The code of a block -/

def assemble (start : Nat) (ops : List Operation) : List CodeByte :=
  let pen := ({ cursor := start } : Pen).emitAll Arena.base ops
  pen.image.slice start (pen.cursor - start)

/-- Whatever was written before, writing operations leaves their code. -/
theorem slice_emitAll (p : Pen) (ops : List Operation) :
    (({ p with labels := [] } : Pen).emitAll Arena.base ops).image.slice p.cursor
      ((({ p with labels := [] } : Pen).emitAll Arena.base ops).cursor - p.cursor) =
      assemble p.cursor ops := by
  have h : Pen.Agrees p.cursor { p with labels := [] } { cursor := p.cursor } := by
    refine ⟨rfl, rfl, Pen.within_start rfl rfl, fun i h1 h2 => ?_⟩
    exact absurd h1 (Nat.not_le.mpr h2)
  have hall := h.emitAll Arena.base ops
  rw [assemble, Image.slice, Image.slice, hall.cursor]
  refine List.map_congr_left fun i hi => ?_
  rw [List.mem_range] at hi
  refine hall.read _ (Nat.le_add_right ..) ?_
  rw [hall.cursor]
  omega

end Recompiler
