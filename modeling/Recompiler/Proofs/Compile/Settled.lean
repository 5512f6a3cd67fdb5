import Recompiler.Compile.Sequence
import Recompiler.Proofs.Host.Run
import Recompiler.Proofs.Host.Straight

/-!
# Compiled code sets registers before it reads them

So what the host's registers hold when a block is entered does not matter, and
every helper is passed the handle.
-/

namespace Recompiler

open Operation

theorem settled_cons {before : List Part} {op : Operation} {rest : List Operation} :
    settled before (op :: rest) = true ↔
      (∀ p ∈ op.needs, p ∈ before) ∧ settled (op.known before) rest = true := by
  simp [settled]

theorem settled_effectiveAddress (a : Address) {before : List Part} {rest : List Operation}
    (hs : settled [.role .addr] rest = true) :
    settled before (effectiveAddress a ++ rest) = true := by
  obtain ⟨base, index, disp⟩ := a
  have hrest : ∀ {known : List Part}, .role .addr ∈ known → settled known rest = true :=
    fun hk => settled_mono hs (List.cons_subset.mpr ⟨hk, List.nil_subset _⟩)
  have hbase : ∀ {more : List Operation},
      (∀ {known : List Part}, .role .addr ∈ known → settled known more = true) →
      settled before (effectiveAddress ⟨base, none, disp⟩ ++ more) = true := fun hmore => by
    unfold effectiveAddress
    cases base with
    | none => exact hmore List.mem_cons_self
    | some base =>
        simp only [List.append_nil]
        split
        · exact hmore List.mem_cons_self
        · exact hmore (List.mem_cons_of_mem Part.flags List.mem_cons_self)
  cases index with
  | none => exact hbase hrest
  | some pair =>
      rw [effectiveAddress_index, List.append_assoc]
      refine hbase fun {known} hk => ?_
      have htemp : Part.role .temp ∈ Part.role .temp :: known := List.mem_cons_self
      have haddr : Part.role .addr ∈ Part.role .temp :: known := List.mem_cons_of_mem _ hk
      refine settled_cons.mpr ⟨fun _ hp => absurd hp List.not_mem_nil, ?_⟩
      refine settled_cons.mpr ⟨List.forall_mem_singleton.mpr htemp, ?_⟩
      refine settled_cons.mpr ⟨?_, hrest (List.mem_cons_of_mem Part.flags haddr)⟩
      exact List.forall_mem_cons.mpr ⟨haddr, List.forall_mem_singleton.mpr htemp⟩

theorem Placed.settled_body (p : Placed) (label : Nat) : settled [] (p.body label) = true := by
  obtain ⟨instruction, next⟩ := p
  cases instruction with
  | load dst a =>
      show settled [] ((effectiveAddress a ++ readMemory) ++ _) = true
      rw [List.append_assoc]
      exact settled_effectiveAddress a rfl
  | store a width src =>
      show settled [] ((effectiveAddress a ++ _) ++ _) = true
      rw [List.append_assoc]
      refine settled_effectiveAddress a ?_
      cases src <;> rfl
  | lea dst a => exact settled_effectiveAddress a rfl
  | alu op dst src =>
      unfold Placed.body
      simp only
      cases src <;> cases op.keepsResult <;> rfl
  | _ => rfl

theorem settled_bodies (label : Nat) (ps : List Placed) : settled [] (bodies label ps) = true := by
  induction ps generalizing label with
  | nil => rfl
  | cons p rest ih => exact settled_append (p.settled_body label) (ih _)

theorem settled_leaveThrough (id : BlockId) (slot : Slot) (target : UInt32) (count : Nat)
    (before : List Part) : settled before (leaveThrough id slot target count) = true := by
  unfold leaveThrough spend
  split <;> rfl

theorem settled_leaveWith (eip : Option UInt32) (count : Nat) (code : ReturnCode)
    (before : List Part) : settled before (leaveWith eip count code) = true := by
  unfold leaveWith spend
  cases eip <;> split <;> rfl

theorem Exit.settled_operations (e : Exit) (id : BlockId) (count label : Nat) :
    settled [] (e.operations id count label) = true := by
  cases e with
  | limit target | jump target => exact settled_leaveThrough ..
  | branch cond taken notTaken =>
      refine settled_append ?_ (settled_leaveThrough ..)
      exact settled_append rfl (settled_leaveThrough ..)
  | computed | interpret _ | callback _ => exact settled_leaveWith ..

theorem settled_writeStubs (label count : Nat) (ps : List Placed) :
    settled [] (writeStubs label count ps) = true := by
  induction ps generalizing label count with
  | nil => rfl
  | cons p rest ih =>
      unfold writeStubs
      split
      · exact settled_append (settled_leaveWith ..) (ih _ _)
      · exact ih _ _

/-- **A block reads nothing it has not set.** -/
theorem Sequence.settled_operations (seq : Sequence) (id : BlockId) :
    settled [] (seq.operations id) = true :=
  settled_append (settled_append (settled_append (settled_append rfl (settled_bodies ..))
    (seq.exit.settled_operations ..)) rfl) (settled_writeStubs ..)

end Recompiler
