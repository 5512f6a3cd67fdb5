import Recompiler.Guest.Semantics
import Recompiler.Proofs.Compile.Source
import Recompiler.Proofs.Guarded.Memory

/-!
# What a block holds

The instructions of a block are those that memory holds at its start and at the
addresses that follow, one after the other; the block ends with the first that
transfers control, before the first that is the interpreter's, or where a limit
is reached.
-/

namespace Recompiler

def addressAfter : UInt32 → List Placed → UInt32
  | eip, [] => eip
  | _, p :: ps => addressAfter p.next ps

@[simp] theorem addressAfter_append (eip : UInt32) (xs ys : List Placed) :
    addressAfter eip (xs ++ ys) = addressAfter (addressAfter eip xs) ys := by
  induction xs generalizing eip with
  | nil => rfl
  | cons p rest ih => exact ih p.next

/-- A run of instructions is what is found from an address on, up to an
exit. -/
inductive Follows (code : UInt32 → Option Placed) : UInt32 → List Placed → Exit → Prop
  | limit (eip : UInt32) : Follows code eip [] (.limit eip)
  | interpret {eip : UInt32} (h : code eip = none) : Follows code eip [] (.interpret eip)
  | last {eip : UInt32} {p : Placed} {exit : Exit} (h : code eip = some p)
      (he : p.exit? = some exit) : Follows code eip [p] exit
  | next {eip : UInt32} {p : Placed} {ps : List Placed} {exit : Exit} (h : code eip = some p)
      (he : p.exit? = none) (hf : Follows code p.next ps exit) : Follows code eip (p :: ps) exit

theorem Follows.drop {code : UInt32 → Option Placed} {done rest : List Placed} {exit : Exit}
    (hd : ∀ p ∈ done, p.exit? = none) {eip : UInt32} (h : Follows code eip (done ++ rest) exit) :
    Follows code (addressAfter eip done) rest exit := by
  induction done generalizing eip with
  | nil => exact h
  | cons p done ih =>
      have hd' : ∀ q ∈ done, q.exit? = none := fun q hq => hd q (List.mem_cons_of_mem _ hq)
      have hp := hd p List.mem_cons_self
      generalize hps : p :: done ++ rest = ps at h
      cases h with
      | limit | interpret _ => cases hps
      | last h he =>
          obtain ⟨rfl, -⟩ := List.cons.inj hps
          rw [hp] at he
          cases he
      | next h he hf =>
          obtain ⟨rfl, rfl⟩ := List.cons.inj hps
          exact ih hd' hf

theorem Memory.instruction?_eq {m : Memory} {eip : UInt32} {page : Vector UInt8 pageSize}
    (hn : m.isNoCode (pageOf eip) = false) (hp : m.bytes? (pageOf eip) = some page) (d : Decoder) :
    m.instruction? d eip = (d.decode (window page (offsetOf eip)) eip).instruction.map fun i =>
      ⟨i, eip + (d.decode (window page (offsetOf eip)) eip).length.toUInt32⟩ := by
  unfold Memory.instruction?
  rw [hn, hp, if_neg Bool.false_ne_true]
  show (d.decode (window page (offsetOf eip)) eip).instruction.bind _ = _
  cases (d.decode (window page (offsetOf eip)) eip).instruction <;> rfl

section Take

variable {m : Memory} {n : Nat} {page : Vector UInt8 pageSize} {limits : Limits}

/-- **Instructions are taken as memory holds them.** -/
theorem follows_takeInstructions (hn : m.isNoCode n = false) (hp : m.bytes? n = some page)
    (fuel : Nat) {offset : Nat} {eip : UInt32}
    (ho : offset < pageSize → (offsetOf eip).val = offset ∧ pageOf eip = n)
    (count written stubs : Nat) :
    Follows (m.instruction? limits.decoder) eip
      (takeInstructions page limits fuel offset eip count written stubs).instructions
      (takeInstructions page limits fuel offset eip count written stubs).exit := by
  induction fuel generalizing offset eip count written stubs with
  | zero => exact .limit eip
  | succ fuel ih =>
      by_cases hlt : offset < pageSize
      · obtain ⟨hoff, hpage⟩ := ho hlt
        have hfin : (⟨offset, hlt⟩ : Offset) = offsetOf eip := Fin.ext hoff.symm
        have hcode := Memory.instruction?_eq (hpage ▸ hn) (hpage ▸ hp) limits.decoder
        rw [takeInstructions_succ _ _ _ hlt, hfin]
        generalize limits.decoder.decode (window page (offsetOf eip)) eip = d at hcode
        simp only
        split
        · exact .limit eip
        · cases hi : d.instruction with
          | none =>
              rw [hi] at hcode
              exact .interpret hcode
          | some i =>
              rw [hi] at hcode
              simp only
              split
              · next hx => exact .last hcode hx
              · next hx =>
                  refine .next hcode hx (ih (fun hstop => ?_) _ _ _)
                  rw [← hoff] at hstop ⊢
                  exact ⟨offsetOf_add_of_lt hstop, (pageOf_add_of_lt hstop).trans hpage⟩
      · rw [takeInstructions, dif_neg hlt]
        exact .limit eip

theorem length_takeInstructions_le (fuel offset : Nat) (eip : UInt32)
    (count written stubs : Nat) :
    (takeInstructions page limits fuel offset eip count written stubs).instructions.length ≤
      fuel := by
  induction fuel generalizing offset eip count written stubs with
  | zero => exact Nat.le_refl _
  | succ fuel ih =>
      by_cases hlt : offset < pageSize
      · rw [takeInstructions_succ _ _ _ hlt]
        simp only
        split
        · exact Nat.zero_le _
        · split
          · exact Nat.zero_le _
          · split
            · exact Nat.succ_le_succ (Nat.zero_le _)
            · exact Nat.succ_le_succ (ih _ _ _ _ _)
      · rw [takeInstructions, dif_neg hlt]
        exact Nat.zero_le _

end Take

namespace Sequence

variable {page : Vector UInt8 pageSize} {limits : Limits}

theorem follows_at {m : Memory} {eip : UInt32} (hn : m.isNoCode (pageOf eip) = false)
    (hp : m.bytes? (pageOf eip) = some page) :
    Follows (m.instruction? limits.decoder) eip (Sequence.at page limits eip).instructions
      (Sequence.at page limits eip).exit :=
  follows_takeInstructions hn hp _ (fun _ => ⟨rfl, rfl⟩) _ _ _

theorem length_at_le (page : Vector UInt8 pageSize) (limits : Limits) (eip : UInt32) :
    (Sequence.at page limits eip).instructions.length ≤ pageSize :=
  length_takeInstructions_le _ _ _ _ _ _

/-- A sequence without instructions stands before one of the interpreter's. -/
theorem exit_at_of_nil (hl : limits.Sufficient) {eip : UInt32}
    (h : (Sequence.at page limits eip).instructions = []) :
    (Sequence.at page limits eip).exit = .interpret eip := by
  have hlt := (offsetOf eip).isLt
  rw [Sequence.at, takeInstructions_succ page limits 4095 hlt, if_neg (not_or.mpr
    ⟨Nat.not_le.mpr hl.instructions, hl.not_full_at_start _⟩)] at h ⊢
  simp only at h ⊢
  split at h
  · rfl
  · split at h
    · cases h
    · cases h

end Sequence

end Recompiler
