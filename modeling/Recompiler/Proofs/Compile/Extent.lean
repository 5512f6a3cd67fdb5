import Recompiler.Proofs.Compile.Charge
import Recompiler.Proofs.Compile.Source

/-!
# The extent of a block

Instructions are decoded one after the other, each where the one before it ends.  A
block extends over the bytes that all of them count, the one left to the interpreter
included, and these lie in one page.  Where the block goes on is one past them.
-/

namespace Recompiler

def extent : List Decoded → Nat
  | [] => 0
  | d :: ds => d.length + extent ds

@[simp] theorem extent_nil : extent [] = 0 := rfl

@[simp] theorem extent_cons (d : Decoded) (ds : List Decoded) :
    extent (d :: ds) = d.length + extent ds := rfl

/-- The instructions that lie one after the other from an offset of a page and its address
on: as many as are asked for, unless the page ends before. -/
def Decoder.decodeRun (decoder : Decoder) (page : Vector UInt8 pageSize) :
    (n offset : Nat) → (eip : UInt32) → List Decoded
  | 0, _, _ => []
  | n + 1, offset, eip =>
      if h : offset < pageSize then
        let d := decoder.decode (window page ⟨offset, h⟩) eip
        d :: decoder.decodeRun page n (offset + d.length) (eip + d.length.toUInt32)
      else []

theorem add_toUInt32 (eip : UInt32) (m n : Nat) :
    eip + m.toUInt32 + n.toUInt32 = eip + (m + n).toUInt32 := by
  rw [UInt32.add_assoc]
  exact congrArg (eip + ·) (UInt32.ofNat_add m n).symm

/-- Where a block goes on after its last instruction, if its exit says so. -/
def Exit.onward? : Exit → Option UInt32
  | .limit target | .branch _ _ target | .callback target => some target
  | .jump _ | .computed | .interpret _ => none

theorem onward?_of_exit? {p : Placed} {exit : Exit} (h : p.exit? = some exit) {target : UInt32}
    (ht : exit.onward? = some target) : target = p.next := by
  obtain ⟨i, next⟩ := p
  cases i with
  | jumpIf _ _ | interrupt _ =>
      cases h
      cases ht
      rfl
  | jump _ | call _ | ret | jumpReg _ =>
      cases h
      cases ht
  | _ => cases h

/-! ## The loop without a bound -/

section Takes

variable (page : Vector UInt8 pageSize) (limits : Limits)

/-- What is decoded next: there are bytes left on the page, and no limit is reached. -/
structure Decodes (offset : Nat) (eip : UInt32) (count written stubs : Nat) (d : Decoded) :
    Prop where
  inside : offset < pageSize
  room : ¬(limits.instructions ≤ count ∨ limits.full written stubs = true)
  found : limits.decoder.decode (window page ⟨offset, inside⟩) eip = d

/-- Instructions are taken until one ends the block or is not compiled, the page ends, or a
limit is reached; with what was decoded for that. -/
inductive Takes : (offset : Nat) → (eip : UInt32) → (count written stubs : Nat) →
    List Decoded → Sequence → Prop
  | limit {offset : Nat} {eip : UInt32} {count written stubs : Nat}
      (h : pageSize ≤ offset ∨ limits.instructions ≤ count ∨ limits.full written stubs = true) :
      Takes offset eip count written stubs [] ⟨[], .limit eip, offset⟩
  | interpret {offset : Nat} {eip : UInt32} {count written stubs : Nat} {d : Decoded}
      (hd : Decodes page limits offset eip count written stubs d) (hi : d.instruction = none) :
      Takes offset eip count written stubs [d] ⟨[], .interpret eip, offset + d.length⟩
  | last {offset : Nat} {eip : UInt32} {count written stubs : Nat} {d : Decoded} {p : Placed}
      {exit : Exit} (hd : Decodes page limits offset eip count written stubs d)
      (hi : d.instruction = some p.instruction) (hp : p.next = eip + d.length.toUInt32)
      (hx : p.exit? = some exit) :
      Takes offset eip count written stubs [d] ⟨[p], exit, offset + d.length⟩
  | next {offset : Nat} {eip : UInt32} {count written stubs : Nat} {d : Decoded} {p : Placed}
      {ds : List Decoded} {rest : Sequence}
      (hd : Decodes page limits offset eip count written stubs d)
      (hi : d.instruction = some p.instruction) (hp : p.next = eip + d.length.toUInt32)
      (hx : p.exit? = none)
      (ht : Takes (offset + d.length) p.next (count + 1) (written + codeLength (p.body 0))
        (if p.instruction.stores then stubs + 1 else stubs) ds rest) :
      Takes offset eip count written stubs (d :: ds)
        { rest with instructions := p :: rest.instructions }

variable {page limits}

/-- **The loop comes to an end:** every instruction counts a byte, so the bytes of the page
are steps enough. -/
theorem takes_takeInstructions (fuel : Nat) {offset : Nat} (ho : offset ≤ pageSize)
    (hfuel : pageSize ≤ offset + fuel) (eip : UInt32) (count written stubs : Nat) :
    ∃ ds, Takes page limits offset eip count written stubs ds
      (takeInstructions page limits fuel offset eip count written stubs) := by
  induction fuel generalizing offset eip count written stubs with
  | zero => exact ⟨[], .limit (Or.inl hfuel)⟩
  | succ fuel ih =>
      by_cases hlt : offset < pageSize
      · have hend := limits.decoder.add_length_le page ⟨offset, hlt⟩ eip
        have hpos := limits.decoder.length_window_pos page ⟨offset, hlt⟩ eip
        rw [takeInstructions_succ _ _ _ hlt]
        simp only
        split
        · next hroom => exact ⟨[], .limit (Or.inr hroom)⟩
        next hroom =>
        have hd : Decodes page limits offset eip count written stubs _ := ⟨hlt, hroom, rfl⟩
        split
        · next hi => exact ⟨_, .interpret hd hi⟩
        next i hi =>
        split
        · next hx => exact ⟨_, .last hd hi rfl hx⟩
        · next hx =>
            have hmore : pageSize ≤
                offset + (limits.decoder.decode (window page ⟨offset, hlt⟩) eip).length + fuel := by
              omega
            obtain ⟨ds, hds⟩ := ih hend hmore _ _ _ _
            exact ⟨_, .next hd hi rfl hx hds⟩
      · rw [takeInstructions, dif_neg hlt]
        exact ⟨[], .limit (Or.inl (Nat.le_of_not_lt hlt))⟩

namespace Takes

variable {offset : Nat} {eip : UInt32} {count written stubs : Nat} {ds : List Decoded}
  {s : Sequence} (h : Takes page limits offset eip count written stubs ds s)

include h

/-- What is decoded lies one after the other. -/
theorem eq_decodeRun : ds = limits.decoder.decodeRun page ds.length offset eip := by
  induction h with
  | limit _ => rfl
  | interpret hd _ | last hd _ _ _ =>
      obtain ⟨hlt, _, rfl⟩ := hd
      rw [List.length_singleton, Decoder.decodeRun, dif_pos hlt]
      rfl
  | next hd _ hp _ _ ih =>
      obtain ⟨hlt, _, rfl⟩ := hd
      rw [List.length_cons, Decoder.decodeRun, dif_pos hlt]
      rw [hp] at ih
      exact congrArg _ ih

theorem stop_eq : s.stop = offset + extent ds := by
  induction h with
  | limit _ | interpret _ _ | last _ _ _ _ => rfl
  | next _ _ _ _ _ ih => exact ih.trans (Nat.add_assoc ..)

theorem add_extent_le (ho : offset ≤ pageSize) : offset + extent ds ≤ pageSize := by
  induction h with
  | limit _ => exact ho
  | interpret hd _ | last hd _ _ _ =>
      obtain ⟨hlt, _, rfl⟩ := hd
      exact limits.decoder.add_length_le page ⟨_, hlt⟩ _
  | next hd _ _ _ _ ih =>
      obtain ⟨hlt, _, rfl⟩ := hd
      rw [extent_cons, ← Nat.add_assoc]
      exact ih (limits.decoder.add_length_le page ⟨_, hlt⟩ _)

theorem length_instructions_le (hc : count ≤ limits.instructions) :
    count + s.instructions.length ≤ limits.instructions := by
  induction h with
  | limit _ | interpret _ _ => exact hc
  | last hd _ _ _ => exact Nat.lt_of_not_le fun hle => hd.room (Or.inl hle)
  | next hd _ _ _ _ ih =>
      have := ih (Nat.lt_of_not_le fun hle => hd.room (Or.inl hle))
      rw [List.length_cons]
      omega

/-- What is compiled is what was decoded, each instruction with the address after it. -/
theorem getElem?_instructions {k : Nat} {p : Placed} (hk : s.instructions[k]? = some p) :
    ∃ d, ds[k]? = some d ∧ d.instruction = some p.instruction ∧
      p.next = eip + (extent (ds.take (k + 1))).toUInt32 := by
  induction h generalizing k with
  | limit _ | interpret _ _ => cases hk
  | @last _ _ _ _ _ d _ _ _ hi hp _ =>
      cases k with
      | zero =>
          cases hk
          exact ⟨d, rfl, hi, hp⟩
      | succ k => cases hk
  | @next _ _ _ _ _ d _ _ _ _ hi hp _ _ ih =>
      cases k with
      | zero =>
          cases hk
          exact ⟨d, rfl, hi, hp⟩
      | succ k =>
          obtain ⟨x, hx, hxi, hnext⟩ := ih hk
          refine ⟨x, hx, hxi, ?_⟩
          rw [hnext, hp, add_toUInt32, List.take_succ_cons, extent_cons]

/-- What is left to the interpreter is decoded last, and counted. -/
theorem of_interpret {next : UInt32} (hx : s.exit = .interpret next) :
    ∃ front d, ds = front ++ [d] ∧ d.instruction = none ∧
      s.instructions.length = front.length ∧ next = eip + (extent front).toUInt32 := by
  induction h with
  | limit _ => cases hx
  | @interpret _ eip _ _ _ d _ hi =>
      cases hx
      exact ⟨[], d, rfl, hi, rfl, (UInt32.add_zero _).symm⟩
  | last _ _ _ hlast =>
      exact absurd (hlast.trans (congrArg some hx)) (Placed.exit?_ne_interpret _ next)
  | @next _ _ _ _ _ d _ _ _ _ _ hp _ _ ih =>
      obtain ⟨front, x, rfl, hxi, hlength, hnext⟩ := ih hx
      refine ⟨d :: front, x, rfl, hxi, congrArg (· + 1) hlength, ?_⟩
      rw [hnext, hp, add_toUInt32, extent_cons]

/-- Otherwise all that is decoded is compiled. -/
theorem length_instructions_eq (hx : ∀ next, s.exit ≠ .interpret next) :
    s.instructions.length = ds.length := by
  induction h with
  | limit _ | last _ _ _ _ => rfl
  | interpret _ _ => exact absurd rfl (hx _)
  | next _ _ _ _ _ ih => exact congrArg (· + 1) (ih hx)

theorem onward_eq {target : UInt32} (hx : s.exit.onward? = some target) :
    target = eip + (extent ds).toUInt32 := by
  induction h with
  | limit _ =>
      cases hx
      exact (UInt32.add_zero _).symm
  | interpret _ _ => cases hx
  | last _ _ hp hlast => exact (onward?_of_exit? hlast hx).trans hp
  | next _ _ hp _ _ ih => rw [ih hx, hp, add_toUInt32, extent_cons]

/-- A call is the last instruction of a block, and returns there. -/
theorem next_of_call {p : Placed} (hmem : p ∈ s.instructions) {target : UInt32}
    (hcall : p.instruction = .call target) : p.next = eip + (extent ds).toUInt32 := by
  induction h with
  | limit _ | interpret _ _ => cases hmem
  | last _ _ hp _ =>
      cases List.mem_singleton.mp hmem
      exact hp
  | next _ _ hp hx _ ih =>
      rcases List.mem_cons.mp hmem with rfl | hmem
      · rw [Placed.exit?, hcall] at hx
        cases hx
      · rw [ih hmem, hp, add_toUInt32, extent_cons]

end Takes

end Takes

/-! ## A block -/

/-- What a block has to do with the instructions that are decoded for it. -/
structure Spans (page : Vector UInt8 pageSize) (limits : Limits) (eip : UInt32) (s : Sequence)
    (ds : List Decoded) : Prop where
  /-- The loop comes to an end with them. -/
  taken : Takes page limits (offsetOf eip).val eip 0
    (codeLength (prologue (.trampoline .first))) 1 ds s
  run : ds = limits.decoder.decodeRun page ds.length (offsetOf eip).val eip
  nonempty : ds ≠ []
  few : s.instructions.length ≤ limits.instructions
  compiled : ∀ k p, s.instructions[k]? = some p → ∃ d, ds[k]? = some d ∧
    d.instruction = some p.instruction ∧ p.next = eip + (extent (ds.take (k + 1))).toUInt32
  /-- All that is decoded is compiled, but for an instruction of the interpreter's, which is
  the last. -/
  interpreted : ∀ next, s.exit = .interpret next → ∃ front d, ds = front ++ [d] ∧
    d.instruction = none ∧ s.instructions.length = front.length ∧
    next = eip + (extent front).toUInt32
  all : (∀ next, s.exit ≠ .interpret next) → s.instructions.length = ds.length
  inside : (offsetOf eip).val + extent ds ≤ pageSize
  first : offsetOf eip ≤ s.last
  last : s.last.val = min (pageSize - 1) ((offsetOf eip).val + extent ds - 1)
  /-- The address one past the last byte, modulo the size of memory. -/
  past : eip + (extent ds).toUInt32 = addressOf (pageOf eip) s.last + 1
  onward : ∀ target, s.exit.onward? = some target → target = eip + (extent ds).toUInt32
  /-- The return address that a call pushes. -/
  call : ∀ p ∈ s.instructions, ∀ target, p.instruction = .call target → ∀ label,
    p.body label = .moveImm .temp (eip + (extent ds).toUInt32) ::
      (Operation.lowerStack ++ Operation.writeMemory .long label)

namespace Sequence

/-- **A block extends over what is decoded for it,** within its page. -/
theorem spans_at {limits : Limits} (hl : limits.Sufficient) (page : Vector UInt8 pageSize)
    (eip : UInt32) : ∃ ds, Spans page limits eip (Sequence.at page limits eip) ds := by
  have hoffset := (offsetOf eip).isLt
  obtain ⟨ds, htaken⟩ : ∃ ds, Takes page limits (offsetOf eip).val eip 0
      (codeLength (prologue (.trampoline .first))) 1 ds (Sequence.at page limits eip) :=
    takes_takeInstructions pageSize (Nat.le_of_lt hoffset) (Nat.le_add_left ..) ..
  obtain ⟨hstop, hfirst⟩ := last_at hl page eip
  have hbytes := (stop_at hl page eip).1
  rw [htaken.stop_eq] at hstop hbytes
  have hinside := htaken.add_extent_le (Nat.le_of_lt hoffset)
  have hlast : (Sequence.at page limits eip).last.val + 1 = (offsetOf eip).val + extent ds := hstop
  refine ⟨ds,
    { taken := htaken, run := htaken.eq_decodeRun, nonempty := fun hnil => ?_, few := ?_,
      compiled := fun _ _ hk => htaken.getElem?_instructions hk,
      interpreted := fun _ hx => htaken.of_interpret hx, all := htaken.length_instructions_eq,
      inside := hinside, first := hfirst, last := ?_, past := ?_,
      onward := fun _ hx => htaken.onward_eq hx, call := fun p hp target hcall label => ?_ }⟩
  · rw [hnil, extent_nil] at hbytes
    omega
  · have := htaken.length_instructions_le (Nat.zero_le _)
    omega
  · omega
  · have hsum : (addressOf (pageOf eip) (Sequence.at page limits eip).last) + 1 =
        (pageOf eip * pageSize + (Sequence.at page limits eip).last.val + 1).toUInt32 :=
      (UInt32.ofNat_add _ 1).symm
    rw [hsum, Nat.add_assoc, hlast, ← Nat.add_assoc, pageOf_mul_add_offsetOf]
    exact (congrArg (· + (extent ds).toUInt32) UInt32.ofNat_toNat.symm).trans
      (UInt32.ofNat_add ..).symm
  · rw [← htaken.next_of_call hp hcall, Placed.body, hcall]
    rfl

end Sequence

end Recompiler
