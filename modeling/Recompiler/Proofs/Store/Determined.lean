import Recompiler.Proofs.Store.Compile

/-!
# What a translation depends on

A block records the bytes it was compiled from, from its first to its last.  A
page that holds the same bytes there is translated to the same block, whatever it
holds elsewhere: no byte that is not recorded has a say in what ends a block, in
what shape it has, or in what is left to the interpreter.  This is what makes it
enough to intercept writes to recorded bytes.
-/

namespace Recompiler

namespace Sequence

variable {p q : Vector UInt8 pageSize} {l : Limits} {eip : UInt32}

/-- The bytes that instructions are taken from are recorded, whatever the limits
are. -/
theorem le_last_of_lt_stop {i : Nat} (hi : i < (Sequence.at p l eip).stop) :
    i ≤ (Sequence.at p l eip).last.val := by
  have hstop : (Sequence.at p l eip).stop ≤ pageSize :=
    (stop_takeInstructions _ (Nat.le_of_lt (offsetOf eip).isLt) _ _ _ _).2
  rw [Sequence.last]
  simp only [pageSize] at *
  omega

/-- Pages that agree from the first to the last recorded byte of a sequence give
that sequence. -/
theorem at_eq_of_agree
    (h : ∀ i, (offsetOf eip).val ≤ i → i ≤ (Sequence.at p l eip).last.val → p[i]? = q[i]?) :
    Sequence.at q l eip = Sequence.at p l eip :=
  takeInstructions_congr _ (Nat.le_of_lt (offsetOf eip).isLt) _ _ _ _ fun i h1 h2 =>
    h i h1 (le_last_of_lt_stop h2)

end Sequence

namespace CodeStore

/-- Compiling reads of a page what the block will record of it. -/
theorem compile_congr {p q : Vector UInt8 pageSize} {l : Limits} {eip : UInt32}
    (h : ∀ i, (offsetOf eip).val ≤ i → i ≤ (Sequence.at p l eip).last.val → p[i]? = q[i]?)
    (s : CodeStore) (watch : WatchId) : s.compile l watch q eip = s.compile l watch p eip := by
  have hbytes : bytesBetween q (offsetOf eip) (Sequence.at p l eip).last =
      bytesBetween p (offsetOf eip) (Sequence.at p l eip).last :=
    (bytesBetween_congr h).symm
  unfold compile indexBlock
  simp only [Sequence.at_eq_of_agree h, hbytes]

end CodeStore

/-- **A translation depends on its recorded source alone.**  Pages that agree on
the source that the block of one of them records are translated to blocks of one
shape, with the same last byte, as many instructions and the same code wherever it
is put; and compiling either does the same to compiled code, faults included. -/
theorem translation_eq_of_agree (l : Limits) (eip : UInt32) (p q : Vector UInt8 pageSize)
    (h : ∀ i, (offsetOf eip).val ≤ i → i ≤ (Sequence.at p l eip).last.val → p[i]? = q[i]?) :
    (Sequence.at q l eip).exit.kind = (Sequence.at p l eip).exit.kind ∧
      (Sequence.at q l eip).last = (Sequence.at p l eip).last ∧
      (Sequence.at q l eip).instructions.length = (Sequence.at p l eip).instructions.length ∧
      (∀ id position, assemble position ((Sequence.at q l eip).operations id) =
        assemble position ((Sequence.at p l eip).operations id)) ∧
      ∀ (s : CodeStore) (watch : WatchId), s.compile l watch q eip = s.compile l watch p eip := by
  have hsame := Sequence.at_eq_of_agree h
  refine ⟨?_, ?_, ?_, fun id position => ?_, CodeStore.compile_congr h⟩
  · rw [hsame]
  · rw [hsame]
  · rw [hsame]
  · rw [hsame]

/-- An instruction that the end of the page cuts off is recorded up to there, and
what the page holds before it does not matter. -/
theorem translation_eq_of_truncated :
    let p : Vector UInt8 pageSize := (Vector.replicate pageSize 0).set 4094 0xE9
    let q : Vector UInt8 pageSize := p.set 4093 0x90
    let l : Limits := ⟨8, leastBlockBytes, .ia32⟩
    (Sequence.at p l 0x1FFE).last = Fin.last 4095 ∧
      (∀ i, (offsetOf 0x1FFE).val ≤ i → i ≤ (Sequence.at p l 0x1FFE).last.val → p[i]? = q[i]?) ∧
      p ≠ q ∧ (Sequence.at q l 0x1FFE).exit.kind = .normal ∧
      (Sequence.at q l 0x1FFE).last = Fin.last 4095 ∧
      ∀ (s : CodeStore) (watch : WatchId),
        s.compile l watch q 0x1FFE = s.compile l watch p 0x1FFE := by
  intro p q l
  have hlast : (Sequence.at p l 0x1FFE).last = Fin.last 4095 := by decide +kernel
  have hkind : (Sequence.at p l 0x1FFE).exit.kind = .normal := by decide +kernel
  have hagree : ∀ i, (offsetOf 0x1FFE).val ≤ i → i ≤ (Sequence.at p l 0x1FFE).last.val →
      p[i]? = q[i]? := by
    intro i hi _
    have hi : 4094 ≤ i := hi
    exact (Vector.getElem?_set_ne (by decide) (by omega)).symm
  have hdiffer : p ≠ q := fun he => by
    have := congrArg (fun v : Vector UInt8 pageSize => v[4093]) he
    simp [p, q] at this
  obtain ⟨hk, hl, -, -, hcompile⟩ := translation_eq_of_agree l 0x1FFE p q hagree
  exact ⟨hlast, hagree, hdiffer, hk.trans hkind, hl.trans hlast, hcompile⟩

end Recompiler
