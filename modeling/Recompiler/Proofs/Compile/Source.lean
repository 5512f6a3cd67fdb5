import Mathlib.Data.List.Basic
import Recompiler.Compile.Sequence
import Recompiler.Settings

/-!
# The bytes a block is compiled from

An instruction is decided by the bytes it counts, so a block is decided by the
bytes from its first to its last: two pages that agree on those are compiled to
the same block.  That is why it is enough to watch them.
-/

namespace Recompiler

/-! ## One instruction -/

theorem window_eq_map (page : Vector UInt8 pageSize) (offset : Offset) :
    window page offset =
      (List.range (min maxInstructionLength (pageSize - offset.val))).map
        fun i => (page[offset.val + i]?).getD 0 := by
  refine List.filterMap_eq_map_iff_forall_eq_some.mpr fun i hi => ?_
  have hlt : offset.val + i < pageSize := by
    rw [List.mem_range] at hi
    omega
  simp [hlt]

@[simp] theorem length_window (page : Vector UInt8 pageSize) (offset : Offset) :
    (window page offset).length = min maxInstructionLength (pageSize - offset.val) := by
  rw [window_eq_map, List.length_map, List.length_range]

theorem take_window {p q : Vector UInt8 pageSize} {offset : Offset} {n : Nat}
    (h : ∀ i, offset.val ≤ i → i < offset.val + n → p[i]? = q[i]?) :
    (window p offset).take n = (window q offset).take n := by
  rw [window_eq_map, window_eq_map, ← List.map_take, ← List.map_take, List.take_range]
  refine List.map_congr_left fun i hi => ?_
  rw [List.mem_range] at hi
  rw [h (offset.val + i) (by omega) (by omega)]

namespace Decoder

variable (d : Decoder)

theorem add_length_le (page : Vector UInt8 pageSize) (offset : Offset) (ip : UInt32) :
    offset.val + (d.decode (window page offset) ip).length ≤ pageSize := by
  have h := d.length_le (window page offset) ip
  have ho := offset.isLt
  rw [length_window] at h
  omega

theorem length_window_pos (page : Vector UInt8 pageSize) (offset : Offset) (ip : UInt32) :
    0 < (d.decode (window page offset) ip).length := by
  refine d.length_pos (fun h => ?_) ip
  have := congrArg List.length h
  have ho := offset.isLt
  rw [length_window, List.length_nil, maxInstructionLength] at this
  omega

/-- No instruction is cut off at the end of its page, or made longer. -/
theorem clamp_eq (page : Vector UInt8 pageSize) (offset : Offset) (ip : UInt32) :
    max (min (offset.val + (d.decode (window page offset) ip).length) pageSize)
      (offset.val + 1) = offset.val + (d.decode (window page offset) ip).length := by
  rw [Nat.min_eq_left (d.add_length_le page offset ip)]
  exact Nat.max_eq_left (Nat.add_le_add_left (d.length_window_pos page offset ip) _)

theorem window_congr {p q : Vector UInt8 pageSize} {offset : Offset} {ip : UInt32}
    (h : ∀ i, offset.val ≤ i → i < offset.val + (d.decode (window p offset) ip).length →
      p[i]? = q[i]?) :
    d.decode (window q offset) ip = d.decode (window p offset) ip :=
  d.congr (by rw [length_window, length_window]) (take_window h)

end Decoder

/-! ## A run of instructions -/

section Take

variable {page : Vector UInt8 pageSize} {limits : Limits}

theorem takeInstructions_succ (page : Vector UInt8 pageSize) (limits : Limits)
    (fuel : Nat) {offset : Nat} (ho : offset < pageSize) (eip : UInt32)
    (count written stubs : Nat) :
    takeInstructions page limits (fuel + 1) offset eip count written stubs =
      if limits.instructions ≤ count ∨ limits.full written stubs then
        ⟨[], .limit eip, offset⟩
      else
        let d := limits.decoder.decode (window page ⟨offset, ho⟩) eip
        let next := eip + d.length.toUInt32
        match d.instruction with
        | none => ⟨[], .interpret eip, offset + d.length⟩
        | some i =>
            match (⟨i, next⟩ : Placed).exit? with
            | some exit => ⟨[⟨i, next⟩], exit, offset + d.length⟩
            | none =>
                let rest := takeInstructions page limits fuel (offset + d.length) next (count + 1)
                  (written + codeLength ((⟨i, next⟩ : Placed).body 0))
                  (if i.stores then stubs + 1 else stubs)
                { rest with instructions := ⟨i, next⟩ :: rest.instructions } := by
  have hclamp := limits.decoder.clamp_eq page ⟨offset, ho⟩ eip
  have unfolded := takeInstructions.eq_2 page limits offset eip count written stubs fuel
  simp only [dif_pos ho, hclamp] at unfolded
  exact unfolded

theorem stop_takeInstructions (fuel : Nat) {offset : Nat} (ho : offset ≤ pageSize) (eip : UInt32)
    (count written stubs : Nat) :
    offset ≤ (takeInstructions page limits fuel offset eip count written stubs).stop ∧
      (takeInstructions page limits fuel offset eip count written stubs).stop ≤ pageSize := by
  induction fuel generalizing offset eip count written stubs with
  | zero => exact ⟨Nat.le_refl _, ho⟩
  | succ fuel ih =>
      by_cases hlt : offset < pageSize
      · have hend := limits.decoder.add_length_le page ⟨offset, hlt⟩ eip
        rw [takeInstructions_succ _ _ _ hlt]
        simp only
        split
        · exact ⟨Nat.le_refl _, ho⟩
        · split
          · exact ⟨Nat.le_add_right .., hend⟩
          · split
            · exact ⟨Nat.le_add_right .., hend⟩
            · obtain ⟨h1, h2⟩ := ih hend _ _ _ _
              exact ⟨Nat.le_trans (Nat.le_add_right ..) h1, h2⟩
      · rw [takeInstructions, dif_neg hlt]
        exact ⟨Nat.le_refl _, ho⟩

/-- Pages that agree on the bytes that instructions were taken from give the
same instructions. -/
theorem takeInstructions_congr {q : Vector UInt8 pageSize} (fuel : Nat) {offset : Nat}
    (ho : offset ≤ pageSize) (eip : UInt32) (count written stubs : Nat)
    (h : ∀ i, offset ≤ i →
      i < (takeInstructions page limits fuel offset eip count written stubs).stop →
      page[i]? = q[i]?) :
    takeInstructions q limits fuel offset eip count written stubs =
      takeInstructions page limits fuel offset eip count written stubs := by
  induction fuel generalizing offset eip count written stubs with
  | zero => rfl
  | succ fuel ih =>
      by_cases hlt : offset < pageSize
      · rw [takeInstructions_succ _ _ _ hlt] at h
        rw [takeInstructions_succ _ _ _ hlt, takeInstructions_succ _ _ _ hlt]
        simp only at h ⊢
        split
        · rfl
        · next hroom =>
            rw [if_neg hroom] at h
            have hend := limits.decoder.add_length_le page ⟨offset, hlt⟩ eip
            have hdecode : limits.decoder.decode (window q ⟨offset, hlt⟩) eip =
                limits.decoder.decode (window page ⟨offset, hlt⟩) eip := by
              refine limits.decoder.window_congr fun i h1 h2 => h i h1 ?_
              split
              · exact h2
              · split
                · exact h2
                · exact Nat.lt_of_lt_of_le h2 (stop_takeInstructions fuel hend _ _ _ _).1
            rw [hdecode]
            generalize limits.decoder.decode (window page ⟨offset, hlt⟩) eip = d at h hend ⊢
            cases hi : d.instruction with
            | none => rfl
            | some i =>
                rw [hi] at h
                simp only at h ⊢
                split
                · rfl
                · next hx =>
                    rw [hx] at h
                    simp only at h
                    rw [ih hend _ _ _ _ fun i h1 h2 =>
                      h i (Nat.le_trans (Nat.le_add_right ..) h1) h2]
      · rw [takeInstructions, dif_neg hlt, takeInstructions, dif_neg hlt]

end Take

/-! ## A block -/

/-- Limits under which every block holds an instruction. -/
structure Limits.Sufficient (l : Limits) : Prop where
  instructions : 0 < l.instructions
  codeBytes : leastBlockBytes ≤ l.codeBytes

theorem getElem?_eq_of_bytesBetween {p q : Vector UInt8 pageSize} {first last : Offset}
    (h : bytesBetween p first last = bytesBetween q first last) {i : Nat}
    (h1 : first.val ≤ i) (h2 : i ≤ last.val) : p[i]? = q[i]? := by
  have := congrArg (·[i - first.val]?) h
  have hi : first.val + (i - first.val) = i := by omega
  simp only [bytesBetween, List.getElem?_drop, hi, List.getElem?_take_of_lt (Nat.lt_succ_of_le h2)]
    at this
  simpa using this

theorem bytesBetween_congr {p q : Vector UInt8 pageSize} {first last : Offset}
    (h : ∀ i, first.val ≤ i → i ≤ last.val → p[i]? = q[i]?) :
    bytesBetween p first last = bytesBetween q first last := by
  refine List.ext_getElem? fun i => ?_
  simp only [bytesBetween, List.getElem?_drop, List.getElem?_take]
  split
  · next hlt =>
      have := h (first.val + i) (Nat.le_add_right ..) (Nat.le_of_lt_succ hlt)
      simpa using this
  · rfl

theorem codeLength_prologue (id : BlockId) : codeLength (prologue id) = 24 := rfl

theorem Limits.Sufficient.not_full_at_start {l : Limits} (h : l.Sufficient) (id : BlockId) :
    ¬ l.full (codeLength (prologue id)) 1 = true := by
  have := h.codeBytes
  rw [Limits.full, decide_eq_true_iff, codeLength_prologue]
  simp only [instructionRoom, exitRoom, stubRoom, leastBlockBytes] at *
  omega

namespace Sequence

variable {page : Vector UInt8 pageSize} {limits : Limits}

/-- A block holds at least one byte, and its bytes lie in one page. -/
theorem stop_at (hl : limits.Sufficient) (page : Vector UInt8 pageSize) (eip : UInt32) :
    (offsetOf eip).val < (Sequence.at page limits eip).stop ∧
      (Sequence.at page limits eip).stop ≤ pageSize := by
  have hlt := (offsetOf eip).isLt
  refine ⟨?_, (stop_takeInstructions _ (Nat.le_of_lt hlt) _ _ _ _).2⟩
  have hend := limits.decoder.add_length_le page (offsetOf eip) eip
  have hpos := limits.decoder.length_window_pos page (offsetOf eip) eip
  rw [Sequence.at, takeInstructions_succ page limits 4095 hlt, if_neg (not_or.mpr ⟨?_, ?_⟩)]
  · simp only
    split
    · exact Nat.lt_add_of_pos_right hpos
    · split
      · exact Nat.lt_add_of_pos_right hpos
      · exact Nat.lt_of_lt_of_le (Nat.lt_add_of_pos_right hpos)
          (stop_takeInstructions 4095 hend _ _ _ _).1
  · exact Nat.not_le.mpr hl.instructions
  · exact hl.not_full_at_start _

theorem last_at (hl : limits.Sufficient) (page : Vector UInt8 pageSize) (eip : UInt32) :
    (Sequence.at page limits eip).last.val + 1 = (Sequence.at page limits eip).stop ∧
      offsetOf eip ≤ (Sequence.at page limits eip).last := by
  obtain ⟨h1, h2⟩ := stop_at hl page eip
  rw [Fin.le_def]
  simp only [last, pageSize] at *
  omega

/-- **A block is decided by its source bytes.** -/
theorem at_congr (hl : limits.Sufficient) {q : Vector UInt8 pageSize} {eip : UInt32}
    (h : bytesBetween page (offsetOf eip) (Sequence.at page limits eip).last =
      bytesBetween q (offsetOf eip) (Sequence.at page limits eip).last) :
    Sequence.at q limits eip = Sequence.at page limits eip := by
  have hlast := (last_at hl page eip).1
  refine takeInstructions_congr _ (Nat.le_of_lt (offsetOf eip).isLt) _ _ _ _ fun i h1 h2 => ?_
  refine getElem?_eq_of_bytesBetween h h1 (Nat.le_of_lt_succ ?_)
  rw [Nat.succ_eq_add_one, hlast]
  exact h2

end Sequence

end Recompiler
