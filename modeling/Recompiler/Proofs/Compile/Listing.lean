import Recompiler.Proofs.Compile.Emission

/-!
# What stands in the end

Code is written from front to back, and a branch forward is written before it is
known where it leads: its displacement is filled in when its label is placed.
What stands in the end is said here without any filling in, by looking ahead from
each branch for the place of its label (`listing`).
-/

namespace Recompiler

/-! ## What is to be read -/

def HostInstruction.toward (disp : UInt32) : HostInstruction → HostInstruction
  | jumpRel _ => jumpRel disp
  | jumpIf cond _ => jumpIf cond disp
  | i => i

def Operation.codeEnd (base cursor : Nat) (op : Operation) : Nat :=
  cursor + (op.code (base + cursor)).length

/-- Where a branch to `label` leads that stands in front of some operations: to the last
place of the label before another branch takes the label over. -/
def landing (base label : Nat) : Nat → List Operation → Option Nat
  | _, [] => none
  | cursor, op :: rest =>
      let later := landing base label (op.codeEnd base cursor) rest
      match op with
      | .branch _ other => if other = label then none else later
      | .place other => if other = label then later.or (some cursor) else later
      | _ => later

/-- How far it is from `next`, where a branch to `label` ends, to where it leads.  A branch
whose label is never placed leads nowhere. -/
def reach (base label next : Nat) (rest : List Operation) : UInt32 :=
  ((landing base label next rest).map fun target => displacement (target - next)).getD 0

/-- The instructions that operations stand for in the end. -/
def listing (base : Nat) : Nat → List Operation → List HostInstruction
  | _, [] => []
  | cursor, op :: rest =>
      let next := op.codeEnd base cursor
      (match op with
        | .branch cond label => cond.instructions.map (.toward (reach base label next rest))
        | op => op.instructions (base + cursor)) ++ listing base next rest

theorem listing_cons {op : Operation} (h : ∀ cond label, op ≠ .branch cond label)
    (base cursor : Nat) (rest : List Operation) :
    listing base cursor (op :: rest) =
      op.instructions (base + cursor) ++ listing base (op.codeEnd base cursor) rest := by
  cases op with
  | branch cond label => exact absurd rfl (h cond label)
  | _ => rfl

/-! ## A byte stays once nothing is to be filled in there -/

theorem Image.slice_add (m : Image) (i j k : Nat) :
    m.slice i (j + k) = m.slice i j ++ m.slice (i + j) k := by
  simp only [slice, List.range_add, List.map_append, List.map_map, Function.comp_def,
    Nat.add_assoc]

theorem Image.slice_congr {m n : Image} {i k : Nat}
    (h : ∀ j, i ≤ j → j < i + k → m.read j = n.read j) : m.slice i k = n.slice i k := by
  apply List.map_congr_left
  intro j hj
  rw [List.mem_range] at hj
  exact h _ (Nat.le_add_right ..) (by omega)

theorem Image.slice_put (m : Image) (i : Nat) (bs : List CodeByte) :
    (m.put i bs).slice i bs.length = bs := by
  apply List.ext_getElem
  · rw [slice, List.length_map, List.length_range]
  · intro j h1 h2
    simp only [slice, List.getElem_map, List.getElem_range]
    rw [read_put, if_pos (Nat.le_add_right ..), Nat.add_sub_cancel_left,
      List.getElem?_eq_getElem h2, Option.getD_some]

namespace Pen

/-- Whether a byte belongs to no displacement that is still to be filled in. -/
def Settled (p : Pen) (i : Nat) : Prop :=
  ∀ label position, p.labels.lookup label = some position → i < position ∨ position + 4 ≤ i

variable {p : Pen} {base i : Nat} {op : Operation}

theorem labels_settle (h : ∀ cond label, op ≠ .branch cond label) :
    (p.settle op).labels = p.labels := by
  unfold settle
  split
  · next cond label => exact absurd rfl (h cond label)
  · split <;> rfl
  · rfl

theorem labels_emit (h : ∀ cond label, op ≠ .branch cond label) :
    (p.emit base op).labels = p.labels := by
  rw [emit_eq, labels_settle h]
  rfl

theorem labels_emit_branch (cond : BranchCondition) (label : Nat) :
    (p.emit base (.branch cond label)).labels =
      (label, Operation.codeEnd base p.cursor (.branch cond label) - 4) :: p.labels := by
  rw [emit_eq]
  rfl

theorem le_codeEnd (base cursor : Nat) (cond : BranchCondition) (label : Nat) :
    cursor + 4 ≤ Operation.codeEnd base cursor (.branch cond label) :=
  Nat.add_le_add_left (four_le_length_branch _ cond label) _

/-- An operation changes what is in front of it only in the displacement of the branch whose
label it places. -/
theorem read_emit_of_lt (hi : i < p.cursor)
    (h : ∀ label position, op = .place label → p.labels.lookup label = some position →
      i < position ∨ position + 4 ≤ i) :
    (p.emit base op).image.read i = p.image.read i := by
  rw [emit_eq, ← read_append_of_outside (op.code (base + p.cursor)) (Or.inl hi)]
  cases op with
  | place label =>
      rw [settle]
      split
      · next position hlookup => exact read_patch_of_outside (h label position rfl hlookup)
      · rfl
  | _ => rfl

theorem Settled.emit (h : p.Settled i) (hi : i < p.cursor) : (p.emit base op).Settled i := by
  intro label position hlookup
  by_cases hbranch : ∃ cond other, op = .branch cond other
  · obtain ⟨cond, other, rfl⟩ := hbranch
    have hle := le_codeEnd base p.cursor cond other
    rw [labels_emit_branch, List.lookup_cons] at hlookup
    split at hlookup
    · cases hlookup
      omega
    · exact h label position hlookup
  · rw [labels_emit fun cond other hop => hbranch ⟨cond, other, hop⟩] at hlookup
    exact h label position hlookup

theorem read_emitAll_of_settled (h : p.Settled i) (hi : i < p.cursor) (ops : List Operation) :
    (p.emitAll base ops).image.read i = p.image.read i := by
  induction ops generalizing p with
  | nil => rfl
  | cons op rest ih =>
      have hcursor := le_cursor_emitAll p base [op]
      show ((p.emit base op).emitAll base rest).image.read i = _
      rw [ih (h.emit hi) (Nat.lt_of_lt_of_le hi hcursor), read_emit_of_lt hi]
      intro label position _ hlookup
      exact h label position hlookup

/-! ## A displacement ends as the distance to its label -/

/-- Whether the four bytes at `position` are the displacement of the branch that waits for
`label`. -/
structure Awaits (p : Pen) (label position : Nat) : Prop where
  lookup : p.labels.lookup label = some position
  before : position + 4 ≤ p.cursor
  apart : ∀ other place, other ≠ label → p.labels.lookup other = some place →
    place + 4 ≤ position ∨ position + 4 ≤ place

variable {label position : Nat}

theorem Awaits.emit (h : p.Awaits label position) (hop : ∀ cond, op ≠ .branch cond label) :
    (p.emit base op).Awaits label position := by
  have hbefore := h.before
  have hcursor := Nat.le_trans hbefore (le_cursor_emitAll p base [op])
  by_cases hbranch : ∃ cond other, op = .branch cond other
  · obtain ⟨cond, other, rfl⟩ := hbranch
    have hne : label ≠ other := by
      rintro rfl
      exact hop cond rfl
    have hle := le_codeEnd base p.cursor cond other
    refine ⟨?_, hcursor, ?_⟩
    · rw [labels_emit_branch, List.lookup_cons, beq_eq_false_iff_ne.mpr hne]
      exact h.lookup
    · intro another place hanother hlookup
      rw [labels_emit_branch, List.lookup_cons] at hlookup
      split at hlookup
      · cases hlookup
        omega
      · exact h.apart another place hanother hlookup
  · have hlabels : (p.emit base op).labels = p.labels :=
      labels_emit fun cond other hop => hbranch ⟨cond, other, hop⟩
    refine ⟨?_, hcursor, ?_⟩
    · rw [hlabels]
      exact h.lookup
    · rw [hlabels]
      exact h.apart

/-- A branch to the same label takes it over. -/
theorem Awaits.settled_emit_branch (h : p.Awaits label position) (cond : BranchCondition)
    (hi : position ≤ i) (hlt : i < position + 4) :
    (p.emit base (.branch cond label)).Settled i := by
  intro other place hlookup
  have hbefore := h.before
  have hle := le_codeEnd base p.cursor cond label
  rw [labels_emit_branch, List.lookup_cons] at hlookup
  split at hlookup
  · cases hlookup
    omega
  · next hne =>
      have := h.apart other place (by simpa using hne) hlookup
      omega

/-- A label other than the one waited for is placed without a change at `position`. -/
theorem Awaits.read_emit (h : p.Awaits label position) (hop : op ≠ .place label)
    (hi : position ≤ i) (hlt : i < position + 4) :
    (p.emit base op).image.read i = p.image.read i := by
  have hbefore := h.before
  refine read_emit_of_lt (by omega) ?_
  rintro other place rfl hlookup
  have hne : other ≠ label := by
    rintro rfl
    exact hop rfl
  have := h.apart other place hne hlookup
  omega

theorem emit_place (p : Pen) (base label : Nat) :
    p.emit base (.place label) = p.settle (.place label) := by
  rw [emit_eq]
  rfl

theorem slice_emit_place (h : p.labels.lookup label = some position) :
    (p.emit base (.place label)).image.slice position 4 =
      (HostInstruction.bytes32 (displacement (p.cursor - (position + 4 : Nat)))).map
        CodeByte.literal := by
  rw [emit_place, settle, h]
  exact Image.slice_put ..

theorem landing_cons {cursor : Nat} {rest : List Operation}
    (hbranch : ∀ cond, op ≠ .branch cond label) (hplace : op ≠ .place label) :
    landing base label cursor (op :: rest) =
      landing base label (op.codeEnd base cursor) rest := by
  cases op with
  | branch cond other =>
      rw [landing, if_neg]
      rintro rfl
      exact hbranch cond rfl
  | place other =>
      rw [landing, if_neg]
      rintro rfl
      exact hplace rfl
  | _ => rfl

/-- **The displacement of a branch ends as the distance to where its label is placed.** -/
theorem Awaits.slice_emitAll (h : p.Awaits label position) (base : Nat) (ops : List Operation) :
    (p.emitAll base ops).image.slice position 4 =
      ((landing base label p.cursor ops).map fun target =>
        (HostInstruction.bytes32 (displacement (target - (position + 4 : Nat)))).map
          CodeByte.literal).getD (p.image.slice position 4) := by
  induction ops generalizing p with
  | nil => rfl
  | cons op rest ih =>
      have hcursor : (p.emit base op).cursor = op.codeEnd base p.cursor := cursor_emit p base op
      have hbefore := h.before
      show ((p.emit base op).emitAll base rest).image.slice position 4 = _
      by_cases hbranch : ∃ cond, op = .branch cond label
      · obtain ⟨cond, rfl⟩ := hbranch
        rw [landing, if_pos rfl]
        show _ = p.image.slice position 4
        apply Image.slice_congr
        intro i hi hlt
        have hle := le_cursor_emitAll p base [.branch cond label]
        rw [read_emitAll_of_settled (h.settled_emit_branch cond hi hlt)
          (Nat.lt_of_lt_of_le (by omega) hle), h.read_emit (by rintro ⟨⟩) hi hlt]
      · rw [ih (h.emit fun cond hop => hbranch ⟨cond, hop⟩), hcursor]
        by_cases hplace : op = .place label
        · subst hplace
          rw [landing, if_pos rfl, slice_emit_place h.lookup]
          cases landing base label (Operation.codeEnd base p.cursor (.place label)) rest with
          | none => rfl
          | some target => rfl
        · have hslice : (p.emit base op).image.slice position 4 = p.image.slice position 4 :=
            Image.slice_congr fun i hi hlt => h.read_emit hplace hi hlt
          rw [hslice, landing_cons (fun cond hop => hbranch ⟨cond, hop⟩) hplace]

end Pen

/-! ## The whole stretch -/

/-- The displacement of a branch ends its code, and nothing else in the code depends on it. -/
theorem BranchCondition.exists_front (cond : BranchCondition) :
    ∃ front, ∀ disp,
      (cond.instructions.map (HostInstruction.toward disp)).flatMap HostInstruction.encode =
        front ++ (HostInstruction.bytes32 disp).map CodeByte.literal := by
  cases cond with
  | always => exact ⟨[.literal 0xE9], fun _ => rfl⟩
  | nonZero reg =>
      refine ⟨(HostInstruction.alu .test reg.host reg.host).encode ++
        [.literal 0x0F, .literal 0x85], fun disp => ?_⟩
      cases reg <;> rfl
  | lessOrEqualZero reg =>
      refine ⟨(HostInstruction.alu .test reg.host reg.host).encode ++
        [.literal 0x0F, .literal 0x8E], fun disp => ?_⟩
      cases reg <;> rfl
  | guest cond => exact ⟨[.literal 0x0F, .literal (0x80 ||| cond.number.toUInt8)], fun _ => rfl⟩

theorem BranchCondition.map_toward_zero (cond : BranchCondition) :
    cond.instructions.map (HostInstruction.toward 0) = cond.instructions := by
  cases cond <;> rfl

namespace Pen

variable {p : Pen} {start : Nat}

theorem Within.position_le (h : Within start p) {label position : Nat}
    (hlookup : p.labels.lookup label = some position) : position + 4 ≤ p.cursor :=
  (h.labels _ (mem_of_lookup hlookup)).2

theorem slice_append (p : Pen) (bs : List CodeByte) :
    (p.append bs).image.slice p.cursor bs.length = bs := Image.slice_put ..

theorem image_settle {op : Operation} (h : ∀ label, op ≠ .place label) :
    (p.settle op).image = p.image := by
  unfold settle
  split
  · rfl
  · next label => exact absurd rfl (h label)
  · rfl

theorem slice_emit (p : Pen) (base : Nat) (op : Operation) :
    (p.emit base op).image.slice p.cursor (op.code (base + p.cursor)).length =
      op.code (base + p.cursor) := by
  by_cases hplace : ∃ label, op = .place label
  · obtain ⟨label, rfl⟩ := hplace
    rfl
  · rw [emit_eq, image_settle fun label hop => hplace ⟨label, hop⟩, slice_append]

/-- Of the code of an operation only the displacement of a branch is still to be filled in. -/
theorem Within.settled_emit (h : Within start p) {base i : Nat} {op : Operation}
    (hi : p.cursor ≤ i)
    (hbranch : ∀ cond label, op = .branch cond label → i + 4 < op.codeEnd base p.cursor) :
    (p.emit base op).Settled i := by
  intro label position hlookup
  by_cases hop : ∃ cond other, op = .branch cond other
  · obtain ⟨cond, other, rfl⟩ := hop
    have hlt := hbranch cond other rfl
    rw [labels_emit_branch, List.lookup_cons] at hlookup
    split at hlookup
    · cases hlookup
      omega
    · have := h.position_le hlookup
      omega
  · rw [labels_emit fun cond other h => hop ⟨cond, other, h⟩] at hlookup
    have := h.position_le hlookup
    omega

/-- What is settled of an operation's code stays as it is written. -/
theorem Within.slice_emitAll_cons (h : Within start p) (base : Nat) {op : Operation} {length : Nat}
    (hlength : p.cursor + length ≤ op.codeEnd base p.cursor)
    (hbranch : ∀ cond label, op = .branch cond label →
      p.cursor + length + 4 ≤ op.codeEnd base p.cursor) (rest : List Operation) :
    (p.emitAll base (op :: rest)).image.slice p.cursor length =
      (p.emit base op).image.slice p.cursor length := by
  apply Image.slice_congr
  intro i hi hlt
  refine read_emitAll_of_settled (p := p.emit base op) (h.settled_emit hi ?_) ?_ rest
  · intro cond label hop
    have := hbranch cond label hop
    omega
  · rw [cursor_emit]
    exact Nat.lt_of_lt_of_le hlt hlength

theorem Within.awaits (h : Within start p) (base : Nat) (cond : BranchCondition) (label : Nat) :
    (p.emit base (.branch cond label)).Awaits label
      (Operation.codeEnd base p.cursor (.branch cond label) - 4) := by
  have hle := le_codeEnd base p.cursor cond label
  refine ⟨?_, ?_, ?_⟩
  · rw [labels_emit_branch, List.lookup_cons_self]
  · rw [cursor_emit]
    exact Nat.le_of_eq (Nat.sub_add_cancel (by omega))
  · intro other place hne hlookup
    rw [labels_emit_branch, List.lookup_cons, beq_eq_false_iff_ne.mpr hne] at hlookup
    have := h.position_le hlookup
    omega

/-- The code of a branch ends as one to the place of its label. -/
theorem Within.slice_emitAll_branch (h : Within start p) (base : Nat) (cond : BranchCondition)
    (label : Nat) (rest : List Operation) :
    (p.emitAll base (.branch cond label :: rest)).image.slice p.cursor
        ((Operation.branch cond label).code (base + p.cursor)).length =
      (cond.instructions.map (.toward (reach base label
        (Operation.codeEnd base p.cursor (.branch cond label)) rest))).flatMap
          HostInstruction.encode := by
  obtain ⟨front, hfront⟩ := cond.exists_front
  have hcode : (Operation.branch cond label).code (base + p.cursor) =
      front ++ (HostInstruction.bytes32 0).map CodeByte.literal := by
    rw [← hfront, cond.map_toward_zero]
    rfl
  have hlength : ((Operation.branch cond label).code (base + p.cursor)).length =
      front.length + 4 := by
    rw [hcode, List.length_append, List.length_map, HostInstruction.length_bytes32]
  have hend : Operation.codeEnd base p.cursor (.branch cond label) =
      p.cursor + front.length + 4 := by
    rw [Operation.codeEnd, hlength, Nat.add_assoc]
  have hwritten := slice_emit p base (.branch cond label)
  rw [hlength, Image.slice_add, hcode] at hwritten
  obtain ⟨hfirst, hlast⟩ := List.append_inj hwritten (by
    rw [Image.slice, List.length_map, List.length_range])
  have hawaits := h.awaits base cond label
  rw [hend, Nat.add_sub_cancel] at hawaits
  have hfilled := hawaits.slice_emitAll base rest
  rw [hlast, cursor_emit, hlength, ← Nat.add_assoc] at hfilled
  rw [hfront, hlength, Image.slice_add]
  congr 1
  · rw [h.slice_emitAll_cons base (by omega) (fun _ _ _ => by omega) rest, hfirst]
  · refine hfilled.trans ?_
    rw [reach, hend]
    cases landing base label (p.cursor + front.length + 4) rest with
    | none => rfl
    | some target => rfl

/-- **What is written in the end is the listing.** -/
theorem Within.slice_emitAll (h : Within start p) (base : Nat) (ops : List Operation) :
    (p.emitAll base ops).image.slice p.cursor ((p.emitAll base ops).cursor - p.cursor) =
      (listing base p.cursor ops).flatMap HostInstruction.encode := by
  induction ops generalizing p with
  | nil =>
      show p.image.slice p.cursor (p.cursor - p.cursor) = []
      rw [Nat.sub_self]
      rfl
  | cons op rest ih =>
      have hcursor : (p.emit base op).cursor = op.codeEnd base p.cursor := cursor_emit p base op
      have hend : op.codeEnd base p.cursor = p.cursor + (op.code (base + p.cursor)).length := rfl
      have hle := le_cursor_emitAll (p.emit base op) base rest
      have hsplit : (p.emitAll base (op :: rest)).cursor - p.cursor =
          (op.code (base + p.cursor)).length +
            (((p.emit base op).emitAll base rest).cursor - (p.emit base op).cursor) := by
        show ((p.emit base op).emitAll base rest).cursor - p.cursor = _
        omega
      have hrest := ih (h.emit base op)
      rw [hcursor, hend] at hrest
      rw [hsplit, Image.slice_add, hcursor, hend]
      by_cases hbranch : ∃ cond label, op = .branch cond label
      · obtain ⟨cond, label, rfl⟩ := hbranch
        rw [h.slice_emitAll_branch, listing, List.flatMap_append]
        exact congrArg _ hrest
      · have hop : ∀ cond label, op ≠ .branch cond label :=
          fun cond label hop => hbranch ⟨cond, label, hop⟩
        have hwhole := h.slice_emitAll_cons base (Nat.le_refl _)
          (fun cond label hbranch => absurd hbranch (hop cond label)) rest
        rw [hwhole, slice_emit, listing_cons hop, List.flatMap_append]
        exact congrArg _ hrest

end Pen

end Recompiler
