import Recompiler.Proofs.Compile.Listing

/-!
# What is filled in

While operations are written a displacement is filled in for each label that is
placed and that a branch waits for.  Here these are listed in order of time, beside
the writing.  Where no displacement is filled in the bytes are those that the
operations have by themselves; where one is filled in once, it stays.
-/

namespace Recompiler

/-- A displacement that is filled in, and the position it leads to. -/
structure Patch where
  field : Nat
  target : Nat
  deriving DecidableEq

def Patch.Misses (x : Patch) (i : Nat) : Prop := i < x.field ∨ x.field + 4 ≤ i

def Patch.Apart (x y : Patch) : Prop := x.field + 4 ≤ y.field ∨ y.field + 4 ≤ x.field

namespace Pen

def patch? (p : Pen) : Operation → Option Patch
  | .place label => (p.labels.lookup label).map (⟨·, p.cursor⟩)
  | _ => none

/-- What is filled in while operations are written, in order of time. -/
def patches (base : Nat) : Pen → List Operation → List Patch
  | _, [] => []
  | p, op :: rest => (p.patch? op).toList ++ patches base (p.emit base op) rest

def writeAll (p : Pen) (base : Nat) (ops : List Operation) : Pen :=
  ops.foldl (fun p op => p.append (op.code (base + p.cursor))) p

theorem patches_append (base : Nat) (p : Pen) (xs ys : List Operation) :
    p.patches base (xs ++ ys) = p.patches base xs ++ (p.emitAll base xs).patches base ys := by
  induction xs generalizing p with
  | nil => rfl
  | cons op rest ih => rw [List.cons_append, patches, patches, ih, List.append_assoc]; rfl

variable {p : Pen} {base i : Nat}

/-! ## Bytes that are filled in, and bytes that are not -/

/-- An operation leaves the bytes of its code, but for what it fills in. -/
theorem read_emit_of_misses {op : Operation} (h : ∀ x ∈ p.patch? op, x.Misses i) :
    (p.emit base op).image.read i =
      (p.append (op.code (base + p.cursor))).image.read i := by
  rw [emit_eq]
  cases op with
  | place label =>
      rw [settle]
      split
      · next position hlookup =>
          refine read_patch_of_outside (h ⟨position, p.cursor⟩ ?_)
          rw [patch?, show p.labels.lookup label = some position from hlookup]
          rfl
      · rfl
  | _ => rfl

/-- **Nothing changes but what is filled in.** -/
theorem read_emitAll_of_misses {ops : List Operation}
    (h : ∀ x ∈ p.patches base ops, x.Misses i) {q : Pen} (hcursor : q.cursor = p.cursor)
    (hread : q.image.read i = p.image.read i) :
    (p.emitAll base ops).image.read i = (q.writeAll base ops).image.read i := by
  induction ops generalizing p q with
  | nil => exact hread.symm
  | cons op rest ih =>
      obtain ⟨hop, hrest⟩ := List.forall_mem_append.mp h
      refine ih hrest ?_ ?_
      · rw [cursor_emit, ← hcursor]
        rfl
      · rw [read_emit_of_misses fun x hx => hop x (Option.mem_toList.mpr hx), read_append,
          read_append, hcursor, hread]

theorem read_writeAll_of_lt (hi : i < p.cursor) (ops : List Operation) :
    (p.writeAll base ops).image.read i = p.image.read i := by
  induction ops generalizing p with
  | nil => rfl
  | cons op rest ih =>
      refine (ih (p := p.append _) (Nat.lt_of_lt_of_le hi (Nat.le_add_right ..))).trans ?_
      exact read_append_of_outside _ (Or.inl hi)

/-- **What is filled in once stays.** -/
theorem Within.slice_emitAll_of_mem {start : Nat} (h : Within start p) {ops : List Operation}
    (hapart : (p.patches base ops).Pairwise Patch.Apart) {x : Patch}
    (hx : x ∈ p.patches base ops) :
    (p.emitAll base ops).image.slice x.field 4 =
      (HostInstruction.bytes32 (displacement (x.target - (x.field + 4 : Nat)))).map
        CodeByte.literal := by
  induction ops generalizing p with
  | nil => cases hx
  | cons op rest ih =>
      obtain ⟨_, hrest, hfirst⟩ := List.pairwise_append.mp hapart
      rcases List.mem_append.mp hx with hx | hx
      · have hnow := hfirst x hx
        rw [Option.mem_toList] at hx
        cases op with
        | place label =>
            obtain ⟨position, hlookup, rfl⟩ := Option.map_eq_some_iff.mp hx
            have hput : (p.emit base (.place label)).image.slice position 4 = _ :=
              slice_emit_place hlookup
            rw [← hput]
            refine Image.slice_congr fun i (hi : position ≤ i) (hlt : i < position + 4) => ?_
            have hbefore := h.position_le hlookup
            have hcursor := le_cursor_emitAll p base [.place label]
            refine (read_emitAll_of_misses (p := p.emit base (.place label)) ?_ rfl rfl).trans
              (read_writeAll_of_lt (Nat.lt_of_lt_of_le ?_ hcursor) rest)
            · intro y hy
              have := hnow y hy
              simp only [Patch.Apart, Patch.Misses] at this ⊢
              omega
            · exact Nat.lt_of_lt_of_le hlt hbefore
        | _ => cases hx
      · exact ih (h.emit base op) hrest hx

end Pen

/-! ## Which displacements are filled in -/

def Operation.branch? : Operation → Option (BranchCondition × Nat)
  | .branch cond label => some (cond, label)
  | _ => none

/-- Where the displacements of branches are when operations are written from a cursor on:
the last four bytes of each, in order. -/
def fields : (cursor : Nat) → List Operation → List Nat
  | _, [] => []
  | cursor, op :: rest =>
      op.branch?.toList.map (fun _ => cursor + op.codeLength - 4) ++
        fields (cursor + op.codeLength) rest

def places : (cursor : Nat) → List Operation → Labels
  | _, [] => []
  | cursor, .place label :: rest => (label, cursor) :: places cursor rest
  | cursor, op :: rest => places (cursor + op.codeLength) rest

theorem fields_append (cursor : Nat) (xs ys : List Operation) :
    fields cursor (xs ++ ys) = fields cursor xs ++ fields (cursor + codeLength xs) ys := by
  induction xs generalizing cursor with
  | nil => rfl
  | cons op rest ih =>
      rw [List.cons_append, fields, fields, ih, codeLength_cons, List.append_assoc,
        Nat.add_assoc cursor]

theorem length_fields (cursor : Nat) (ops : List Operation) :
    (fields cursor ops).length = (ops.filterMap Operation.branch?).length := by
  induction ops generalizing cursor with
  | nil => rfl
  | cons op rest ih =>
      rw [fields, List.length_append, ih, List.length_map]
      cases hop : op.branch? with
      | none => rw [List.filterMap_cons_none hop]; exact Nat.zero_add _
      | some x => rw [List.filterMap_cons_some hop]; exact Nat.add_comm ..

theorem fields_of_branchless {ops : List Operation} (h : ops.filterMap Operation.branch? = [])
    (cursor : Nat) : fields cursor ops = [] :=
  List.eq_nil_of_length_eq_zero ((length_fields cursor ops).trans (congrArg List.length h))

theorem four_le_codeLength {op : Operation} {x : BranchCondition × Nat}
    (h : op.branch? = some x) : 4 ≤ op.codeLength := by
  cases op with
  | branch cond label => exact Pen.four_le_length_branch 0 cond label
  | _ => cases h

theorem bounds_of_mem_fields {cursor field : Nat} {ops : List Operation}
    (h : field ∈ fields cursor ops) :
    cursor ≤ field ∧ field + 4 ≤ cursor + codeLength ops := by
  induction ops generalizing cursor with
  | nil => cases h
  | cons op rest ih =>
      rw [codeLength_cons]
      rcases List.mem_append.mp h with h | h
      · obtain ⟨x, hx, rfl⟩ := List.mem_map.mp h
        have := four_le_codeLength (Option.mem_toList.mp hx)
        omega
      · have := ih h
        omega

theorem pairwise_fields (cursor : Nat) (ops : List Operation) :
    (fields cursor ops).Pairwise fun i j => i + 4 ≤ j := by
  induction ops generalizing cursor with
  | nil => exact .nil
  | cons op rest ih =>
      rw [fields]
      refine List.pairwise_append.mpr ⟨?_, ih _, fun i hi j hj => ?_⟩
      · cases op.branch? with
        | none => exact .nil
        | some _ => exact List.pairwise_singleton ..
      · obtain ⟨x, hx, rfl⟩ := List.mem_map.mp hi
        have := four_le_codeLength (Option.mem_toList.mp hx)
        have := (bounds_of_mem_fields hj).1
        omega

theorem codeLength_place (label : Nat) : (Operation.place label).codeLength = 0 := rfl

theorem places_cons {op : Operation} (h : ∀ label, op ≠ .place label) (cursor : Nat)
    (rest : List Operation) :
    places cursor (op :: rest) = places (cursor + op.codeLength) rest := by
  cases op with
  | place label => exact absurd rfl (h label)
  | _ => rfl

theorem places_append (cursor : Nat) (xs ys : List Operation) :
    places cursor (xs ++ ys) = places cursor xs ++ places (cursor + codeLength xs) ys := by
  induction xs generalizing cursor with
  | nil => rfl
  | cons op rest ih =>
      by_cases hop : ∃ label, op = .place label
      · obtain ⟨label, rfl⟩ := hop
        rw [List.cons_append, places, places, ih, codeLength_cons, codeLength_place, Nat.zero_add]
        rfl
      · have hop : ∀ label, op ≠ .place label := fun label he => hop ⟨label, he⟩
        rw [List.cons_append, places_cons hop, places_cons hop, ih, codeLength_cons, Nat.add_assoc]

theorem places_of_placeless {ops : List Operation} (h : ∀ label, .place label ∉ ops)
    (cursor : Nat) : places cursor ops = [] := by
  induction ops generalizing cursor with
  | nil => rfl
  | cons op rest ih =>
      rw [places_cons fun label he => h label (he ▸ List.mem_cons_self)]
      exact ih (fun label hm => h label (List.mem_cons_of_mem _ hm)) _

namespace Pen

variable {p : Pen} {base : Nat} {ops : List Operation}

/-- Branches wait for their labels, the latest first. -/
theorem labels_emitAll (hp : Portable ops) :
    (p.emitAll base ops).labels =
      (((ops.filterMap Operation.branch?).map Prod.snd).zip (fields p.cursor ops)).reverse ++
        p.labels := by
  induction ops generalizing p with
  | nil => rfl
  | cons op rest ih =>
      obtain ⟨hop, hrest⟩ := portable_cons.mp hp
      have hcursor : (p.emit base op).cursor = p.cursor + op.codeLength := by
        rw [cursor_emit, hop.code_eq]
        rfl
      show ((p.emit base op).emitAll base rest).labels = _
      rw [ih hrest, hcursor]
      by_cases hbranch : ∃ cond label, op = .branch cond label
      · obtain ⟨cond, label, rfl⟩ := hbranch
        have hend : Operation.codeEnd base p.cursor (.branch cond label) =
            p.cursor + (Operation.branch cond label).codeLength := by
          rw [Operation.codeEnd, hop.code_eq]
          rfl
        rw [labels_emit_branch, hend, List.append_cons, ← List.reverse_cons]
        rfl
      · have hno : op.branch? = none := by
          cases op with
          | branch cond label => exact absurd ⟨cond, label, rfl⟩ hbranch
          | _ => rfl
        rw [labels_emit fun cond label he => hbranch ⟨cond, label, he⟩,
          List.filterMap_cons_none hno, fields, hno]
        rfl

theorem patches_of_placeless (h : ∀ label, .place label ∉ ops) (base : Nat) (p : Pen) :
    p.patches base ops = [] := by
  induction ops generalizing p with
  | nil => rfl
  | cons op rest ih =>
      rw [patches, ih fun label hm => h label (List.mem_cons_of_mem _ hm)]
      cases op with
      | place label => exact absurd List.mem_cons_self (h label)
      | _ => rfl

/-- While no branch is written the labels placed are those waited for. -/
theorem patches_of_branchless (hp : Portable ops) (h : ops.filterMap Operation.branch? = []) :
    p.patches base ops =
      (places p.cursor ops).filterMap fun x => (p.labels.lookup x.1).map (⟨·, x.2⟩) := by
  induction ops generalizing p with
  | nil => rfl
  | cons op rest ih =>
      obtain ⟨hop, hrest⟩ := portable_cons.mp hp
      have hno : op.branch? = none ∧ rest.filterMap Operation.branch? = [] := by
        cases hb : op.branch? with
        | none => exact ⟨rfl, (List.filterMap_cons_none hb).symm.trans h⟩
        | some x =>
            rw [List.filterMap_cons_some hb] at h
            cases h
      have hcursor : (p.emit base op).cursor = p.cursor + op.codeLength := by
        rw [cursor_emit, hop.code_eq]
        rfl
      have hlabels : (p.emit base op).labels = p.labels := labels_emit fun cond label he => by
        rw [he] at hno
        cases hno.1
      rw [patches, ih hrest hno.2, hcursor, hlabels]
      by_cases hplace : ∃ label, op = .place label
      · obtain ⟨label, rfl⟩ := hplace
        rw [places, List.filterMap_cons, codeLength_place, Nat.add_zero, patch?]
        cases p.labels.lookup label with
        | none => rfl
        | some position => rfl
      · have hplace : ∀ label, op ≠ .place label := fun label he => hplace ⟨label, he⟩
        rw [places_cons hplace]
        cases op with
        | place label => exact absurd rfl (hplace label)
        | _ => rfl

end Pen

end Recompiler
