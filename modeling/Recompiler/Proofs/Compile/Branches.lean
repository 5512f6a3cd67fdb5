import Mathlib.Data.List.Induction
import Recompiler.Proofs.Compile.Calls
import Recompiler.Proofs.Compile.Follows
import Recompiler.Proofs.Compile.Patches

/-!
# The branches of a block

A block branches in its prologue, after each write, and on the condition of its exit.
All of these are forward: the exit that is taken and the stubs, in the order of their
branches, come after the last of them.  So every displacement is filled in once, with
the distance to the code its branch leads to, and nothing else is.
-/

namespace Recompiler

open Operation

/-! ## What a block branches for -/

/-- A branch of a block. -/
inductive Branching where
  /-- The budget is used up. -/
  | budget
  /-- A write met the running block, as the last of `count` instructions. -/
  | write (count : Nat) (resume : UInt32)
  /-- The condition of the exit holds, after `count` instructions. -/
  | taken (cond : Condition) (target : UInt32) (count : Nat)
  deriving DecidableEq

def Branching.condition : Branching → BranchCondition
  | budget => .lessOrEqualZero .ret
  | write _ _ => .nonZero .ret
  | taken cond _ _ => .guest cond

def Branching.way (id : BlockId) : Branching → List Operation
  | budget => [leave .cycles]
  | write count resume => leaveWith (some resume) count .selfModified
  | taken _ target count => leaveThrough id .second target count

/-- The branches of the writes of a run of instructions, of which `count` ran before. -/
def writeBranchings (count : Nat) : List Placed → List Branching
  | [] => []
  | p :: rest =>
      if p.instruction.stores then .write (count + 1) p.resume :: writeBranchings (count + 1) rest
      else writeBranchings (count + 1) rest

def Exit.branchings (count : Nat) : Exit → List Branching
  | branch cond taken _ => [.taken cond taken count]
  | _ => []

namespace Sequence

variable (s : Sequence)

def stubs : List Branching := .budget :: writeBranchings 0 s.instructions

def branchings : List Branching := s.stubs ++ s.exit.branchings s.instructions.length

end Sequence

/-! ## Branches first, ways behind -/

def stubCode (id : BlockId) : (label : Nat) → List Branching → List Operation
  | _, [] => []
  | label, b :: rest => place label :: (b.way id ++ stubCode id (label + 1) rest)

def stubTargets (id : BlockId) : (cursor : Nat) → List Branching → List Nat
  | _, [] => []
  | cursor, b :: rest => cursor :: stubTargets id (cursor + codeLength (b.way id)) rest

def Exit.opening (label : Nat) : Exit → List Operation
  | branch cond _ _ => [loadFlags Field.eflags, .branch (.guest cond) label]
  | _ => []

def Exit.closing (id : BlockId) (count label : Nat) : Exit → List Operation
  | branch _ taken notTaken =>
      leaveThrough id .first notTaken count ++ place label :: leaveThrough id .second taken count
  | e => e.operations id count label

def Exit.targets (id : BlockId) (count cursor : Nat) : Exit → List Nat
  | branch _ _ notTaken => [cursor + codeLength (leaveThrough id .first notTaken count)]
  | _ => []

theorem writeStubs_eq (id : BlockId) (label count : Nat) (ps : List Placed) :
    writeStubs label count ps = stubCode id label (writeBranchings count ps) := by
  induction ps generalizing label count with
  | nil => rfl
  | cons p rest ih =>
      rw [writeStubs, writeBranchings]
      split
      · rw [ih, stubCode]
        rfl
      · exact ih label (count + 1)

theorem length_writeBranchings (count : Nat) (ps : List Placed) :
    (writeBranchings count ps).length = writeCount ps := by
  induction ps generalizing count with
  | nil => rfl
  | cons p rest ih =>
      rw [writeBranchings, writeCount_cons]
      split
      · rw [List.length_cons, ih, Nat.add_comm]
      · rw [ih, Nat.zero_add]

namespace Sequence

variable (s : Sequence) (id : BlockId)

def opening : List Operation :=
  prologue id ++ bodies (cycleLabel + 1) s.instructions ++ s.exit.opening s.stubs.length

def closing : List Operation :=
  s.exit.closing id s.instructions.length s.stubs.length ++ stubCode id cycleLabel s.stubs

def targets (cursor : Nat) : List Nat :=
  stubTargets id
      (cursor + codeLength (s.exit.closing id s.instructions.length s.stubs.length)) s.stubs ++
    s.exit.targets id s.instructions.length cursor

theorem length_stubs : s.stubs.length = cycleLabel + 1 + writeCount s.instructions := by
  rw [stubs, List.length_cons, length_writeBranchings, Nat.add_comm]
  rfl

theorem operations_eq_opening : s.operations id = s.opening id ++ s.closing id := by
  have hexit : s.exit.operations id s.instructions.length s.stubs.length =
      s.exit.opening s.stubs.length ++
        s.exit.closing id s.instructions.length s.stubs.length := by
    cases s.exit with
    | branch cond taken notTaken =>
        simp only [Exit.operations, Exit.opening, Exit.closing, List.append_assoc]
    | _ => rfl
  rw [operations, opening, closing, writeStubs_eq id, ← s.length_stubs, hexit, stubs, stubCode]
  simp only [List.append_assoc]
  rfl

end Sequence

/-! ## Where no branch is -/

theorem branchless_of_quiet {ops : List Operation} (h : ops.all quiet = true) :
    ops.filterMap branch? = [] := by
  refine List.filterMap_eq_nil_iff.mpr fun op hop => ?_
  have := List.all_eq_true.mp h op hop
  cases op with
  | branch _ _ => cases this
  | _ => rfl

theorem branchless_leaveThrough (id : BlockId) (slot : Slot) (target : UInt32) (count : Nat) :
    (leaveThrough id slot target count).filterMap branch? = [] := by
  by_cases hc : count = 0 <;> simp [leaveThrough, spend, hc, branch?]

theorem branchless_leaveWith (eip : Option UInt32) (count : Nat) (code : ReturnCode) :
    (leaveWith eip count code).filterMap branch? = [] := by
  cases eip <;> by_cases hc : count = 0 <;> simp [leaveWith, spend, hc, branch?]

namespace Branching

variable (b : Branching) (id : BlockId)

theorem branchless_way : (b.way id).filterMap branch? = [] := by
  cases b with
  | budget => rfl
  | write count resume => exact branchless_leaveWith ..
  | taken cond target count => exact branchless_leaveThrough ..

theorem place_not_mem_way (l : Nat) : place l ∉ b.way id := by
  cases b with
  | budget => simp [way]
  | write count resume => exact place_not_mem_leaveWith _ _ _ l
  | taken cond target count => exact place_not_mem_leaveThrough _ _ _ _ l

theorem codeLength_way_pos : 0 < codeLength (b.way id) := by
  have hleave : ∀ code, 0 < (leave code).codeLength := fun code => by
    rw [codeLength_leave]
    decide
  cases b with
  | budget => exact Nat.lt_add_right _ (hleave .cycles)
  | write count resume =>
      have := hleave .selfModified
      simp only [way, leaveWith, codeLength_append, codeLength_cons]
      omega
  | taken cond target count =>
      have hstore : (storeContextImm Field.eip target).codeLength = 10 := rfl
      simp only [way, leaveThrough, List.cons_append, codeLength_cons, hstore]
      omega

end Branching

theorem branchless_stubCode (id : BlockId) (label : Nat) (bs : List Branching) :
    (stubCode id label bs).filterMap branch? = [] := by
  induction bs generalizing label with
  | nil => rfl
  | cons b rest ih =>
      rw [stubCode, List.filterMap_cons_none rfl, List.filterMap_append, b.branchless_way, ih]
      rfl

theorem Exit.branchless_closing (e : Exit) (id : BlockId) (count label : Nat) :
    (e.closing id count label).filterMap branch? = [] := by
  cases e with
  | limit target | jump target => exact branchless_leaveThrough ..
  | computed | interpret _ | callback _ => exact branchless_leaveWith ..
  | branch cond taken notTaken =>
      rw [closing, List.filterMap_append, List.filterMap_cons_none rfl, branchless_leaveThrough,
        branchless_leaveThrough]
      rfl

theorem Exit.place_not_mem_opening (e : Exit) (label l : Nat) : place l ∉ e.opening label := by
  cases e with
  | branch cond taken notTaken => simp [opening]
  | _ => exact List.not_mem_nil

namespace Sequence

variable (s : Sequence) (id : BlockId)

theorem branchless_closing : (s.closing id).filterMap branch? = [] := by
  rw [closing, List.filterMap_append, s.exit.branchless_closing, branchless_stubCode]
  rfl

theorem place_not_mem_opening (l : Nat) : place l ∉ s.opening id := by
  rw [opening, List.mem_append, List.mem_append, not_or, not_or]
  refine ⟨⟨?_, place_not_mem_bodies _ _ l⟩, s.exit.place_not_mem_opening _ l⟩
  simp [prologue]

end Sequence

/-! ## The branches, in order -/

theorem branches_bodies (label count : Nat) (ps : List Placed) :
    (bodies label ps).filterMap branch? =
      ((writeBranchings count ps).map Branching.condition).zipIdx label := by
  induction ps generalizing label count with
  | nil => rfl
  | cons p rest ih =>
      rw [bodies, writeBranchings, List.filterMap_append]
      cases hs : p.instruction.stores with
      | true =>
          obtain ⟨before, width, hquiet, hbody⟩ := body_of_stores hs label
          rw [hbody, List.filterMap_append, branchless_of_quiet hquiet, if_pos rfl, if_pos rfl,
            ih (label + 1) (count + 1)]
          rfl
      | false =>
          rw [branchless_of_quiet (quiet_body hs label), if_neg Bool.false_ne_true,
            if_neg Bool.false_ne_true]
          exact ih label (count + 1)

/-- The branch of a write stands in the body of its instruction, behind those of the
writes before. -/
theorem body_of_bodies {ps : List Placed} {n : Nat} {p : Placed} (hn : ps[n]? = some p)
    (hs : p.instruction.stores = true) (label count : Nat) :
    ∃ k before after, bodies label ps = before ++ p.body (label + k) ++ after ∧
      (before.filterMap branch?).length = k ∧
      (writeBranchings count ps)[k]? = some (.write (count + n + 1) p.resume) := by
  induction ps generalizing n label count with
  | nil => cases hn
  | cons first rest ih =>
      cases n with
      | zero =>
          cases hn
          refine ⟨0, [], _, rfl, rfl, ?_⟩
          rw [writeBranchings, if_pos hs]
          rfl
      | succ n =>
          have hbody := branches_bodies label count [first]
          rw [bodies, bodies, List.append_nil] at hbody
          cases hfirst : first.instruction.stores with
          | true =>
              obtain ⟨k, before, after, hcode, hk, hwrite⟩ := ih hn (label + 1) (count + 1)
              refine ⟨k + 1, first.body label ++ before, after, ?_, ?_, ?_⟩
              · rw [bodies, hfirst, if_pos rfl, hcode, Nat.add_right_comm label, List.append_assoc,
                  List.append_assoc, List.append_assoc, Nat.add_assoc label]
              · rw [List.filterMap_append, hbody, writeBranchings, if_pos hfirst,
                  List.length_append, hk, Nat.add_comm]
                rfl
              · rw [writeBranchings, if_pos hfirst, List.getElem?_cons_succ, hwrite,
                  Nat.add_right_comm count, Nat.add_assoc count]
          | false =>
              obtain ⟨k, before, after, hcode, hk, hwrite⟩ := ih hn label (count + 1)
              refine ⟨k, first.body label ++ before, after, ?_, ?_, ?_⟩
              · rw [bodies, hfirst, if_neg Bool.false_ne_true, hcode]
                simp only [List.append_assoc]
              · rw [List.filterMap_append, branchless_of_quiet (quiet_body hfirst label)]
                exact hk
              · rw [writeBranchings, hfirst, if_neg Bool.false_ne_true, hwrite,
                  Nat.add_right_comm count, Nat.add_assoc count]

theorem Sequence.branches_opening (s : Sequence) (id : BlockId) :
    (s.opening id).filterMap branch? = (s.branchings.map Branching.condition).zipIdx := by
  have hexit : (s.exit.opening s.stubs.length).filterMap branch? =
      ((s.exit.branchings s.instructions.length).map Branching.condition).zipIdx
        s.stubs.length := by
    cases s.exit <;> rfl
  rw [Sequence.opening, List.filterMap_append, List.filterMap_append, hexit,
    branches_bodies _ 0, Sequence.branchings, List.map_append, List.zipIdx_append,
    List.length_map, Nat.zero_add]
  rfl

/-! ## The ways, in order -/

theorem places_stubCode (id : BlockId) (cursor label : Nat) (bs : List Branching) :
    places cursor (stubCode id label bs) =
      ((stubTargets id cursor bs).zipIdx label).map Prod.swap := by
  induction bs generalizing cursor label with
  | nil => rfl
  | cons b rest ih =>
      rw [stubCode, places, places_append, places_of_placeless (b.place_not_mem_way id), ih]
      rfl

theorem places_closing (s : Sequence) (id : BlockId) (cursor : Nat) :
    places cursor (s.closing id) =
      ((s.exit.targets id s.instructions.length cursor).zipIdx s.stubs.length).map Prod.swap ++
        ((stubTargets id (cursor + codeLength (s.exit.closing id s.instructions.length
          s.stubs.length)) s.stubs).zipIdx).map Prod.swap := by
  have hthrough := fun slot target =>
    places_of_placeless (place_not_mem_leaveThrough id slot target s.instructions.length)
  rw [Sequence.closing, places_append, places_stubCode]
  congr 1
  cases s.exit with
  | limit target | jump target => exact hthrough .first target cursor
  | computed | interpret _ | callback _ =>
      exact places_of_placeless (place_not_mem_leaveWith _ _ _) cursor
  | branch cond taken notTaken =>
      rw [Exit.closing, places_append, hthrough, places, hthrough]
      rfl

theorem length_stubTargets (id : BlockId) (cursor : Nat) (bs : List Branching) :
    (stubTargets id cursor bs).length = bs.length := by
  induction bs generalizing cursor with
  | nil => rfl
  | cons b rest ih => exact congrArg (· + 1) (ih _)

theorem le_of_mem_stubTargets {id : BlockId} {cursor target : Nat} {bs : List Branching}
    (h : target ∈ stubTargets id cursor bs) : cursor ≤ target := by
  induction bs generalizing cursor with
  | nil => cases h
  | cons b rest ih =>
      rcases List.mem_cons.mp h with rfl | h
      · exact Nat.le_refl _
      · exact Nat.le_trans (Nat.le_add_right ..) (ih h)

theorem pairwise_stubTargets (id : BlockId) (cursor : Nat) (bs : List Branching) :
    (stubTargets id cursor bs).Pairwise (· < ·) := by
  induction bs generalizing cursor with
  | nil => exact .nil
  | cons b rest ih =>
      refine .cons (fun target h => ?_) (ih _)
      exact Nat.lt_of_lt_of_le (Nat.lt_add_of_pos_right (b.codeLength_way_pos id))
        (le_of_mem_stubTargets h)

theorem way_of_stubCode (id : BlockId) (cursor label : Nat) {bs : List Branching} {k : Nat}
    {b : Branching} (h : bs[k]? = some b) :
    ∃ before after, stubCode id label bs = before ++ b.way id ++ after ∧
      (stubTargets id cursor bs)[k]? = some (cursor + codeLength before) := by
  induction bs generalizing cursor label k with
  | nil => cases h
  | cons c rest ih =>
      cases k with
      | zero =>
          cases h
          exact ⟨[place label], stubCode id (label + 1) rest, rfl, rfl⟩
      | succ k =>
          obtain ⟨before, after, hcode, htarget⟩ :=
            ih (cursor + codeLength (c.way id)) (label + 1) h
          refine ⟨place label :: (c.way id ++ before), after, ?_, ?_⟩
          · rw [stubCode, hcode]
            simp only [List.cons_append, List.append_assoc]
          · rw [codeLength_cons, codeLength_append, codeLength_place, Nat.zero_add,
              ← Nat.add_assoc]
            exact htarget

theorem Exit.way_of_closing (e : Exit) (id : BlockId) {count k : Nat} (label cursor : Nat)
    {b : Branching} (h : (e.branchings count)[k]? = some b) :
    ∃ before after, e.closing id count label = before ++ b.way id ++ after ∧
      (e.targets id count cursor)[k]? = some (cursor + codeLength before) := by
  cases e with
  | branch cond taken notTaken =>
      cases k with
      | zero =>
          cases h
          refine ⟨leaveThrough id .first notTaken count ++ [place label], [], ?_, ?_⟩
          · simp only [closing, Branching.way, List.append_assoc, List.cons_append,
              List.nil_append, List.append_nil]
          · rw [codeLength_append]
            rfl
      | succ k => cases h
  | _ => cases h

namespace Sequence

variable (s : Sequence) (id : BlockId)

theorem length_targets (cursor : Nat) : (s.targets id cursor).length = s.branchings.length := by
  have hexit : (s.exit.targets id s.instructions.length cursor).length =
      (s.exit.branchings s.instructions.length).length := by
    cases s.exit <;> rfl
  rw [targets, branchings, List.length_append, List.length_append, length_stubTargets, hexit]

/-- Behind its last branch a block has the ways of all its branches. -/
theorem way_of_closing (cursor : Nat) {k : Nat} {b : Branching} (h : s.branchings[k]? = some b) :
    ∃ before after, s.closing id = before ++ b.way id ++ after ∧
      (s.targets id cursor)[k]? = some (cursor + codeLength before) := by
  have hlength := length_stubTargets id
    (cursor + codeLength (s.exit.closing id s.instructions.length s.stubs.length)) s.stubs
  rw [branchings] at h
  rw [targets]
  by_cases hk : k < s.stubs.length
  · rw [List.getElem?_append_left hk] at h
    obtain ⟨before, after, hcode, htarget⟩ := way_of_stubCode id
      (cursor + codeLength (s.exit.closing id s.instructions.length s.stubs.length)) cycleLabel h
    refine ⟨s.exit.closing id s.instructions.length s.stubs.length ++ before, after, ?_, ?_⟩
    · rw [closing, hcode]
      simp only [List.append_assoc]
    · rw [List.getElem?_append_left (hlength.symm ▸ hk), htarget, codeLength_append,
        Nat.add_assoc]
  · have hle : s.stubs.length ≤ k := Nat.le_of_not_lt hk
    rw [List.getElem?_append_right hle] at h
    obtain ⟨before, after, hcode, htarget⟩ := s.exit.way_of_closing id s.stubs.length cursor h
    refine ⟨before, after ++ stubCode id cycleLabel s.stubs, ?_, ?_⟩
    · rw [closing, hcode]
      simp only [List.append_assoc]
    · rw [List.getElem?_append_right (hlength.symm ▸ hle), hlength, htarget]

end Sequence

/-! ## Every displacement is filled in once -/

/-- A label counted from zero finds the displacement with its number. -/
theorem lookup_reverse_zip (positions : List Nat) (k : Nat) :
    ((List.range positions.length).zip positions).reverse.lookup k = positions[k]? := by
  induction positions using List.reverseRecOn with
  | nil => rfl
  | append_singleton positions last ih =>
      rw [List.length_append, List.length_singleton, List.range_succ,
        List.zip_append (List.length_range ..), List.reverse_append]
      show ((positions.length, last) ::
        ((List.range positions.length).zip positions).reverse).lookup k = _
      rw [List.lookup_cons]
      by_cases hk : k = positions.length
      · simp [hk]
      · rw [beq_eq_false_iff_ne.mpr hk]
        refine ih.trans ?_
        by_cases hlt : k < positions.length
        · rw [List.getElem?_append_left hlt]
        · rw [List.getElem?_eq_none (Nat.le_of_not_lt hlt), List.getElem?_eq_none]
          rw [List.length_append, List.length_singleton]
          omega

/-- Ways that are numbered from `k` on find the displacements from there on. -/
theorem filterMap_zipIdx_swap (positions ways : List Nat) (k : Nat) :
    ((ways.zipIdx k).map Prod.swap).filterMap (fun x => positions[x.1]?.map (Patch.mk · x.2)) =
      List.zipWith Patch.mk (positions.drop k) ways := by
  induction ways generalizing k with
  | nil => rw [List.zipWith_nil_right]; rfl
  | cons way rest ih =>
      rw [List.zipIdx_cons, List.map_cons]
      cases hk : positions[k]? with
      | none =>
          have hle : positions.length ≤ k := List.getElem?_eq_none_iff.mp hk
          rw [List.filterMap_cons_none (by simp [hk]), ih, List.drop_eq_nil_of_le hle,
            List.drop_eq_nil_of_le (Nat.le_succ_of_le hle)]
          rfl
      | some position =>
          obtain ⟨hlt, rfl⟩ := List.getElem?_eq_some_iff.mp hk
          rw [List.filterMap_cons, ih, Prod.fst_swap, Prod.snd_swap, hk,
            List.drop_eq_getElem_cons hlt]
          rfl

theorem field_mem_of_mem_zipWith {positions ways : List Nat} {x : Patch}
    (h : x ∈ List.zipWith Patch.mk positions ways) : x.field ∈ positions := by
  rw [← List.map_uncurry_zip_eq_zipWith] at h
  obtain ⟨pair, hpair, rfl⟩ := List.mem_map.mp h
  exact (List.of_mem_zip hpair).1

theorem apart_zipWith {positions : List Nat} (h : positions.Pairwise fun i j => i + 4 ≤ j)
    (ways : List Nat) : (List.zipWith Patch.mk positions ways).Pairwise Patch.Apart := by
  induction positions generalizing ways with
  | nil => rw [List.zipWith_nil_left]; exact .nil
  | cons position rest ih =>
      obtain ⟨hfirst, hrest⟩ := List.pairwise_cons.mp h
      cases ways with
      | nil => exact .nil
      | cons way ways =>
          rw [List.zipWith_cons_cons]
          exact .cons (fun x hx => Or.inl (hfirst _ (field_mem_of_mem_zipWith hx))) (ih hrest ways)

namespace Sequence

variable (s : Sequence) (id : BlockId)

theorem fields_operations (cursor : Nat) :
    fields cursor (s.operations id) = fields cursor (s.opening id) := by
  rw [operations_eq_opening, fields_append, fields_of_branchless (s.branchless_closing id),
    List.append_nil]

theorem length_fields_operations (cursor : Nat) :
    (fields cursor (s.operations id)).length = s.branchings.length := by
  rw [fields_operations, length_fields, branches_opening, List.length_zipIdx, List.length_map]

theorem portable_opening_closing : Portable (s.opening id) ∧ Portable (s.closing id) :=
  portable_append.mp (s.operations_eq_opening id ▸ s.portable_operations id)

/-- **What is filled in while a block is written** is, in some order, the displacement of
each branch with its target. -/
theorem patches_operations (base : Nat) {p : Pen} (hp : p.labels = []) :
    (p.patches base (s.operations id)).Perm
      (List.zipWith Patch.mk (fields p.cursor (s.operations id))
        (s.targets id (p.cursor + codeLength (s.opening id)))) := by
  obtain ⟨hopening, hclosing⟩ := s.portable_opening_closing id
  have hlength := s.length_fields_operations id p.cursor
  have hlabels : (p.emitAll base (s.opening id)).labels = _ := Pen.labels_emitAll hopening
  rw [branches_opening, List.zipIdx_map_snd, List.length_map, ← hlength, fields_operations,
    ← List.range_eq_range', hp, List.append_nil] at hlabels
  rw [fields_operations] at hlength ⊢
  generalize fields p.cursor (s.opening id) = positions at hlength hlabels ⊢
  rw [operations_eq_opening, Pen.patches_append,
    Pen.patches_of_placeless (s.place_not_mem_opening id), List.nil_append,
    Pen.patches_of_branchless hclosing (s.branchless_closing id), hlabels,
    Pen.cursor_emitAll p base hopening]
  simp only [lookup_reverse_zip]
  rw [places_closing, List.filterMap_append, filterMap_zipIdx_swap, filterMap_zipIdx_swap,
    List.drop_zero, targets]
  -- The stubs come last, but theirs are the first branches.
  refine List.perm_append_comm.trans (List.Perm.of_eq ?_)
  generalize hstubs : stubTargets id _ s.stubs = ways
  have hfirst : (positions.take s.stubs.length).length = ways.length := by
    rw [← hstubs, length_stubTargets, List.length_take, hlength, branchings, List.length_append]
    omega
  have hnone : List.zipWith Patch.mk positions ways =
      List.zipWith Patch.mk (positions.take s.stubs.length) ways := by
    conv_lhs => rw [← List.take_append_drop s.stubs.length positions, ← List.append_nil ways]
    rw [List.zipWith_append hfirst, List.zipWith_nil_right, List.append_nil]
  rw [hnone, ← List.zipWith_append hfirst, List.take_append_drop]

/-! ## Where branches stand and lead -/

theorem body_of_operations {n : Nat} {w : Placed} (hn : s.instructions[n]? = some w)
    (hs : w.instruction.stores = true) :
    ∃ k before after, s.operations id = before ++ w.body k ++ after ∧
      (before.filterMap branch?).length = k ∧
      s.branchings[k]? = some (.write (n + 1) w.resume) := by
  obtain ⟨k, before, after, hcode, hk, hwrite⟩ := body_of_bodies hn hs (cycleLabel + 1) 0
  refine ⟨cycleLabel + 1 + k, prologue id ++ before, after ++ s.exit.operations id
    s.instructions.length (cycleLabel + 1 + writeCount s.instructions) ++
      [.place cycleLabel, .leave .cycles] ++ writeStubs (cycleLabel + 1) 0 s.instructions,
    ?_, ?_, ?_⟩
  · rw [operations, hcode]
    simp only [List.append_assoc]
  · rw [List.filterMap_append, List.length_append, hk]
    rfl
  · rw [Nat.add_comm, branchings, stubs, List.cons_append, cycleLabel, Nat.zero_add,
      List.getElem?_cons_succ, List.getElem?_append_left (List.getElem?_eq_some_iff.mp hwrite).1,
      hwrite, Nat.zero_add]

/-- The way of a branch is where the branch leads, behind the last branch. -/
theorem way_of_operations (cursor : Nat) {k : Nat} {b : Branching}
    (h : s.branchings[k]? = some b) :
    ∃ before after, s.operations id = before ++ b.way id ++ after ∧
      (s.targets id (cursor + codeLength (s.opening id)))[k]? =
        some (cursor + codeLength before) ∧
      codeLength (s.opening id) ≤ codeLength before := by
  obtain ⟨before, after, hcode, htarget⟩ :=
    s.way_of_closing id (cursor + codeLength (s.opening id)) h
  refine ⟨s.opening id ++ before, after, ?_, ?_, ?_⟩
  · rw [operations_eq_opening, hcode]
    simp only [List.append_assoc]
  · rw [htarget, codeLength_append, Nat.add_assoc]
  · rw [codeLength_append]
    exact Nat.le_add_right ..

theorem bounds_of_branch {cursor k field target : Nat}
    (hfield : (fields cursor (s.operations id))[k]? = some field)
    (htarget : (s.targets id (cursor + codeLength (s.opening id)))[k]? = some target) :
    cursor ≤ field ∧ field + 4 ≤ target ∧ target < cursor + codeLength (s.operations id) := by
  have hlt : k < s.branchings.length :=
    s.length_targets id _ ▸ (List.getElem?_eq_some_iff.mp htarget).1
  obtain ⟨before, after, hcode, hway, hle⟩ :=
    s.way_of_operations id cursor (List.getElem?_eq_getElem hlt)
  have hpos := Branching.codeLength_way_pos (getElem s.branchings k hlt) id
  have htotal := congrArg codeLength hcode
  rw [codeLength_append, codeLength_append] at htotal
  rw [s.fields_operations] at hfield
  have hbounds := bounds_of_mem_fields (List.mem_of_getElem? hfield)
  rw [htarget, Option.some.injEq] at hway
  omega

/-! ## Distances fit -/

theorem codeLength_bodies_le (label : Nat) (ps : List Placed) :
    codeLength (bodies label ps) ≤ ps.length * instructionRoom := by
  induction ps generalizing label with
  | nil => exact Nat.zero_le _
  | cons p rest ih =>
      have hbody := codeLength_body_le p label
      have hrest := ih (if p.instruction.stores then label + 1 else label)
      rw [bodies, codeLength_append, List.length_cons, Nat.succ_mul]
      omega

/-- A block is never so long that a displacement could not lead across it. -/
theorem codeLength_operations_lt (page : Vector UInt8 pageSize) (limits : Limits) (eip : UInt32) :
    codeLength ((Sequence.at page limits eip).operations id) < 2147483648 := by
  have hcount := length_at_le page limits eip
  generalize Sequence.at page limits eip = s at hcount
  have hbodies := codeLength_bodies_le (cycleLabel + 1) s.instructions
  have hexit := codeLength_exit_le s.exit id s.instructions.length
    (cycleLabel + 1 + writeCount s.instructions)
  have hstubs := codeLength_writeStubs_le (cycleLabel + 1) 0 s.instructions
  have hwrites : writeCount s.instructions ≤ s.instructions.length := List.length_filter_le ..
  simp only [operations, codeLength_append, codeLength_cons, codeLength_nil, codeLength_prologue,
    codeLength_place, codeLength_leave]
  simp only [instructionRoom, exitRoom, stubRoom, leaveBytes, pageSize] at *
  omega

end Sequence

theorem toInt_displacement {n : Int} (hlow : -2147483648 ≤ n) (hhigh : n < 2147483648) :
    (displacement n).toInt32.toInt = n := by
  rw [displacement, Int32.toInt32_toUInt32]
  exact Int32.toInt_ofInt_of_le hlow hhigh

/-! ## The result -/

/-- What becomes of the branches of a block that a pen writes.  `targets` are where they
lead, in the order in which they are written. -/
structure Patched (base : Nat) (p : Pen) (s : Sequence) (id : BlockId) (targets : List Nat) :
    Prop where
  branches : ((s.operations id).filterMap branch?).map Prod.fst =
    s.branchings.map Branching.condition
  /-- The branch of a write is in the body of its instruction. -/
  writes : ∀ (n : Nat) w, s.instructions[n]? = some w → w.instruction.stores = true →
    ∃ k before after, s.operations id = before ++ w.body k ++ after ∧
      (before.filterMap branch?).length = k ∧ s.branchings[k]? = some (.write (n + 1) w.resume)
  positions : (fields p.cursor (s.operations id)).length = s.branchings.length
  length : targets.length = s.branchings.length
  apart : (fields p.cursor (s.operations id)).Pairwise fun i j => i + 4 ≤ j
  /-- What is filled in is the displacement of each branch, once, for its target. -/
  once : (p.patches base (s.operations id)).Perm
    (List.zipWith Patch.mk (fields p.cursor (s.operations id)) targets)
  /-- Each branch leads to the first byte of its own way. -/
  own : ∀ (k : Nat) b, s.branchings[k]? = some b → ∃ before after,
    s.operations id = before ++ b.way id ++ after ∧
      targets[k]? = some (p.cursor + codeLength before)
  inside : ∀ (k : Nat) field target, (fields p.cursor (s.operations id))[k]? = some field →
    targets[k]? = some target → p.cursor ≤ field ∧ field + 4 ≤ target ∧
      target < (p.emitAll base (s.operations id)).cursor
  /-- What stands there in the end is the distance, as a signed number. -/
  distance : ∀ (k : Nat) field target, (fields p.cursor (s.operations id))[k]? = some field →
    targets[k]? = some target → ∃ w : UInt32,
      (p.emitAll base (s.operations id)).image.slice field 4 =
        (HostInstruction.bytes32 w).map CodeByte.literal ∧
      w.toInt32.toInt = (target : Int) - ((field + 4 : Nat) : Int)
  /-- Stubs come in the order of their branches. -/
  stubs : (targets.take s.stubs.length).Pairwise (· < ·)
  /-- All other bytes are as if nothing were filled in. -/
  others : ∀ i, (∀ field ∈ fields p.cursor (s.operations id), i < field ∨ field + 4 ≤ i) →
    (p.emitAll base (s.operations id)).image.read i =
      (p.writeAll base (s.operations id)).image.read i

namespace Sequence

/-- **Every branch of a block is filled in once, and leads to its own way,** whatever the
page, the start, the limits, the block and the place where it is written. -/
theorem patched_at (page : Vector UInt8 pageSize) (limits : Limits) (eip : UInt32) (id : BlockId)
    (base : Nat) (p : Pen) :
    ∃ targets, Patched base { p with labels := [] } (Sequence.at page limits eip) id targets := by
  have hshort := codeLength_operations_lt id page limits eip
  generalize Sequence.at page limits eip = s at hshort
  generalize hq : ({ p with labels := [] } : Pen) = q
  have hlabels : q.labels = [] := by rw [← hq]
  have hwithin : Pen.Within q.cursor q := Pen.within_start rfl hlabels
  have hapart := pairwise_fields q.cursor (s.operations id)
  have honce := s.patches_operations id base hlabels
  refine ⟨s.targets id (q.cursor + codeLength (s.opening id)),
    { branches := ?_, writes := fun n w hn hs => s.body_of_operations id hn hs,
      positions := s.length_fields_operations id q.cursor, length := s.length_targets id _,
      apart := hapart, once := honce, own := fun k b hb => ?_,
      inside := fun k field target hfield htarget => ?_,
      distance := fun k field target hfield htarget => ?_, stubs := ?_,
      others := fun i hi => ?_ }⟩
  · rw [operations_eq_opening, List.filterMap_append, branchless_closing, List.append_nil,
      branches_opening, List.zipIdx_map_fst]
  · obtain ⟨before, after, hcode, htarget, _⟩ := s.way_of_operations id q.cursor hb
    exact ⟨before, after, hcode, htarget⟩
  · rw [Pen.cursor_emitAll q base (s.portable_operations id)]
    exact s.bounds_of_branch id hfield htarget
  · have hmem : (⟨field, target⟩ : Patch) ∈ q.patches base (s.operations id) := by
      refine honce.mem_iff.mpr (List.mem_of_getElem? (i := k) ?_)
      rw [List.getElem?_zipWith, hfield, htarget]
    have hpatches : (q.patches base (s.operations id)).Pairwise Patch.Apart :=
      (honce.pairwise_iff fun h => Or.symm h).mpr (apart_zipWith hapart _)
    obtain ⟨hstart, hbehind, hend⟩ := s.bounds_of_branch id hfield htarget
    refine ⟨_, hwithin.slice_emitAll_of_mem hpatches hmem, ?_⟩
    exact toInt_displacement (by simp only; omega) (by simp only; omega)
  · have hstubs := length_stubTargets id (q.cursor + codeLength (s.opening id) +
      codeLength (s.exit.closing id s.instructions.length s.stubs.length)) s.stubs
    rw [targets, List.take_left' hstubs]
    exact pairwise_stubTargets ..
  · refine Pen.read_emitAll_of_misses (fun x hx => ?_) rfl rfl
    exact hi x.field (field_mem_of_mem_zipWith (honce.mem_iff.mp hx))

end Sequence

end Recompiler
