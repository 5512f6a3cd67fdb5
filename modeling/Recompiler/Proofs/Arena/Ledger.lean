import Mathlib.Data.List.Nodup
import Mathlib.Logic.Function.Basic
import Recompiler.Proofs.Arena.Close
import Recompiler.Proofs.Arena.Forget

/-!
# Ledgers of blocks

A ledger has an entry for every block that is compiled, and one for every block that
ends, with what it ended of.  What is entered is in order if no block is compiled over
one that is live and none ends that is not live.  Then every block that was compiled is
either live at the end or was ended once, and the number of live blocks is the balance
of the ledger.
-/

namespace Recompiler

/-- What is entered of a block: that it was compiled, that it was overwritten to make
room for another, or that it was freed because of its source. -/
inductive Change where
  | compiled
  | evicted
  | invalidated
  deriving DecidableEq

theorem Change.ne_compiled_iff {change : Change} :
    change ≠ .compiled ↔ change = .evicted ∨ change = .invalidated := by
  cases change with
  | compiled | evicted | invalidated => simp

/-- An entry of a ledger. -/
structure Entry where
  change : Change
  block : BlockId
  deriving DecidableEq

def Entry.enters (x : Entry) : Bool := x.change = .compiled

theorem Entry.eq_compiled {x : Entry} (h : x.enters = true) : x = ⟨.compiled, x.block⟩ := by
  obtain ⟨change, b⟩ := x
  rw [enters, decide_eq_true_iff] at h
  exact congrArg (Entry.mk · b) h

def tally (change : Change) (ledger : List Entry) : Nat := ledger.countP (·.change = change)

@[simp] theorem tally_nil (change : Change) : tally change [] = 0 := rfl

theorem tally_append (change : Change) (ledger ledger' : List Entry) :
    tally change (ledger ++ ledger') = tally change ledger + tally change ledger' :=
  List.countP_append ..

theorem tally_cons (change : Change) (x : Entry) (ledger : List Entry) :
    tally change (x :: ledger) = tally change ledger + if x.change = change then 1 else 0 := by
  rw [tally, List.countP_cons]
  simp only [decide_eq_true_eq]
  rfl

theorem tally_map (change change' : Change) (ids : List BlockId) :
    tally change (ids.map (Entry.mk change')) = if change' = change then ids.length else 0 := by
  induction ids with
  | nil => exact (ite_self 0).symm
  | cons b rest ih =>
      rw [List.map_cons, tally_cons, ih]
      split
      · rfl
      · rfl

/-! ## Ledgers in order -/

/-- From some live blocks to others by the entries of a ledger: a block is compiled where
it is not live, and ends where it is. -/
inductive Tracks : (BlockId → Bool) → List Entry → (BlockId → Bool) → Prop
  | nil (live : BlockId → Bool) : Tracks live [] live
  | cons {live live' : BlockId → Bool} {x : Entry} {rest : List Entry}
      (hx : live x.block = !x.enters)
      (h : Tracks (Function.update live x.block x.enters) rest live') :
      Tracks live (x :: rest) live'

namespace Tracks

variable {live live' live'' : BlockId → Bool} {ledger ledger' : List Entry} {b : BlockId}

theorem append (h : Tracks live ledger live') (h' : Tracks live' ledger' live'') :
    Tracks live (ledger ++ ledger') live'' := by
  induction h with
  | nil _ => exact h'
  | cons hx _ ih => exact .cons hx (ih h')

theorem of_append (h : Tracks live (ledger ++ ledger') live'') :
    ∃ live', Tracks live ledger live' ∧ Tracks live' ledger' live'' := by
  induction ledger generalizing live with
  | nil => exact ⟨live, .nil live, h⟩
  | cons x rest ih =>
      cases h with
      | cons hx h =>
          obtain ⟨mid, h₁, h₂⟩ := ih h
          exact ⟨mid, .cons hx h₁, h₂⟩

/-- Live blocks that end one after the other. -/
theorem leaving {change : Change} (hc : change ≠ .compiled) {ids : List BlockId}
    (hnodup : ids.Nodup) (hlive : ∀ b ∈ ids, live b = true) :
    Tracks live (ids.map (Entry.mk change)) fun b => if b ∈ ids then false else live b := by
  induction ids generalizing live with
  | nil =>
      simp only [List.not_mem_nil, if_false]
      exact .nil live
  | cons x rest ih =>
      obtain ⟨hx, hnodup⟩ := List.nodup_cons.mp hnodup
      have henters : (Entry.mk change x).enters = false := decide_eq_false hc
      have hrest : ∀ b ∈ rest, Function.update live x false b = true := fun b hb => by
        have hne : b ≠ x := fun he => hx (he ▸ hb)
        rw [Function.update_of_ne hne]
        exact hlive b (List.mem_cons_of_mem _ hb)
      refine .cons (by rw [henters]; exact hlive x List.mem_cons_self) ?_
      rw [henters]
      convert ih hnodup hrest using 2 with b
      by_cases hb : b = x
      · subst hb
        simp
      · simp [hb]

/-! ### What becomes of a block -/

/-- **A block that is live stays so,** with nothing entered of it, until its end is. -/
theorem left (h : Tracks live ledger live') (hb : live b = true) :
    (live' b = true ∧ ∀ x ∈ ledger, x.block ≠ b) ∨
      ∃ between change after, ledger = between ++ ⟨change, b⟩ :: after ∧
        (∀ y ∈ between, y.block ≠ b) ∧ change ≠ .compiled := by
  induction h with
  | nil _ => exact Or.inl ⟨hb, fun _ hx => absurd hx List.not_mem_nil⟩
  | @cons live live' x rest hx h ih =>
      by_cases hxb : x.block = b
      · subst hxb
        have hleaves : x.enters = false := (Bool.not_eq_true' _).mp (hx.symm.trans hb)
        exact Or.inr ⟨[], x.change, rest, rfl, fun _ hy => absurd hy List.not_mem_nil,
          of_decide_eq_false hleaves⟩
      · rcases ih (by rwa [Function.update_of_ne (Ne.symm hxb)]) with
          ⟨hlive, hnone⟩ | ⟨between, change, after, rfl, hnone, hc⟩
        · exact Or.inl ⟨hlive, List.forall_mem_cons.mpr ⟨hxb, hnone⟩⟩
        · exact Or.inr ⟨x :: between, change, after, rfl, List.forall_mem_cons.mpr ⟨hxb, hnone⟩, hc⟩

/-- **What is live was so from the start, or was compiled,** and nothing was entered of
it since. -/
theorem entered (h : Tracks live ledger live') (hb : live' b = true) :
    (live b = true ∧ ∀ x ∈ ledger, x.block ≠ b) ∨
      ∃ before between, ledger = before ++ ⟨.compiled, b⟩ :: between ∧
        ∀ y ∈ between, y.block ≠ b := by
  induction h with
  | nil _ => exact Or.inl ⟨hb, fun _ hx => absurd hx List.not_mem_nil⟩
  | @cons live live' x rest hx h ih =>
      -- It is the last such entry that counts, so the rest of the ledger comes first.
      rcases ih hb with ⟨hlive, hnone⟩ | ⟨before, between, rfl, hnone⟩
      · by_cases hxb : x.block = b
        · subst hxb
          rw [Function.update_self] at hlive
          exact Or.inr ⟨[], rest, congrArg (· :: rest) (Entry.eq_compiled hlive), hnone⟩
        · rw [Function.update_of_ne (Ne.symm hxb)] at hlive
          exact Or.inl ⟨hlive, List.forall_mem_cons.mpr ⟨hxb, hnone⟩⟩
      · exact Or.inr ⟨x :: before, between, rfl, hnone⟩

/-! ### How many there are -/

/-- One block more that is live, or one less. -/
theorem exists_update {ids : List BlockId} (hids : ids.Nodup)
    (hlive : ∀ c, c ∈ ids ↔ live c = true) {enters : Bool} (hb : live b = !enters) :
    ∃ ids' : List BlockId, ids'.Nodup ∧
      (∀ c, c ∈ ids' ↔ Function.update live b enters c = true) ∧
      ids'.length + (if enters then 0 else 1) = ids.length + if enters then 1 else 0 := by
  cases enters with
  | true =>
      have hnot : b ∉ ids := fun hmem => by cases hb.symm.trans ((hlive b).mp hmem)
      refine ⟨b :: ids, List.nodup_cons.mpr ⟨hnot, hids⟩, fun c => ?_, rfl⟩
      rw [List.mem_cons, hlive]
      by_cases hc : c = b
      · subst hc
        simp
      · simp [hc]
  | false =>
      have hmem : b ∈ ids := (hlive b).mpr hb
      refine ⟨ids.erase b, hids.erase b, fun c => ?_, ?_⟩
      · rw [hids.mem_erase_iff, hlive]
        by_cases hc : c = b
        · subst hc
          simp
        · simp [hc]
      · rw [List.length_erase_of_mem hmem]
        exact Nat.sub_add_cancel (List.length_pos_of_mem hmem)

/-- **The balance of a ledger** is what it adds to the number of live blocks. -/
theorem length_add (h : Tracks live ledger live') {ids ids' : List BlockId} (hids : ids.Nodup)
    (hlive : ∀ b, b ∈ ids ↔ live b = true) (hids' : ids'.Nodup)
    (hlive' : ∀ b, b ∈ ids' ↔ live' b = true) :
    ids'.length + tally .evicted ledger + tally .invalidated ledger =
      ids.length + tally .compiled ledger := by
  induction h generalizing ids with
  | nil live =>
      have hsame := (List.perm_ext_iff_of_nodup hids' hids).mpr fun b =>
        (hlive' b).trans (hlive b).symm
      exact hsame.length_eq
  | @cons live live' x rest hx _ ih =>
      obtain ⟨mid, hmid, hbetween, hlength⟩ := exists_update hids hlive hx
      have hrest := ih hmid hbetween hlive'
      rw [tally_cons, tally_cons, tally_cons]
      obtain ⟨change, b⟩ := x
      cases change with
      | compiled =>
          have hone : mid.length = ids.length + 1 := hlength
          simp only [reduceCtorEq, if_true, if_false]
          omega
      | evicted | invalidated =>
          have hone : mid.length + 1 = ids.length := hlength
          simp only [reduceCtorEq, if_true, if_false]
          omega

end Tracks

namespace Counters

def tally (c : Counters) : Change → Nat
  | .compiled => c.compiled
  | .evicted => c.evictions
  | .invalidated => c.invalidations

theorem tally_forget (c : Counters) (change : Change) : c.forget.tally change = c.tally change := by
  cases change with
  | compiled | evicted | invalidated => rfl

end Counters

/-! ## Ledgers of an arena -/

namespace Arena

theorem Trimmed.counters {a a' : Arena} {id : BlockId} {written : Nat}
    (h : Trimmed a id written a') : a'.counters = a.counters := by
  cases h with
  | stays _ | grows _ _ _ | splits _ _ _ _ => rfl

/-- Starting over is counted, but not entered. -/
theorem tally_advance (a : Arena) (id : BlockId) (change : Change) :
    (a.advance id).counters.tally change = a.counters.tally change := by
  have hwrap : (advance.wrap a).counters.tally change = a.counters.tally change := by
    cases change with
    | compiled | evicted | invalidated => rfl
  unfold advance
  split
  · split
    · rfl
    · exact hwrap
  · exact hwrap

theorem isLive_recycle {a : Arena} {id : BlockId} (hid : a.isLive id = false) (b : BlockId) :
    (a.recycle id).isLive b = a.isLive b := by
  show ((a.modify id Descriptor.recycled).block b).isLive = (a.block b).isLive
  rw [block_modify_of_unused _ _ _ rfl]
  split
  · next hb => exact hb ▸ hid.symm
  · rfl

/-- A ledger of what was done to an arena: it is in order, its entries were counted, and a
descriptor counts how often it was compiled. -/
structure Books (a : Arena) (ledger : List Entry) (a' : Arena) : Prop where
  tracks : Tracks a.isLive ledger a'.isLive
  counted : ∀ change, a'.counters.tally change = a.counters.tally change + tally change ledger
  generation : ∀ b, (a'.block b).generation =
    (a.block b).generation + UInt32.ofNat (ledger.count ⟨.compiled, b⟩)

namespace Books

variable {a a' a'' : Arena} {ledger ledger' : List Entry}

theorem of_same (hlive : ∀ b, a'.isLive b = a.isLive b)
    (hcounted : ∀ change, a'.counters.tally change = a.counters.tally change)
    (hgeneration : ∀ b, (a'.block b).generation = (a.block b).generation) : a.Books [] a' := by
  refine ⟨?_, hcounted, fun b => (hgeneration b).trans (UInt32.add_zero _).symm⟩
  rw [funext hlive]
  exact .nil a.isLive

theorem of_core (hcore : ∀ b, (a'.block b).core = (a.block b).core)
    (hcounted : ∀ change, a'.counters.tally change = a.counters.tally change) : a.Books [] a' := by
  refine of_same (fun b => ?_) hcounted fun b => ?_
  · show (a'.block b).core.isLive = (a.block b).core.isLive
    rw [hcore]
  · rw [← Descriptor.generation_core, hcore, Descriptor.generation_core]

theorem refl (a : Arena) : a.Books [] a := of_core (fun _ => rfl) fun _ => rfl

theorem trans (h : a.Books ledger a') (h' : a'.Books ledger' a'') :
    a.Books (ledger ++ ledger') a'' := by
  refine ⟨h.tracks.append h'.tracks, fun change => ?_, fun b => ?_⟩
  · rw [h'.counted, h.counted, tally_append, Nat.add_assoc]
  · rw [h'.generation, h.generation, List.count_append, UInt32.ofNat_add, UInt32.add_assoc]

theorem extend (h : a.Books ledger a') (h' : a'.Books [] a'') : a.Books ledger a'' := by
  have hboth := h.trans h'
  rwa [List.append_nil] at hboth

theorem enter {x : Entry} (hx : a.isLive x.block = !x.enters)
    (hlive : ∀ b, a'.isLive b = if b = x.block then x.enters else a.isLive b)
    (hcounted : ∀ change, a'.counters.tally change =
      a.counters.tally change + if x.change = change then 1 else 0)
    (hgeneration : ∀ b, (a'.block b).generation =
      (a.block b).generation + if x = ⟨.compiled, b⟩ then 1 else 0) : a.Books [x] a' := by
  refine ⟨.cons hx ?_, fun change => ?_, fun b => ?_⟩
  · have hupdate : Function.update a.isLive x.block x.enters = a'.isLive := by
      funext b
      rw [hlive]
      split
      · next hb => rw [hb, Function.update_self]
      · next hb => exact Function.update_of_ne hb _ _
    rw [hupdate]
    exact .nil a'.isLive
  · rw [hcounted, tally_cons, tally_nil, Nat.zero_add]
  · rw [hgeneration, List.count_singleton]
    refine congrArg _ ?_
    by_cases hb : x = ⟨.compiled, b⟩
    · rw [if_pos hb, hb, BEq.rfl, if_pos rfl]
      rfl
    · rw [if_neg hb, if_neg (by rwa [beq_iff_eq])]
      rfl

/-- Blocks that end together, for one reason. -/
theorem leaving {change : Change} (hc : change ≠ .compiled) {ids : List BlockId}
    (hnodup : ids.Nodup) (hids : ∀ b ∈ ids, a.isLive b = true)
    (hlive : ∀ b, a'.isLive b = if b ∈ ids then false else a.isLive b)
    (hcounted : ∀ change', a'.counters.tally change' =
      a.counters.tally change' + if change = change' then ids.length else 0)
    (hgeneration : ∀ b, (a'.block b).generation = (a.block b).generation) :
    a.Books (ids.map (Entry.mk change)) a' := by
  refine ⟨?_, fun change' => ?_, fun b => ?_⟩
  · rw [show a'.isLive = _ from funext hlive]
    exact .leaving hc hnodup hids
  · rw [hcounted, tally_map]
  · have hnone : (ids.map (Entry.mk change)).count ⟨.compiled, b⟩ = 0 := by
      refine List.count_eq_zero.mpr fun hmem => ?_
      obtain ⟨_, _, he⟩ := List.mem_map.mp hmem
      exact hc (Entry.mk.inj he).1
    rw [hnone, hgeneration]
    exact (UInt32.add_zero _).symm

theorem link {source target : BlockId} {slot : Slot} (h : a.link source slot target = .ok a') :
    a.Books [] a' := by
  refine of_core (fun b => ((Alike.link h).core b).symm) fun change => ?_
  have hforget : a'.counters.forget = a.counters.forget := congrArg counters (forget_link h)
  rw [← Counters.tally_forget, hforget, Counters.tally_forget]

theorem recycle {id : BlockId} (hid : a.isLive id = false) : a.Books [] (a.recycle id) := by
  refine of_same (isLive_recycle hid) (fun _ => rfl) fun b => ?_
  exact field_modify a id b (f := Descriptor.recycled) Descriptor.generation fun _ => rfl

theorem close (ha : a.Arranged) {kind : BlockKind} (hkind : kind.isLive = true)
    {program : List Operation} {id : BlockId} (hc : a.close kind program = .ok (id, a')) :
    a.Books [⟨.compiled, id⟩] a' := by
  refine enter ?_ (fun b => ?_) (fun change => ?_) fun b => ?_
  · exact (ha.opened id (of_close_ok hc).1).2.1
  · rw [isLive, field_close ha hc Descriptor.isLive fun _ _ _ => rfl]
    exact if_congr Iff.rfl hkind rfl
  · obtain ⟨_, c, ht, rfl⟩ := of_close_ok hc
    rw [show a.counters = c.counters from ht.counters.symm, ← tally_advance c id change]
    cases change with
    | compiled | evicted | invalidated => rfl
  · rw [field_close ha hc Descriptor.generation fun _ _ _ => rfl]
    by_cases hb : b = id
    · rw [if_pos hb, if_pos (by rw [hb])]
      rfl
    · rw [if_neg hb, if_neg fun he => hb (Entry.mk.inj he).2.symm]
      exact (UInt32.add_zero _).symm

end Books

end Arena

end Recompiler
