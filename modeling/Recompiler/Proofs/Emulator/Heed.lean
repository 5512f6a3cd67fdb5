import Recompiler.Proofs.Compile.Calls
import Recompiler.Proofs.Emulator.Block

/-!
# Blocks heed their own writes

A block asks after each of its writes whether the write met the block itself.  If
so it is left at once, behind the write; if not it goes on, whatever else the write
met.  All along it is the block that is running, and it is compiled.
-/

namespace Recompiler

open Operation

/-- An exit is no way out behind a write. -/
theorem Exit.outcome_ne {σ : Type} (e : Exit) (id : BlockId) (f : Flags) (t u : HostState σ) :
    e.outcome id f t ≠ .returned ReturnCode.selfModified.word u := by
  intro ho
  cases e with
  | limit _ | jump _ | branch _ _ _ => cases ho
  | computed | interpret _ | callback _ =>
      cases ReturnCode.word_inj (Outcome.returned.inj ho).1

namespace Emulator

theorem hits_helpers (s : HostState GuardedMemory) (width : Width) :
    s.hits helpers width =
      (s.world.write width s.address s.value s.context.running?).1.metRunning := rfl

/-- How a block that is left answers to what it called: each call finds the block
running, and a write that meets the block is the last call. -/
inductive Heeds (l : Limits) (id : BlockId) (src : Source) (seq : Sequence) :
    List (HelperCall GuardedMemory) → Outcome GuardedMemory → Prop
  /-- With nothing more to call, the block is not left behind a write. -/
  | silent {o : Outcome GuardedMemory}
      (ho : ∀ t, o ≠ .returned ReturnCode.selfModified.word t) : Heeds l id src seq [] o
  | read {s : HostState GuardedMemory} {calls : List (HelperCall GuardedMemory)}
      {o : Outcome GuardedMemory} (hs : Midway l id src s) (h : Heeds l id src seq calls o) :
      Heeds l id src seq (⟨s, .read32⟩ :: calls) o
  | spared {s : HostState GuardedMemory} {width : Width}
      {calls : List (HelperCall GuardedMemory)} {o : Outcome GuardedMemory}
      (hs : Midway l id src s) (hm : s.hits helpers width = false)
      (h : Heeds l id src seq calls o) : Heeds l id src seq (⟨s, .write width⟩ :: calls) o
  /-- Nothing comes after the write but that the block charges for its
  instructions up to there. -/
  | met {s t : HostState GuardedMemory} {width : Width} {n : Nat} {p : Placed}
      (hs : Midway l id src s) (hm : s.hits helpers width = true)
      (hp : seq.instructions[n]? = some p) (hstores : p.instruction.stores = true)
      (hc : t.context = { s.context with cpu := s.context.cpu.goto p.resume }.charge (n + 1))
      (hw : t.world = (s.call helpers (.write width)).world) :
      Heeds l id src seq [⟨s, .write width⟩] (.returned ReturnCode.selfModified.word t)

namespace Midway

variable {l : Limits} {id : BlockId} {src : Source} {s t : HostState GuardedMemory}
  (h : Midway l id src s)

include h

theorem near (hn : s.Near t) : Midway l id src t :=
  ⟨hn.world ▸ h.coherent, hn.world ▸ h.source, hn.running.trans h.running, hn.cycles ▸ h.cycles⟩

theorem write {width : Width} (hm : s.hits helpers width = false) :
    Midway l id src (s.call helpers (.write width)) := by
  have hleaves := h.coherent.write width s.address s.value s.context.running?
  rw [← hits_helpers, hm] at hleaves
  exact h.spared hleaves rfl rfl

end Midway

section Block

variable {l : Limits} {id : BlockId} {src : Source} {seq : Sequence}

theorem Heeds.reads {reads calls : List (HelperCall GuardedMemory)} {o : Outcome GuardedMemory}
    {s : HostState GuardedMemory} (hs : Midway l id src s)
    (hr : ∀ c ∈ reads, s.Near c.state ∧ c.helper = .read32) (h : Heeds l id src seq calls o) :
    Heeds l id src seq (reads ++ calls) o := by
  induction reads with
  | nil => exact h
  | cons c reads ih =>
      obtain ⟨hnear, hread⟩ := hr c List.mem_cons_self
      obtain ⟨u, f⟩ := c
      cases hread
      exact .read (hs.near hnear) (ih fun d hd => hr d (List.mem_cons_of_mem _ hd))

/-- A write that meets the block is the last that the block calls. -/
theorem heeds_of_hit {p : Placed} {done rest : List Placed}
    (hseq : seq.instructions = done ++ p :: rest) (hp : p.instruction.stores = true)
    {s : HostState GuardedMemory} (hs : Midway l id src s) {width : Width}
    (hm : s.hits helpers width = true) (label : Nat) :
    Heeds l id src seq
      (⟨s, .write width⟩ :: (s.call helpers (.write width)).calls helpers
        (some (cycleLabel + 1 + writeCount done)) (bodies label rest ++ seq.tail id))
      ((s.call helpers (.write width)).run helpers (some (cycleLabel + 1 + writeCount done))
        (bodies label rest ++ seq.tail id)) := by
  have hat : seq.instructions[done.length]? = some p := by
    rw [hseq, List.getElem?_append_right (Nat.le_refl _), Nat.sub_self]
    rfl
  obtain ⟨t, hrun, hc, hw⟩ := (s.call helpers (.write width)).run_stub helpers hp hseq label
  rw [hrun, HostState.calls_sought_tail]
  exact .met hs hm hat hp hc hw

/-- **The rest of a block heeds its writes,** by induction on its instructions:
each calls reads at most, or ends with its write. -/
theorem heeds_bodies (rest : List Placed) :
    ∀ done, seq.instructions = done ++ rest →
    ∀ s : HostState GuardedMemory, Midway l id src s →
      Heeds l id src seq
        (s.calls helpers none
          (bodies (cycleLabel + 1 + writeCount done) rest ++ seq.tail id))
        (s.run helpers none
          (bodies (cycleLabel + 1 + writeCount done) rest ++ seq.tail id)) := by
  induction rest with
  | nil =>
      intro done _ s _
      obtain ⟨t, hrun, _, _⟩ := s.run_tail helpers seq id
      rw [bodies, List.nil_append, hrun, s.calls_of_silent helpers none (seq.silent_tail id)]
      exact .silent (seq.exit.outcome_ne id _ t)
  | cons p rest ih =>
      intro done hseq s hs
      have hrest := ih (done ++ [p]) (by rw [hseq, List.append_assoc]; rfl)
      rw [add_writeCount_concat] at hrest
      rw [bodies, List.append_assoc]
      cases hp : p.instruction.stores with
      | false =>
          obtain ⟨t, reads, hrun, hcalls, hnear, hreads⟩ := s.run_quiet helpers
            (quiet_body hp (cycleLabel + 1 + writeCount done))
            (bodies (cycleLabel + 1 + writeCount done) rest ++ seq.tail id)
          simp only [hp, Bool.false_eq_true, if_false] at hrest ⊢
          rw [hrun, hcalls]
          exact .reads hs hreads (hrest t (hs.near hnear))
      | true =>
          obtain ⟨u, width, reads, hrun, hcalls, hnear, hreads⟩ :=
            s.calls_body_of_stores helpers hp (cycleLabel + 1 + writeCount done)
              (bodies (cycleLabel + 1 + writeCount done + 1) rest ++ seq.tail id)
          have hu := hs.near hnear
          simp only [hp, if_true] at hrest ⊢
          rw [hrun, hcalls]
          apply Heeds.reads hs hreads
          cases hm : u.hits helpers width with
          | true => exact heeds_of_hit hseq hp hu hm _
          | false => exact .spared hu hm (hrest _ (hu.write hm))

/-- **A block heeds its writes.** -/
theorem heeds_block {s : HostState GuardedMemory} (hs : s.world.Coherent l)
    (hb : s.world.code.arena.sourceOf id = some src) :
    Heeds l id src seq (s.calls helpers none (seq.operations id))
      (s.run helpers none (seq.operations id)) := by
  by_cases hc : s.context.cycles ≤ 0
  · obtain ⟨t, hrun, _, _⟩ := HostState.run_of_exhausted helpers hc seq id
    rw [hrun, s.calls_started helpers seq id, if_pos hc, HostState.calls_sought_tail]
    refine .silent fun u ho => ?_
    cases ReturnCode.word_inj (Outcome.returned.inj ho).1
  · have hcontext := s.context_started helpers id
    have hmid : Midway l id src (s.started helpers id) := by
      refine ⟨hs, hb, ?_, ?_⟩
      · rw [hcontext]
      · rw [hcontext]
        exact not_exhausted_iff.mp hc
    rw [s.run_started helpers seq id, s.calls_started helpers seq id, if_neg hc]
    exact heeds_bodies seq.instructions [] rfl _ hmid

end Block

/-! ## What it comes to -/

namespace Heeds

variable {l : Limits} {id : BlockId} {src : Source} {seq : Sequence}
  {calls early late : List (HelperCall GuardedMemory)} {o : Outcome GuardedMemory}

theorem of_cons {c d : HelperCall GuardedMemory} (h : Heeds l id src seq (c :: d :: late) o) :
    Heeds l id src seq (d :: late) o := by
  cases h with
  | read _ h | spared _ _ h => exact h

theorem drop {c : HelperCall GuardedMemory} (h : Heeds l id src seq (early ++ c :: late) o) :
    Heeds l id src seq (c :: late) o := by
  induction early with
  | nil => exact h
  | cons b early ih =>
      apply ih
      rw [List.cons_append] at h
      cases early with
      | nil => exact h.of_cons
      | cons _ _ => exact h.of_cons

/-- Each call finds the block running. -/
theorem midway (h : Heeds l id src seq calls o) {c : HelperCall GuardedMemory} (hc : c ∈ calls) :
    Midway l id src c.state := by
  obtain ⟨early, late, rfl⟩ := List.append_of_mem hc
  cases h.drop with
  | read hs _ | spared hs _ _ | met hs _ _ _ _ _ => exact hs

section Write

variable {s : HostState GuardedMemory} {width : Width}

/-- **The block is left behind a write just if the write met it.** -/
theorem hits_iff (h : Heeds l id src seq (early ++ ⟨s, .write width⟩ :: late) o) :
    s.hits helpers width = true ↔
      late = [] ∧ ∃ t, o = .returned ReturnCode.selfModified.word t := by
  cases h.drop with
  | spared _ hm h =>
      rw [hm]
      refine ⟨fun hf => absurd hf Bool.false_ne_true, ?_⟩
      rintro ⟨rfl, t, rfl⟩
      cases h with
      | silent ho => exact absurd rfl (ho t)
  | met _ hm _ _ _ _ => exact ⟨fun _ => ⟨rfl, _, rfl⟩, fun _ => hm⟩

/-- What a write that met the block leaves. -/
theorem behind {t : HostState GuardedMemory}
    (h : Heeds l id src seq (early ++ ⟨s, .write width⟩ :: late)
      (.returned ReturnCode.selfModified.word t)) (hm : s.hits helpers width = true) :
    t.world = (s.call helpers (.write width)).world ∧
      ∃ (n : Nat) (p : Placed), seq.instructions[n]? = some p ∧ p.instruction.stores = true ∧
        t.context =
          { s.context with cpu := s.context.cpu.goto p.resume }.charge (n + 1) := by
  cases h.drop with
  | spared _ hm' _ =>
      rw [hm'] at hm
      cases hm
  | met _ _ hp hstores hc hw => exact ⟨hw, _, _, hp, hstores, hc⟩

end Write

theorem exists_write {t : HostState GuardedMemory}
    (h : Heeds l id src seq calls (.returned ReturnCode.selfModified.word t)) :
    ∃ early s width, calls = early ++ [⟨s, .write width⟩] := by
  generalize ho : Outcome.returned ReturnCode.selfModified.word t = o at h
  induction h with
  | silent hne => exact absurd ho.symm (hne t)
  | @read s calls _ _ _ ih | @spared s _ calls _ _ _ _ ih =>
      obtain ⟨early, u, width, rfl⟩ := ih ho
      exact ⟨_ :: early, u, width, rfl⟩
  | met _ _ _ _ _ _ => exact ⟨[], _, _, rfl⟩

end Heeds

end Emulator

end Recompiler
