import Recompiler.Proofs.Compile.Body
import Recompiler.Proofs.Compile.Follows
import Recompiler.Proofs.Compile.Leave

/-!
# What a block means

Running the operations of a block is carrying out its instructions one after the
other, up to the first store that met the block itself.  Only the helpers know
which store that is, and what they answer is left open; the memory that the
instructions find and leave is what it is without any block.
-/

namespace Recompiler

open Operation

variable {σ : Type}

/-! ## Instructions carried out in order -/

/-- CPU and memory after some instructions. -/
def Memory.carryOut (m : Memory) (c : Cpu) : List Placed → Cpu × Memory
  | [] => (c, m)
  | p :: rest => (m.run (p.effect c)).2.carryOut (m.run (p.effect c)).1 rest

theorem Flags.into_and_not_mask (f : Flags) (w : UInt32) :
    f.into w &&& ~~~Flags.mask = w &&& ~~~Flags.mask := by
  have hf : f.toWord &&& ~~~Flags.mask = 0 := by
    obtain ⟨c, p, a, z, s, o⟩ := f
    revert c p a z s o
    decide
  have hbits := UInt32.toBitVec_inj.mpr hf
  apply UInt32.toBitVec_inj.mp
  ext i hi
  have := congrArg (fun v => v[i]) hbits
  simp only [Flags.into, UInt32.toBitVec_and, UInt32.toBitVec_or, UInt32.toBitVec_not,
    UInt32.toBitVec_ofNat, BitVec.getElem_and, BitVec.getElem_or, BitVec.getElem_not,
    BitVec.getElem_zero] at this ⊢
  grind

theorem Placed.eflags_effect (p : Placed) (m : Memory) (c : Cpu) :
    (m.run (p.effect c)).1.eflags &&& ~~~Flags.mask = c.eflags &&& ~~~Flags.mask := by
  obtain ⟨i, next⟩ := p
  cases i with
  | alu op dst src =>
      show (if op.keepsResult then _ else _ : Cpu).eflags &&& _ = _
      split
      · exact Flags.into_and_not_mask ..
      · exact Flags.into_and_not_mask ..
  | unary op r => exact Flags.into_and_not_mask ..
  | jumpIf cond target =>
      show (if cond.holds c.flags then _ else _ : Cpu).eflags &&& _ = _
      split
      · rfl
      · rfl
  | _ => rfl

theorem Memory.eflags_carryOut (m : Memory) (c : Cpu) (ps : List Placed) :
    (m.carryOut c ps).1.eflags &&& ~~~Flags.mask = c.eflags &&& ~~~Flags.mask := by
  induction ps generalizing m c with
  | nil => rfl
  | cons p rest ih => exact (ih _ _).trans (p.eflags_effect m c)

/-- A guest on its way through instructions. -/
structure Passage (σ : Type) where
  cpu : Cpu
  /-- The vector of the last software interrupt. -/
  callback : UInt32
  world : σ
  /-- Instructions carried out. -/
  count : Nat := 0
  /-- Whether the last of them was a store that met the running block. -/
  hit : Bool := false

namespace Passage

variable (h : Helpers σ) (ram : σ → Memory) (running : UInt32)

def step (g : Passage σ) (p : Placed) : Passage σ :=
  let r := p.perform h ram running g.cpu g.world
  { cpu := r.1
    callback := p.instruction.vector?.elim g.callback UInt8.toUInt32
    world := r.2.1
    count := g.count + 1
    hit := r.2.2 }

/-- The guest after instructions, up to the first store that met the running
block. -/
def steps (g : Passage σ) : List Placed → Passage σ
  | [] => g
  | p :: rest =>
      if (g.step h ram running p).hit then g.step h ram running p
      else (g.step h ram running p).steps rest

variable {h ram running}

theorem le_count_steps (g : Passage σ) (ps : List Placed) :
    g.count ≤ (g.steps h ram running ps).count ∧
      (g.steps h ram running ps).count ≤ g.count + ps.length := by
  induction ps generalizing g with
  | nil => exact ⟨Nat.le_refl _, Nat.le_refl _⟩
  | cons p rest ih =>
      have hcount : (g.step h ram running p).count = g.count + 1 := rfl
      rw [steps, List.length_cons]
      split
      · omega
      · have := ih (g.step h ram running p)
        omega

/-- Every instruction was carried out, unless a store met the block. -/
theorem count_steps {g : Passage σ} (hg : g.hit = false) (ps : List Placed)
    (hhit : (g.steps h ram running ps).hit = false) :
    (g.steps h ram running ps).count = g.count + ps.length := by
  induction ps generalizing g with
  | nil => rfl
  | cons p rest ih =>
      rw [steps] at hhit ⊢
      split at hhit
      · next hp =>
          rw [hp] at hhit
          cases hhit
      · next hp =>
          rw [if_neg hp, ih (eq_false_of_ne_true hp) hhit, List.length_cons]
          show g.count + 1 + rest.length = _
          omega

/-- **The instructions carried out find and leave the memory that the world
shows,** whatever the helpers answer. -/
theorem carryOut_eq (hf : h.Faithful ram) (g : Passage σ) (ps : List Placed) :
    (ram g.world).carryOut g.cpu (ps.take ((g.steps h ram running ps).count - g.count)) =
      ((g.steps h ram running ps).cpu, ram (g.steps h ram running ps).world) := by
  induction ps generalizing g with
  | nil =>
      rw [List.take_nil]
      rfl
  | cons p rest ih =>
      have heffect := p.perform_eq hf running g.cpu g.world
      rw [steps]
      split
      · rw [show (g.step h ram running p).count - g.count = 1 from Nat.add_sub_cancel_left ..]
        exact heffect
      · have hcount : (g.step h ram running p).count = g.count + 1 := rfl
        have ih := ih (g.step h ram running p)
        obtain ⟨n, hn⟩ := Nat.exists_eq_add_of_le (le_count_steps (g.step h ram running p) rest).1
        rw [hn, Nat.add_sub_cancel_left] at ih
        rw [hn, show (g.step h ram running p).count + n - g.count = n + 1 by omega,
          List.take_succ_cons, Memory.carryOut, heffect]
        exact ih

end Passage

/-! ## The operations of a block -/

/-- How a block is left by a guest that took it: behind the store that met the
block, or through its exit. -/
def Sequence.outcome (seq : Sequence) (id : BlockId) (g : Passage σ) (t : HostState σ) :
    Outcome σ :=
  if g.hit then .returned ReturnCode.selfModified.word t
  else seq.exit.outcome id g.cpu.flags t

namespace HostState

variable {h : Helpers σ} {ram : σ → Memory}

/-- A host in the middle of a block, and the guest it stands for.  Where the
guest is the context does not tell. -/
structure Shows (s : HostState σ) (running : UInt32) (g : Passage σ) : Prop where
  cpu : g.cpu = s.context.cpu.goto g.cpu.eip
  callback : s.context.callback = g.callback
  running : s.context.running = running
  world : s.world = g.world

/-- A host that left a block, and the guest it stands for. -/
structure Leaves (s : HostState σ) (running : UInt32) (g : Passage σ) (t : HostState σ) : Prop where
  cpu : t.context.cpu = g.cpu
  callback : t.context.callback = g.callback
  running : t.context.running = running
  /-- The instructions carried out are charged for. -/
  cycles : t.context.cycles = (s.context.charge g.count).cycles
  world : t.world = g.world

theorem Carries.step {s t : HostState σ} {running : UInt32} {g : Passage σ} {p : Placed}
    {hit : Bool} (hc : s.Carries h ram p g.cpu.eip hit t) (hs : s.Shows running g) :
    (g.step h ram running p).hit = hit ∧ t.Shows running (g.step h ram running p) ∧
      t.context.cycles = s.context.cycles ∧
      t.context.cpu.eip = if p.instruction.storesEip then (g.step h ram running p).cpu.eip
        else s.context.cpu.eip := by
  obtain ⟨hworld, hcontext⟩ := hc
  rw [← hs.cpu, hs.running, hs.world] at hworld hcontext
  refine ⟨congrArg Prod.snd hworld, ⟨?_, ?_, ?_, (congrArg Prod.fst hworld).symm⟩, ?_, ?_⟩
  · rw [hcontext]
    rfl
  · rw [hcontext, contextAfter, hs.callback]
    rfl
  · rw [hcontext]
    exact hs.running
  · rw [hcontext]
    rfl
  · rw [hcontext]
    rfl

section Bodies

variable {seq : Sequence} {id : BlockId} {s : HostState σ} {g : Passage σ}

theorem run_end (hs : s.Shows id.word g) (hhit : g.hit = false)
    (hcount : g.count = seq.instructions.length)
    (hgoal : (seq.exit.goal? g.cpu.flags).getD s.context.cpu.eip = g.cpu.eip) :
    ∃ t, s.run h none (seq.tail id) = seq.outcome id g t ∧ s.Leaves id.word g t := by
  have hflags : s.context.cpu.flags = g.cpu.flags := by rw [hs.cpu]; rfl
  obtain ⟨t, hrun, hc, hw⟩ := s.run_tail h seq id
  rw [hflags, hgoal] at hc
  rw [hflags] at hrun
  refine ⟨t, ?_, ?_, ?_, ?_, ?_, hw.trans hs.world⟩
  · rw [Sequence.outcome, hhit]
    exact hrun
  · rw [hc]
    exact hs.cpu.symm
  · rw [hc]
    exact hs.callback
  · rw [hc]
    exact hs.running
  · rw [hc, hcount]
    rfl

variable (hf : h.Faithful ram)

include hf

theorem run_of_hit {p : Placed} {done rest : List Placed}
    (hseq : seq.instructions = done ++ p :: rest) (hs : s.Shows id.word g)
    (hcount : g.count = done.length) {u : HostState σ}
    (hc : s.Carries h ram p g.cpu.eip true u) (label : Nat) :
    ∃ t, u.run h (some (cycleLabel + 1 + writeCount done)) (bodies label rest ++ seq.tail id) =
        seq.outcome id (g.step h ram id.word p) t ∧
      s.Leaves id.word (g.step h ram id.word p) t := by
  obtain ⟨hhit, hu, hcycles, _⟩ := hc.step hs
  have hstores : p.instruction.stores = true := by
    rcases p.perform_cases h ram id.word g.cpu g.world with ⟨_, hstill⟩ | ⟨hstores, _⟩
    · have : (g.step h ram id.word p).hit = false := congrArg Prod.snd hstill
      rw [hhit] at this
      cases this
    · exact hstores
  have heip : (g.step h ram id.word p).cpu.eip = p.resume := by
    have := (Placed.eip_effect_of_stores hstores (ram g.world) g.cpu).1
    rwa [p.perform_eq hf id.word] at this
  obtain ⟨t, hrun, hct, hwt⟩ := u.run_stub h hstores hseq label
  refine ⟨t, ?_, ?_, ?_, ?_, ?_, hwt.trans hu.world⟩
  · rw [Sequence.outcome, hhit]
    exact hrun
  · rw [hct, hu.cpu, heip]
    rfl
  · rw [hct]
    exact hu.callback
  · rw [hct]
    exact hu.running
  · rw [hct, show (g.step h ram id.word p).count = done.length + 1 from congrArg (· + 1) hcount]
    simp only [Context.charge, hcycles]

/-- **An instruction of a block is carried out,** and the block is left unless
it goes on with what comes next. -/
theorem run_instruction {p : Placed} {done rest : List Placed}
    (hseq : seq.instructions = done ++ p :: rest) (hs : s.Shows id.word g)
    (hcount : g.count = done.length)
    (hrest : ∀ u : HostState σ, (g.step h ram id.word p).hit = false →
      u.Shows id.word (g.step h ram id.word p) →
      (u.context.cpu.eip = if p.instruction.storesEip then (g.step h ram id.word p).cpu.eip
        else s.context.cpu.eip) →
      ∃ t, u.run h none (bodies (cycleLabel + 1 + writeCount (done ++ [p])) rest ++ seq.tail id) =
          seq.outcome id ((g.step h ram id.word p).steps h ram id.word rest) t ∧
        u.Leaves id.word ((g.step h ram id.word p).steps h ram id.word rest) t) :
    ∃ t, s.run h none (bodies (cycleLabel + 1 + writeCount done) (p :: rest) ++ seq.tail id) =
        seq.outcome id (g.steps h ram id.word (p :: rest)) t ∧
      s.Leaves id.word (g.steps h ram id.word (p :: rest)) t := by
  obtain ⟨hit, u, hrun, hc⟩ := run_body hf s p g.cpu.eip (cycleLabel + 1 + writeCount done)
    (bodies (cycleLabel + 1 + writeCount (done ++ [p])) rest ++ seq.tail id)
  obtain ⟨hhit, hu, hcycles, heip⟩ := hc.step hs
  rw [bodies, List.append_assoc, ← add_writeCount_concat, hrun, Passage.steps, hhit]
  cases hit with
  | true => exact run_of_hit hf hseq hs hcount hc (cycleLabel + 1 + writeCount (done ++ [p]))
  | false =>
      obtain ⟨t, hrun, ht⟩ := hrest u hhit hu heip
      refine ⟨t, hrun, ht.cpu, ht.callback, ht.running, ht.cycles.trans ?_, ht.world⟩
      simp only [Context.charge, hcycles]
      rfl

/-- **The bodies of a block carry out its instructions,** by induction on what
is left of them. -/
theorem run_bodies {code : UInt32 → Option Placed} {eip : UInt32} {rest : List Placed} {e : Exit}
    (hrest : Follows code eip rest e) (he : seq.exit = e) {done : List Placed}
    (hseq : seq.instructions = done ++ rest) (hs : s.Shows id.word g) (heip : g.cpu.eip = eip)
    (hcount : g.count = done.length) (hhit : g.hit = false) :
    ∃ t, s.run h none (bodies (cycleLabel + 1 + writeCount done) rest ++ seq.tail id) =
        seq.outcome id (g.steps h ram id.word rest) t ∧
      s.Leaves id.word (g.steps h ram id.word rest) t := by
  induction hrest generalizing done s g with
  | limit eip | interpret _ =>
      rw [List.append_nil] at hseq
      refine run_end (g := g) hs hhit (by rw [hcount, hseq]) ?_
      rw [he, heip]
      rfl
  | @last eip p e _ hx =>
      refine run_instruction hf hseq hs hcount fun u hhit hu hue => ?_
      refine run_end (g := g.step h ram id.word p) hu hhit ?_ ?_
      · rw [hseq, List.length_append, ← hcount]
        rfl
      · have hgoal := Placed.eip_effect_of_exit? hx (ram g.world) g.cpu s.context.cpu.eip
        rw [p.perform_eq hf id.word] at hgoal
        rw [he, hue]
        exact hgoal
  | @next eip p rest e _ hx _ ih =>
      refine run_instruction hf hseq hs hcount fun u hhit hu _ => ?_
      refine ih he (by rw [hseq, List.append_assoc]; rfl) hu ?_ ?_ hhit
      · have hnext := Placed.eip_effect_of_exit?_none hx (ram g.world) g.cpu
        rwa [p.perform_eq hf id.word] at hnext
      · rw [List.length_append, ← hcount]
        rfl

end Bodies

def passage (s : HostState σ) : Passage σ where
  cpu := s.context.cpu
  callback := s.context.callback
  world := s.world

end HostState

/-- The instructions of a page follow each other, as in a memory that holds it. -/
theorem Sequence.exists_follows (page : Vector UInt8 pageSize) (limits : Limits) (eip : UInt32) :
    ∃ code, Follows code eip (Sequence.at page limits eip).instructions
      (Sequence.at page limits eip).exit := by
  let m : Memory := ⟨Array.replicate (pageOf eip + 1) { bytes := page }⟩
  have hpage : m.pages[pageOf eip]? = some { bytes := page } := by
    show (Array.replicate _ _)[pageOf eip]? = _
    rw [Array.getElem?_replicate, if_pos (Nat.lt_succ_self _)]
  refine ⟨m.instruction? limits.decoder, Sequence.follows_at ?_ ?_⟩
  · rw [Memory.isNoCode, hpage]
    rfl
  · rw [Memory.bytes?, hpage]
    rfl

/-- What a host that took a block shows of a guest that carried out its
instructions. -/
structure Took (ram : σ → Memory) (seq : Sequence) (id : BlockId) (s : HostState σ) (g : Passage σ)
    (t : HostState σ) : Prop where
  /-- CPU and memory are what the instructions make of them, in order, where
  there are no blocks. -/
  effect : (ram s.world).carryOut s.context.cpu (seq.instructions.take g.count) =
    (t.context.cpu, ram t.world)
  /-- Only a store that met the block keeps it from being carried out whole. -/
  whole : g.hit = false → g.count = seq.instructions.length
  guest : t.context.cpu = g.cpu ∧ t.context.callback = g.callback ∧ t.world = g.world
  eflags : t.context.cpu.eflags &&& ~~~Flags.mask = s.context.cpu.eflags &&& ~~~Flags.mask
  running : t.context.running = id.word
  cycles : t.context.cycles.toInt = s.context.cycles.toInt - g.count

/-- Leaving charges for the instructions carried out, and shows what they did. -/
theorem took_of_leaves {h : Helpers σ} {ram : σ → Memory} (hf : h.Faithful ram) {seq : Sequence}
    {id : BlockId} {s u t : HostState σ} (hcycles : ¬s.context.cycles ≤ 0)
    (hlength : seq.instructions.length ≤ pageSize)
    (hc : u.context = { s.context with running := id.word })
    (ht : u.Leaves id.word (s.passage.steps h ram id.word seq.instructions) t) :
    Took ram seq id s (s.passage.steps h ram id.word seq.instructions) t := by
  have hcount : (s.passage.steps h ram id.word seq.instructions).count ≤ seq.instructions.length :=
    Nat.le_trans (Passage.le_count_steps s.passage seq.instructions).2 (Nat.le_of_eq (Nat.zero_add _))
  have heffect : (ram s.world).carryOut s.context.cpu (seq.instructions.take
      (s.passage.steps h ram id.word seq.instructions).count) = (t.context.cpu, ram t.world) := by
    rw [ht.cpu, ht.world]
    exact Passage.carryOut_eq hf s.passage seq.instructions
  refine ⟨heffect, fun hhit => ?_, ⟨ht.cpu, ht.callback, ht.world⟩, ?_, ht.running, ?_⟩
  · exact (Passage.count_steps rfl seq.instructions hhit).trans (Nat.zero_add _)
  · have hflags := Memory.eflags_carryOut (ram s.world) s.context.cpu (seq.instructions.take
      (s.passage.steps h ram id.word seq.instructions).count)
    rwa [heffect] at hflags
  · have hcycles : 0 < u.context.cycles.toInt := by
      rw [hc]
      exact not_exhausted_iff.mp hcycles
    rw [ht.cycles, Context.toInt_charge hcycles (Nat.le_trans hcount hlength), hc]

/-- What running the operations of a block comes to. -/
inductive Means (h : Helpers σ) (ram : σ → Memory) (seq : Sequence) (id : BlockId)
    (s : HostState σ) : Outcome σ → Prop
  /-- The cycle budget was used up. -/
  | exhausted {t : HostState σ} (hcycles : s.context.cycles ≤ 0)
      (hc : t.context = { s.context with running := id.word }) (hw : t.world = s.world) :
      Means h ram seq id s (.returned ReturnCode.cycles.word t)
  | took {g : Passage σ} {t : HostState σ} (hcycles : ¬s.context.cycles ≤ 0)
      (hg : g = s.passage.steps h ram id.word seq.instructions) (ht : Took ram seq id s g t) :
      Means h ram seq id s (seq.outcome id g t)

/-- **The operations of a block mean its instructions,** on any page, from any
address and under any limits, whatever the helpers answer and whatever a call
leaves in the registers. -/
theorem means_run {h : Helpers σ} {ram : σ → Memory} (hf : h.Faithful ram)
    (page : Vector UInt8 pageSize) (limits : Limits) (id : BlockId) (s : HostState σ) :
    Means h ram (Sequence.at page limits s.context.cpu.eip) id s
      (s.run h none ((Sequence.at page limits s.context.cpu.eip).operations id)) := by
  obtain ⟨code, hfollows⟩ := Sequence.exists_follows page limits s.context.cpu.eip
  have hlength := Sequence.length_at_le page limits s.context.cpu.eip
  generalize Sequence.at page limits s.context.cpu.eip = seq at hfollows hlength ⊢
  by_cases hcycles : s.context.cycles ≤ 0
  · obtain ⟨t, hrun, hc, hw⟩ := HostState.run_of_exhausted h hcycles seq id
    rw [hrun]
    exact .exhausted hcycles hc hw
  · obtain ⟨u, hrun, hc, hw⟩ := s.run_prologue h seq id
    have hu : u.Shows id.word s.passage := ⟨by rw [hc]; rfl, by rw [hc]; rfl, by rw [hc], hw⟩
    have hseq : seq.instructions = [] ++ seq.instructions := rfl
    obtain ⟨t, hbodies, ht⟩ := HostState.run_bodies hf hfollows rfl hseq hu rfl rfl rfl
    have hbodies : u.run h none (bodies (cycleLabel + 1) seq.instructions ++ seq.tail id) = _ :=
      hbodies
    rw [hrun, if_neg hcycles, hbodies]
    exact .took hcycles rfl (took_of_leaves hf hcycles hlength hc ht)

def Helpers.onFirstPage : Helpers Memory where
  read m addr := m.readWidth .long addr
  write m _ width addr v := (m.writeWidth width addr v, pageOf addr = 0)
  clobber m :=
    ({ ret := m.readWidth .long 0, op1 := 1, op2 := 2, addr := 3, temp := 4 }, { carry := true })

theorem Helpers.faithful_onFirstPage : onFirstPage.Faithful id where
  read _ _ := rfl
  write _ _ _ _ _ := rfl
  truncate m _ width addr v := by
    simp only [onFirstPage, Memory.writeWidth_truncate]

/-- Two stores between two increments, the second of them into the page
itself. -/
def storingPage : Vector UInt8 pageSize :=
  [0x40, 0x89, 0x05, 0x00, 0x10, 0x00, 0x00, 0x89, 0x05, 0x00, 0x01, 0x00, 0x00,
    0x40].zipIdx.foldl (fun page (b, i) => page.set! i b) (Vector.replicate pageSize 0)

def Outcome.returned? : Outcome σ → Option (UInt32 × HostState σ)
  | .returned code t => some (code, t)
  | .jumped _ _ | .lost => none

/-- The second store meets the block, which is left behind it; the second
increment is not made. -/
theorem means_run_of_hit :
    let seq := Sequence.at storingPage ⟨8, 1024, .ia32⟩ 0
    let s : HostState Memory :=
      { context := { cycles := 10 }, world := ⟨#[{ bytes := storingPage }, .zero]⟩ }
    Helpers.onFirstPage.Faithful id ∧ ∃ t,
      s.run .onFirstPage none (seq.operations ⟨2⟩) =
        .returned ReturnCode.selfModified.word t ∧
      Means .onFirstPage id seq ⟨2⟩ s (.returned ReturnCode.selfModified.word t) ∧
      (seq.instructions.map (·.next) = [1, 7, 13, 14] ∧ t.context.cpu.eip = 13 ∧
        t.context.cpu.reg .eax = 1 ∧ t.context.cycles = 7 ∧
        t.world.readWidth .long 0x1000 = 1) := by
  intro seq s
  have hmeans : Means .onFirstPage id seq ⟨2⟩ s (s.run .onFirstPage none (seq.operations ⟨2⟩)) :=
    means_run Helpers.faithful_onFirstPage storingPage ⟨8, 1024, .ia32⟩ ⟨2⟩ s
  have htest : ((s.run .onFirstPage none (seq.operations ⟨2⟩)).returned?.any fun r =>
      decide (r.1 = ReturnCode.selfModified.word ∧
        seq.instructions.map (·.next) = [1, 7, 13, 14] ∧ r.2.context.cpu.eip = 13 ∧
        r.2.context.cpu.reg .eax = 1 ∧ r.2.context.cycles = 7 ∧
        r.2.world.readWidth .long 0x1000 = 1)) = true := by decide +kernel
  generalize s.run .onFirstPage none (seq.operations ⟨2⟩) = outcome at hmeans htest ⊢
  cases outcome with
  | returned code t =>
      obtain ⟨rfl, hrest⟩ := of_decide_eq_true htest
      exact ⟨Helpers.faithful_onFirstPage, t, rfl, hmeans, hrest⟩
  | jumped | lost => cases htest

end Recompiler
