import Recompiler.Proofs.Emulator.Unfailing

/-!
# Every run ends, and in time

A run goes on as long as there is budget left, and every turn of the dispatcher
takes something off it; so does every block compiled code goes through, however a
host program linked it.  Hence a run ends, with the budget overdrawn by less than a
block.  The budget is a signed word, and it never wraps.
-/

namespace Recompiler

namespace Emulator

variable {σ : Type}

/-! ## Turns and what they charge for -/

def interpreting (i : Interpreter σ) (s : σ) (e : Emulator) : Charge :=
  ⟨e.context.cycles, 1, (e.interpret i s).2.2.context.cycles⟩

/-- What a turn of the dispatcher goes through, and charges for: an instruction of
the interpreter's, or compiled code, or both. -/
inductive Turning (i : Interpreter σ) (s : σ) (e : Emulator) (pending : Option PendingLink) :
    List Charge → Turn σ → Prop
  | interpreted {f : Fetched} {e₁ : Emulator} (hf : e.fetch e.cpu.eip = .ok (f, e₁))
      (hid : f.block? = none) :
      Turning i s e pending [interpreting i s e₁] (turn.interpreted i s e₁)
  | executed {f : Fetched} {e₁ e₂ : Emulator} {id : BlockId} {cs : List Charge} {code : ReturnCode}
      {t : HostState GuardedMemory} (hf : e.fetch e.cpu.eip = .ok (f, e₁))
      (hid : f.block? = some id) (hs : e₁.settle pending id = .ok e₂)
      (hflow : Flows id (e₂.entered id) cs code.word t) (hcode : code ≠ .opcode) :
      Turning i s e pending cs (answered i s (BlockId.ofWord t.context.running) (e₂.left t) code)
  | handed {f : Fetched} {e₁ e₂ : Emulator} {id : BlockId} {cs : List Charge}
      {t : HostState GuardedMemory} (hf : e.fetch e.cpu.eip = .ok (f, e₁))
      (hid : f.block? = some id) (hs : e₁.settle pending id = .ok e₂)
      (hflow : Flows id (e₂.entered id) cs ReturnCode.opcode.word t) :
      Turning i s e pending (cs ++ [interpreting i s (e₂.left t)])
        (turn.interpreted i s (e₂.left t))

/-- The budget a turn starts with, what it charges for, and what it leaves. -/
structure Lap where
  start : Int32
  charges : List Charge
  finish : Int32

/-- A turn that had budget, took something off it, and charged exactly. -/
structure Lap.Fair (lap : Lap) : Prop where
  started : 0 < lap.start
  fell : lap.finish < lap.start
  ledger : Charge.Ledger lap.start lap.charges lap.finish

/-- How the dispatcher goes from turn to turn until a run ends. -/
inductive Laps (i : Interpreter σ) : σ → Emulator → Option PendingLink → List Lap →
    Except Fault (RunEnd × σ × Emulator) → Prop
  | spent {s : σ} {e : Emulator} {pending : Option PendingLink} (hc : e.context.cycles ≤ 0) :
      Laps i s e pending [] (.ok (.outOfCycles, s, e))
  | failed {s : σ} {e : Emulator} {pending : Option PendingLink} {fault : Fault}
      (hc : ¬e.context.cycles ≤ 0) (ht : e.turn i s pending = .error fault) :
      Laps i s e pending [] (.error fault)
  | stopped {s s' : σ} {e e' : Emulator} {pending : Option PendingLink} {exit : RunEnd}
      {cs : List Charge} (hc : ¬e.context.cycles ≤ 0)
      (ht : e.turn i s pending = .ok (.stop exit s' e'))
      (hcs : Turning i s e pending cs (.stop exit s' e')) :
      Laps i s e pending [⟨e.context.cycles, cs, e'.context.cycles⟩] (.ok (exit, s', e'))
  | gone {s s' : σ} {e e' : Emulator} {pending pending' : Option PendingLink} {cs : List Charge}
      {laps : List Lap} {r : Except Fault (RunEnd × σ × Emulator)} (hc : ¬e.context.cycles ≤ 0)
      (ht : e.turn i s pending = .ok (.go s' e' pending'))
      (hcs : Turning i s e pending cs (.go s' e' pending'))
      (hrest : Laps i s' e' pending' laps r) :
      Laps i s e pending (⟨e.context.cycles, cs, e'.context.cycles⟩ :: laps) r

/-! ## One turn -/

/-- How an emulator comes out of a turn that charged. -/
structure Charged (e : Emulator) (cs : List Charge) (e' : Emulator) : Prop where
  orderly : e'.Orderly
  settings : e'.settings = e.settings
  ledger : Charge.Ledger e.context.cycles cs e'.context.cycles
  falls : e'.context.cycles.toInt < e.context.cycles.toInt
  within : e.limits.Within 0 e'.context.cycles

def Turn.pending : Turn σ → Option PendingLink
  | .go _ _ pending => pending
  | .stop _ _ _ => none

/-- A turn that charged, from which the dispatcher can go on. -/
structure Turn.Fair (e : Emulator) (cs : List Charge) (t : Turn σ) : Prop where
  charged : e.Charged cs t.emulator
  awaits : t.emulator.Awaits t.pending
  stop : ∀ s e', t ≠ .stop .outOfCycles s e'

/-- An instruction of the interpreter's, after what was charged already. -/
theorem fair_interpreted {e e₁ : Emulator} (i : Interpreter σ) (s : σ) {cs : List Charge}
    (h : e₁.Orderly) (hsettings : e₁.settings = e.settings)
    (hledger : Charge.Ledger e.context.cycles cs e₁.context.cycles)
    (hle : e₁.context.cycles.toInt ≤ e.context.cycles.toInt)
    (hwithin : e.limits.Within 1 e₁.context.cycles) :
    (turn.interpreted i s e₁).Fair e (cs ++ [interpreting i s e₁]) := by
  have hmost : e.limits.dearest ≤ pageSize := Nat.min_le_right ..
  unfold Limits.Within at hwithin
  have hcycles := cycles_interpret (e := e₁) i s (by omega)
  have hexact : (interpreting i s e₁).Exact := hcycles
  have hcharged : e.Charged (cs ++ [interpreting i s e₁]) (e₁.interpret i s).2.2 := by
    refine ⟨h.interpret i s, hsettings, hledger.append ⟨rfl, hexact, rfl⟩, ?_, ?_⟩
    · omega
    · unfold Limits.Within
      omega
  unfold turn.interpreted
  split
  · next he =>
      rw [he] at hcharged
      exact ⟨hcharged, awaits_none _, nofun⟩
  · next he =>
      rw [he] at hcharged
      exact ⟨hcharged, awaits_none _, nofun⟩

section Fair

variable {e e₂ : Emulator} (i : Interpreter σ) (s : σ) {id : BlockId} {cs : List Charge}
  {code : ReturnCode} {t : HostState GuardedMemory} (hcontext : e₂.context = e.context)
  (hsettings : e₂.settings = e.settings) (hwithin : e.limits.Within 0 e.context.cycles)

include hcontext hsettings hwithin

/-- The budget compiled code leaves, in terms of what a turn started with. -/
theorem Executed.budget (h : e₂.Executed id cs code t) :
    Charge.Ledger e.context.cycles cs t.context.cycles ∧ e.limits.Within 0 t.context.cycles ∧
      (code = .opcode → e.limits.Within 1 t.context.cycles) := by
  have hlimits : e₂.limits = e.limits := by
    unfold limits
    rw [hsettings]
  have hledger := h.paid.ledger
  have hpaid := h.paid.within
  rw [entered, hcontext] at hledger hpaid
  rw [hlimits] at hpaid
  obtain ⟨hzero, hone⟩ := hpaid hwithin
  exact ⟨hledger, hzero, fun hcode => hone (congrArg ReturnCode.word hcode)⟩

theorem Executed.fair_opcode (h : e₂.Executed id cs .opcode t) :
    (turn.interpreted i s (e₂.left t)).Fair e (cs ++ [interpreting i s (e₂.left t)]) := by
  obtain ⟨hledger, _, hspare⟩ := h.budget hcontext hsettings hwithin
  have hle := h.le
  rw [hcontext] at hle
  exact fair_interpreted i s h.orderly hsettings hledger hle (hspare rfl)

theorem Executed.fair (h : e₂.Executed id cs code t) (hpos : 0 < e.context.cycles.toInt)
    (hcode : code ≠ .opcode) :
    (answered i s (BlockId.ofWord t.context.running) (e₂.left t) code).Fair e cs := by
  obtain ⟨hledger, hzero, _⟩ := h.budget hcontext hsettings hwithin
  have hlt := h.lt
  rw [hcontext] at hlt
  have hcharged : e.Charged cs (e₂.left t) :=
    ⟨h.orderly, hsettings, hledger, hlt hpos hcode, hzero⟩
  cases code with
  | normal | cycles | selfModified => exact ⟨hcharged, awaits_none _, nofun⟩
  | firstExit => exact ⟨hcharged, h.awaits .first rfl, nofun⟩
  | secondExit => exact ⟨hcharged, h.awaits .second rfl, nofun⟩
  | opcode => exact absurd rfl hcode
  | callback => exact ⟨hcharged, awaits_none _, nofun⟩

end Fair

theorem Coherent.within {e : Emulator} (h : e.Coherent) {spare : Nat} {cycles : Int32}
    (hc : (spare : Int) ≤ cycles.toInt) : e.limits.Within spare cycles := by
  have hone : 0 < e.limits.dearest := h.settings.sufficient.bounded.pos
  unfold Limits.Within
  omega

/-- **A turn with budget left takes something off it,** and charges exactly, or
finds no descriptor left. -/
theorem Orderly.turn {e : Emulator} (h : e.Orderly) (i : Interpreter σ) (s : σ)
    {pending : Option PendingLink} (ha : e.Awaits pending) (hpos : 0 < e.context.cycles.toInt) :
    e.turn i s pending = .error (.descriptorsExhausted e.arena.capacity) ∨
      ∃ cs t, e.turn i s pending = .ok t ∧ Turning i s e pending cs t ∧ t.Fair e cs := by
  rcases fetch_spec h.coherent e.cpu.eip with ⟨hf, _⟩ | ⟨f, id, e₁, hf, hid, hfound, _⟩ | hf
  · have hfair : (turn.interpreted i s e).Fair e ([] ++ [interpreting i s e]) :=
      fair_interpreted i s h rfl rfl (Int.le_refl _) (h.coherent.within hpos)
    exact Or.inr ⟨_, _, turn_of_interpret i s hf rfl, .interpreted hf rfl, hfair⟩
  · obtain ⟨e₂, hs, h₂, hlive, hsettings, hcontext⟩ := h.settle ha hfound
    have hsettings : e₂.settings = e.settings := hsettings.trans hfound.settings
    have hcontext : e₂.context = e.context := hcontext.trans hfound.context
    have hwithin : e.limits.Within 0 e.context.cycles := h.coherent.within (Int.le_of_lt hpos)
    obtain ⟨cs, code, t, hx⟩ := h₂.execute hlive
    have hturn := turn_eq i s hf hid hs hx.execute
    by_cases hcode : code = .opcode
    · subst hcode
      exact Or.inr ⟨_, _, hturn, .handed hf hid hs hx.flows,
        hx.fair_opcode i s hcontext hsettings hwithin⟩
    · exact Or.inr ⟨_, _, hturn, .executed hf hid hs hx.flows hcode,
        hx.fair i s hcontext hsettings hwithin hpos hcode⟩
  · exact Or.inl (turn_of_error i s hf)

/-! ## Runs -/

/-- How an emulator comes out of a run. -/
structure Ran (e : Emulator) (laps : List Lap) (exit : RunEnd) (e' : Emulator) : Prop where
  orderly : e'.Orderly
  ledger : Charge.Ledger e.context.cycles (laps.flatMap Lap.charges) e'.context.cycles
  within : e.limits.Within 0 e.context.cycles → e.limits.Within 0 e'.context.cycles
  spent : exit = .outOfCycles → e'.context.cycles ≤ 0

section Ran

variable {e e' e'' : Emulator} {cs : List Charge} {laps : List Lap} {exit : RunEnd}

theorem Orderly.ran (h : e.Orderly) (hc : e.context.cycles ≤ 0) : e.Ran [] .outOfCycles e :=
  ⟨h, rfl, fun hwithin => hwithin, fun _ => hc⟩

theorem Charged.stopped (h : e.Charged cs e') (hexit : exit ≠ .outOfCycles) :
    e.Ran [⟨e.context.cycles, cs, e'.context.cycles⟩] exit e' := by
  refine ⟨h.orderly, ?_, fun _ => h.within, fun he => absurd he hexit⟩
  rw [List.flatMap_singleton]
  exact h.ledger

theorem Charged.gone (h : e.Charged cs e') (hran : e'.Ran laps exit e'') :
    e.Ran (⟨e.context.cycles, cs, e'.context.cycles⟩ :: laps) exit e'' := by
  have hlimits : e'.limits = e.limits := by
    unfold limits
    rw [h.settings]
  refine ⟨hran.orderly, ?_, fun _ => ?_, hran.spent⟩
  · rw [List.flatMap_cons]
    exact h.ledger.append hran.ledger
  · rw [← hlimits]
    apply hran.within
    rw [hlimits]
    exact h.within

theorem Charged.fair (h : e.Charged cs e') (hpos : 0 < e.context.cycles.toInt) :
    Lap.Fair ⟨e.context.cycles, cs, e'.context.cycles⟩ :=
  ⟨Int32.lt_iff_toInt_lt.mpr hpos, Int32.lt_iff_toInt_lt.mpr h.falls, h.ledger⟩

end Ran

/-- **Turns come to an end,** by induction on the budget: each takes something off
it. -/
theorem Orderly.laps (i : Interpreter σ) (fuel : Nat) {e : Emulator} (h : e.Orderly) (s : σ)
    {pending : Option PendingLink} (ha : e.Awaits pending)
    (hfuel : e.context.cycles.toInt.toNat ≤ fuel) :
    ∃ laps, Laps i s e pending laps (turns i fuel s e pending) ∧ (∀ lap ∈ laps, lap.Fair) ∧
      ((∃ n, turns i fuel s e pending = .error (.descriptorsExhausted n)) ∨
        ∃ exit s' e', turns i fuel s e pending = .ok (exit, s', e') ∧ e.Ran laps exit e') := by
  have hnone : ∀ lap ∈ ([] : List Lap), lap.Fair := fun _ hlap => absurd hlap List.not_mem_nil
  induction fuel generalizing e s pending with
  | zero =>
      have hc : e.context.cycles ≤ 0 := by
        by_contra hc
        have := not_exhausted_iff.mp hc
        omega
      exact ⟨[], .spent hc, hnone, Or.inr ⟨_, s, e, rfl, h.ran hc⟩⟩
  | succ fuel ih =>
      by_cases hc : e.context.cycles ≤ 0
      · have hturns : turns i (fuel + 1) s e pending = .ok (.outOfCycles, s, e) := if_pos hc
        rw [hturns]
        exact ⟨[], .spent hc, hnone, Or.inr ⟨_, s, e, rfl, h.ran hc⟩⟩
      · have hpos := not_exhausted_iff.mp hc
        have hturns : turns i (fuel + 1) s e pending = _ := if_neg hc
        rw [hturns]
        rcases h.turn i s ha hpos with hfault | ⟨cs, t, ht, hturning, hfair⟩
        · rw [hfault]
          exact ⟨[], .failed hc hfault, hnone, Or.inl ⟨_, rfl⟩⟩
        · rw [ht]
          obtain ⟨hcharged, hawaits, hstop⟩ := hfair
          cases t with
          | stop exit s' e' =>
              have hexit : exit ≠ .outOfCycles := by
                rintro rfl
                exact hstop s' e' rfl
              exact ⟨_, .stopped hc ht hturning, List.forall_mem_singleton.mpr (hcharged.fair hpos),
                Or.inr ⟨exit, s', e', rfl, hcharged.stopped hexit⟩⟩
          | go s' e' pending' =>
              have hfalls : e'.context.cycles.toInt < e.context.cycles.toInt := hcharged.falls
              have hfuel' : e'.context.cycles.toInt.toNat ≤ fuel := by omega
              obtain ⟨laps, hlaps, hall, hend⟩ := ih hcharged.orderly s' hawaits hfuel'
              refine ⟨_ :: laps, .gone hc ht hturning hlaps,
                List.forall_mem_cons.mpr ⟨hcharged.fair hpos, hall⟩, hend.imp_right ?_⟩
              rintro ⟨exit, s'', e'', hr, hran⟩
              exact ⟨exit, s'', e'', hr, hcharged.gone hran⟩

/-! ## Whatever a host program does -/

/-- Emulators that come of a new one, of a memory that nothing watches, by
permitted actions that did not fail. -/
inductive Permitted : Emulator → Prop
  | new {settings : Settings} {memory : Memory} {decoder : Decoder} {e : Emulator}
      (hm : memory.Unwatched) (hn : Emulator.new settings memory decoder = .ok e) :
      Permitted e
  | perform {e e' : Emulator} {a : Action} (h : Permitted e) (ha : e.Permits a)
      (hp : e.perform a = .ok e') : Permitted e'

theorem Permitted.performAll {as : List Action} {e e' : Emulator} (h : Permitted e)
    (ha : e.Lawful as) (hp : e.performAll as = .ok e') : Permitted e' := by
  induction as generalizing e with
  | nil =>
      cases hp
      exact h
  | cons a rest ih =>
      obtain ⟨hpermitted, hrest⟩ := ha
      obtain ⟨e₁, h₁, hp⟩ := bind_eq_ok_iff.mp hp
      rw [h₁] at hrest
      exact ih (h.perform hpermitted h₁) hrest hp

/-- **Permitted actions keep the emulator in order.** -/
theorem Orderly.perform {e e' : Emulator} {a : Action} (h : e.Orderly) (ha : e.Permits a)
    (hp : e.perform a = .ok e') : e'.Orderly := by
  have hcoherent := h.coherent.perform hp
  have htears : a.tears = true → e'.Orderly := fun ht =>
    ⟨hcoherent, (h.coherent.shrinks_perform ht hp).2.homed h.homed⟩
  replace hp := (perform_eq_ok_iff.mp hp).1
  cases a with
  | fetch eip =>
      obtain ⟨⟨f, e₁⟩, hf, hp⟩ := bind_eq_ok_iff.mp hp
      cases hp
      rcases fetch_spec h.coherent eip with ⟨hok, _⟩ | ⟨f', id, e₂, hok, _, hfound, _⟩ | herr
      · cases hf.symm.trans hok
        exact h
      · cases hf.symm.trans hok
        exact h.found hfound
      · cases hf.symm.trans herr
  | run i s cycles =>
      obtain ⟨⟨exit, s', e₁⟩, hr, hp⟩ := bind_eq_ok_iff.mp hp
      cases hp
      obtain ⟨laps, _, _, hend⟩ := (h.setContext { e.context with cycles }).laps i
        cycles.toInt.toNat s (awaits_none _) (Nat.le_refl _)
      rcases hend with ⟨n, herr⟩ | ⟨exit', s'', e₂, hok, hran⟩
      · cases hr.symm.trans herr
      · cases hr.symm.trans hok
        exact hran.orderly
  | link source slot target =>
      obtain ⟨a, hl, hp⟩ := bind_eq_ok_iff.mp hp
      cases hp
      exact h.linkTo ha.2 hl
  | _ => exact htears rfl

theorem Permitted.orderly {e : Emulator} (h : Permitted e) : e.Orderly := by
  induction h with
  | new hm hn => exact ⟨.new hm hn, (Sound.new hm hn).threaded.homed⟩
  | perform _ ha hp ih => exact ih.perform ha hp

/-- **Every run ends, and no budget wraps.**  Compiled code returns from wherever it
is entered, however its exits are linked, and whatever the budget is.  So does a
run, unless it finds no descriptor left: each of its turns starts with budget and
takes something off it, and what is left in the end is what was charged less, and
overdrawn by less than a block.  A run ends for want of budget only if there is
none left. -/
theorem run_of_permitted {e : Emulator} (h : Permitted e) :
    (∀ id, e.arena.isLive id = true → ∃ cs code t,
      Flows id (e.entered id) cs code.word t ∧
      e.execute id = .ok (code, BlockId.ofWord t.context.running, e.left t) ∧
      Charge.Ledger e.context.cycles cs t.context.cycles) ∧
    ∀ {σ : Type} (i : Interpreter σ) (s : σ) (budget : Int32), ∃ laps,
      Laps i s (e.setCycles budget) none laps (e.run i s budget) ∧
      (∀ lap ∈ laps, lap.Fair) ∧
      ((∃ n, e.run i s budget = .error (.descriptorsExhausted n)) ∨
        ∃ exit s' e', e.run i s budget = .ok (exit, s', e') ∧
          Charge.Ledger budget (laps.flatMap Lap.charges) e'.context.cycles ∧
          (0 < budget → 1 - (min e.settings.blockInstructions pageSize : Nat) ≤
            e'.context.cycles.toInt) ∧
          (exit = .outOfCycles → e'.context.cycles ≤ 0)) := by
  have horderly := h.orderly
  constructor
  · intro id hid
    obtain ⟨cs, code, t, hx⟩ := horderly.execute hid
    exact ⟨cs, code, t, hx.flows, hx.execute, hx.paid.ledger⟩
  · intro σ i s budget
    have hset : (e.setCycles budget).Orderly := horderly.setContext _
    obtain ⟨laps, hlaps, hall, hend⟩ :=
      hset.laps i budget.toInt.toNat s (awaits_none _) (Nat.le_refl _)
    refine ⟨laps, hlaps, hall, hend.imp_right ?_⟩
    rintro ⟨exit, s', e', hr, hran⟩
    refine ⟨exit, s', e', hr, hran.ledger, fun hpos => ?_, hran.spent⟩
    have hbudget : 0 < budget.toInt := Int32.lt_iff_toInt_lt.mp hpos
    have hwithin := hran.within (horderly.coherent.within (Int.le_of_lt hbudget))
    have hdearest : (e.setCycles budget).limits.dearest =
        min e.settings.blockInstructions pageSize := rfl
    rw [Limits.Within, hdearest] at hwithin
    omega

def terse : Emulator :=
  { settings := { Settings.small with blockInstructions := 2 }
    guarded := { code := .new { Settings.small with blockInstructions := 2 }, memory := ⟨#[.zero]⟩ } }

/-- A loop of two instructions, linked to itself by hand: the chain ends, and a run
overdraws the budget by as much as it may. -/
theorem run_of_handmade_loop :
    ∃ e, Permitted e ∧ e.arena.isLive ⟨2⟩ = true ∧ e.arena.successor ⟨2⟩ .first = ⟨2⟩ ∧
      (∃ cs code t, Flows ⟨2⟩ (e.entered ⟨2⟩) cs code.word t ∧
        e.execute ⟨2⟩ = .ok (code, BlockId.ofWord t.context.running, e.left t) ∧
        Charge.Ledger e.context.cycles cs t.context.cycles) ∧
      ∃ laps e', Laps stepper () (e.setCycles 5) none laps (.ok (.outOfCycles, (), e')) ∧
        (∀ lap ∈ laps, lap.Fair) ∧ (0 : Int32) < 5 ∧
        Charge.Ledger 5 (laps.flatMap Lap.charges) e'.context.cycles ∧
        e'.context.cycles.toInt = 1 - (min e.settings.blockInstructions pageSize : Nat) ∧
        1 - (min e.settings.blockInstructions pageSize : Nat) ≤ e'.context.cycles.toInt ∧
        e'.context.cycles ≤ 0 := by
  have hlawful : terse.Lawful [.load 0 [0x40, 0xEB, 0xFD], .fetch 0, .link ⟨2⟩ .first ⟨2⟩] := by
    decide +kernel
  obtain ⟨e, he, htest⟩ := exists_of_succeeds
    (x := terse.performAll [.load 0 [0x40, 0xEB, 0xFD], .fetch 0, .link ⟨2⟩ .first ⟨2⟩])
    (p := fun e => e.arena.isLive ⟨2⟩ && e.arena.successor ⟨2⟩ .first = ⟨2⟩ &&
      succeeds (e.run stepper () 5) fun r => r.1 = .outOfCycles &&
        r.2.2.context.cycles.toInt = 1 - (min e.settings.blockInstructions pageSize : Nat))
    (by decide +kernel)
  rw [Bool.and_eq_true, Bool.and_eq_true, decide_eq_true_iff] at htest
  obtain ⟨⟨hlive, hloop⟩, hrun⟩ := htest
  obtain ⟨r, hr, hend⟩ := exists_of_succeeds hrun
  rw [Bool.and_eq_true, decide_eq_true_iff, decide_eq_true_iff] at hend
  have hnew : Emulator.new terse.settings ⟨#[.zero]⟩ = .ok terse := rfl
  have h : Permitted e := .performAll (.new unwatched_zeroed hnew) hlawful he
  obtain ⟨hexecute, hruns⟩ := run_of_permitted h
  obtain ⟨laps, hlaps, hfair, hn | ⟨exit, s', e', hok, hledger, hleft, hspent⟩⟩ :=
    hruns stepper () 5
  · obtain ⟨n, herr⟩ := hn
    cases hr.symm.trans herr
  · cases hr.symm.trans hok
    obtain ⟨rfl, hcycles⟩ := hend
    rw [hok] at hlaps
    exact ⟨e, h, hlive, hloop, hexecute ⟨2⟩ hlive, laps, e', hlaps, hfair, by decide, hledger,
      hcycles, hleft (by decide), hspent rfl⟩

end Emulator

end Recompiler
