import Recompiler.Proofs.Emulator.History

/-!
# What happens during an action

An action of a host program, and most of all a run, does many things to an
emulator one after the other: blocks are looked up and compiled, compiled code and
the interpreter write memory, blocks are linked, and so on.  The log of an action
lists those that may tear compiled code down, each with the emulator that it
finds.  An action goes the course of its log: from each entry to the next, nothing
changes but the context, counters and links.  If it discards no code by hand, it is
known as well what is counted on the way.
-/

namespace Recompiler

/-! ## Writes of compiled code -/

namespace HostState

variable {σ : Type}

def asks (s : HostState σ) : Operation → List (HostState σ × Width)
  | .call (.helper (.write width)) => [(s, width)]
  | _ => []

/-- The writes that operations ask for, in order. -/
def writes (h : Helpers σ) (sought : Option Nat) (s : HostState σ) :
    List Operation → List (HostState σ × Width)
  | [] => []
  | op :: rest =>
      match sought with
      | some label => s.writes h (if op = .place label then none else some label) rest
      | none =>
          match op with
          | .leave _ | .jumpThrough _ => []
          | .branch cond label => s.writes h (if s.takes cond then some label else none) rest
          | .enter | .literal _ | .call (.absolute _) | .call (.exitSlot _ _) => []
          | op => s.asks op ++ (s.step h op).writes h none rest

end HostState

def Outcome.state? {σ : Type} : Outcome σ → Option (HostState σ)
  | .returned _ s | .jumped _ s => some s
  | .lost => none

namespace Emulator

/-! ## Logs -/

/-- What may tear compiled code down. -/
inductive Event where
  | fetch (eip : UInt32)
  | write (width : Width) (addr value : UInt32) (running : Option BlockId)
  | invalidate (start stop : UInt32)
  | discard (id : BlockId)
  | flush
  deriving DecidableEq

def undergo (e : Emulator) : Event → Except Fault Emulator
  | .fetch eip => e.attempt (.fetch eip)
  | .write width addr value running =>
      .ok { e with guarded := (e.guarded.write width addr value running).2 }
  | .invalidate start stop => .ok (e.invalidate start stop).2
  | .discard id => e.discard id
  | .flush => .ok e.flush

/-- An event, and the emulator that it finds. -/
structure Moment where
  state : Emulator
  event : Event

/-- The emulator while compiled code runs. -/
def during (e : Emulator) (s : HostState GuardedMemory) : Emulator :=
  { e with guarded := s.world, context := s.context }

def stored (e : Emulator) (w : HostState GuardedMemory × Width) : Moment where
  state := e.during w.1
  event := .write w.2 (getElem w.1.params 1 Part.address_lt) (getElem w.1.params 2 Part.value_lt)
    (if w.1.context.running = noBlock then none else some (BlockId.ofWord w.1.context.running))

def blockLog (e : Emulator) (id : BlockId) (s : HostState GuardedMemory) : List Moment :=
  (s.writes helpers none (s.world.code.arena.block id).program).map e.stored

/-- The log of a chain of blocks. -/
def chainLog (e : Emulator) : Nat → BlockId → HostState GuardedMemory → List Moment
  | 0, _, _ => []
  | fuel + 1, id, s =>
      e.blockLog id s ++
        match s.run helpers none (s.world.code.arena.block id).program with
        | .jumped (.exitSlot source slot) s =>
            match landing? s.world.code.arena
                (s.world.code.arena.slotPosition source slot) with
            | some (.block next) => e.chainLog fuel next s
            | _ => []
        | _ => []

def executeLog (e : Emulator) (id : BlockId) : List Moment :=
  if id.isTrampoline || !e.arena.isLive id then []
  else e.chainLog (e.context.cycles.toInt.toNat + 1) id (e.entered id)

/-- The log of a device on the bus. -/
def busLog {α : Type} (e : Emulator) : BusProgram α → List Moment
  | .done _ => []
  | .read addr next => e.busLog (next (e.memory.read addr))
  | .write width addr value next =>
      ⟨e, .write width addr value none⟩ :: (e.busWrite width addr value).busLog next

def interpretLog {σ : Type} (i : Interpreter σ) (s : σ) (e : Emulator) : List Moment :=
  e.busLog (i.step s e.cpu)

def answerLog {σ : Type} (i : Interpreter σ) (s : σ) (pending : Option PendingLink) :
    Fetched × Emulator → List Moment
  | (fetched, e) =>
      match fetched.block? with
      | none => e.interpretLog i s
      | some id =>
          match e.settle pending id with
          | .error _ => []
          | .ok e =>
              e.executeLog id ++
                match e.execute id with
                | .ok (.opcode, _, e) => e.interpretLog i s
                | _ => []

def turnLog {σ : Type} (i : Interpreter σ) (s : σ) (e : Emulator)
    (pending : Option PendingLink) : List Moment :=
  ⟨e, .fetch e.cpu.eip⟩ ::
    match e.fetch e.cpu.eip with
    | .error _ => []
    | .ok answer => answerLog i s pending answer

def turnsLog {σ : Type} (i : Interpreter σ) :
    Nat → σ → Emulator → Option PendingLink → List Moment
  | 0, _, _, _ => []
  | fuel + 1, s, e, pending =>
      if e.context.cycles ≤ 0 then []
      else
        e.turnLog i s pending ++
          match e.turn i s pending with
          | .ok (.go s e pending) => turnsLog i fuel s e pending
          | _ => []

def loadLog (e : Emulator) (addr : UInt32) : List UInt8 → List Moment
  | [] => []
  | b :: rest =>
      ⟨e, .write .byte addr b.toUInt32 e.running?⟩ ::
        (e.write .byte addr b.toUInt32).2.loadLog (addr + 1) rest

/-- The log of an action. -/
def log (e : Emulator) : Action → List Moment
  | .fetch eip => [⟨e, .fetch eip⟩]
  | .execute id => e.executeLog id
  | .run i s cycles => turnsLog i cycles.toInt.toNat s (e.setCycles cycles) none
  | .write width addr value | .writeChecked width addr value =>
      [⟨e, .write width addr value e.running?⟩]
  | .busWrite width addr value => [⟨e, .write width addr value none⟩]
  | .load addr bytes => e.loadLog addr bytes
  | .invalidate start stop => [⟨e, .invalidate start stop⟩]
  | .discard id => [⟨e, .discard id⟩]
  | .flush | .restore _ => [⟨e, .flush⟩]
  | .link _ _ _ | .setCpu _ | .setCycles _ => []

def logAll (e : Emulator) : List Action → List Moment
  | [] => []
  | a :: rest =>
      e.log a ++
        match e.perform a with
        | .ok e => e.logAll rest
        | .error _ => []

/-! ## Courses -/

/-- From one emulator to another through the events of a log; between them the
context and the counters may change, and blocks may be linked. -/
inductive Course (e : Emulator) : List Moment → Emulator → Prop
  | refl : Course e [] e
  | event {log : List Moment} {e₁ e₂ : Emulator} {v : Event} (h : Course e log e₁)
      (hv : e₁.undergo v = .ok e₂) : Course e (log ++ [⟨e₁, v⟩]) e₂
  | context {log : List Moment} {e₁ : Emulator} (h : Course e log e₁) (context : Context) :
      Course e log { e₁ with context }
  | count {log : List Moment} {e₁ : Emulator} (h : Course e log e₁)
      (f : Counters → Counters) : Course e log (e₁.count f)
  | link {log : List Moment} {e₁ e₂ : Emulator} {source target : BlockId} {slot : Slot}
      (h : Course e log e₁) (hl : e₁.link source slot target = .ok e₂) : Course e log e₂

namespace Course

variable {e e₁ e₂ : Emulator} {log log' : List Moment}

theorem trans (h : Course e log e₁) (h' : Course e₁ log' e₂) : Course e (log ++ log') e₂ := by
  induction h' with
  | refl =>
      rw [List.append_nil]
      exact h
  | event _ hv ih =>
      rw [← List.append_assoc]
      exact ih.event hv
  | context _ context ih => exact ih.context context
  | count _ f ih => exact ih.count f
  | link _ hl ih => exact ih.link hl

theorem single {v : Event} (hv : e.undergo v = .ok e₁) : Course e [⟨e, v⟩] e₁ :=
  Course.refl.event hv

/-- The emulator that an event finds comes of what happened before. -/
theorem before (h : Course e log e₁) {before after : List Moment} {m : Moment}
    (hlog : log = before ++ m :: after) : Course e before m.state := by
  induction h generalizing after with
  | refl =>
      rw [eq_comm, List.append_eq_nil_iff] at hlog
      cases hlog.2
  | @event log e₁ _ v h _ ih =>
      rcases List.eq_nil_or_concat after with rfl | ⟨rest, last, rfl⟩
      · obtain ⟨rfl, hm⟩ := List.append_inj' hlog rfl
        cases hm
        exact h
      · rw [List.concat_eq_append, ← List.cons_append, ← List.append_assoc] at hlog
        exact ih (List.append_inj' hlog rfl).1
  | context _ _ ih | count _ _ ih | link _ _ ih => exact ih hlog

end Course

/-! ## What is counted -/

/-- Whether the blocks that an event ends are counted. -/
def Event.counted : Event → Bool
  | .fetch _ | .write _ _ _ _ | .invalidate _ _ => true
  | .discard _ | .flush => false

def Action.counted : Action → Bool
  | .discard _ | .flush | .restore _ => false
  | .fetch _ | .execute _ | .run _ _ _ | .write _ _ _ | .writeChecked _ _ _ | .busWrite _ _ _
  | .load _ _ | .invalidate _ _ | .link _ _ _ | .setCpu _ | .setCycles _ => true

/-- A course on which every event counts the blocks that it ends; between the events only
links and the instructions of the interpreter are counted. -/
inductive Passage (e : Emulator) : List Moment → Emulator → Prop
  | refl : Passage e [] e
  | event {log : List Moment} {e₁ e₂ : Emulator} {v : Event} (h : Passage e log e₁)
      (hc : v.counted = true) (hv : e₁.undergo v = .ok e₂) : Passage e (log ++ [⟨e₁, v⟩]) e₂
  | context {log : List Moment} {e₁ : Emulator} (h : Passage e log e₁) (context : Context) :
      Passage e log { e₁ with context }
  | interpreted {log : List Moment} {e₁ : Emulator} (h : Passage e log e₁) :
      Passage e log (e₁.count fun c => { c with interpreted := c.interpreted + 1 })
  | link {log : List Moment} {e₁ e₂ : Emulator} {source target : BlockId} {slot : Slot}
      (h : Passage e log e₁) (hl : e₁.link source slot target = .ok e₂) : Passage e log e₂

namespace Passage

variable {e e₁ e₂ : Emulator} {log log' : List Moment}

theorem course (h : Passage e log e₁) : Course e log e₁ := by
  induction h with
  | refl => exact .refl
  | event _ _ hv ih => exact ih.event hv
  | context _ context ih => exact ih.context context
  | interpreted _ ih => exact ih.count _
  | link _ hl ih => exact ih.link hl

theorem trans (h : Passage e log e₁) (h' : Passage e₁ log' e₂) : Passage e (log ++ log') e₂ := by
  induction h' with
  | refl =>
      rw [List.append_nil]
      exact h
  | event _ hc hv ih =>
      rw [← List.append_assoc]
      exact ih.event hc hv
  | context _ context ih => exact ih.context context
  | interpreted _ ih => exact ih.interpreted
  | link _ hl ih => exact ih.link hl

theorem single {v : Event} (hc : v.counted = true) (hv : e.undergo v = .ok e₁) :
    Passage e [⟨e, v⟩] e₁ :=
  Passage.refl.event hc hv

theorem cons {v : Event} (hc : v.counted = true) (hv : e.undergo v = .ok e₁)
    (h : Passage e₁ log e₂) : Passage e (⟨e, v⟩ :: log) e₂ :=
  (single hc hv).trans h

theorem before (h : Passage e log e₁) {before after : List Moment} {m : Moment}
    (hlog : log = before ++ m :: after) : Passage e before m.state := by
  induction h generalizing after with
  | refl =>
      rw [eq_comm, List.append_eq_nil_iff] at hlog
      cases hlog.2
  | @event log e₁ _ v h _ _ ih =>
      rcases List.eq_nil_or_concat after with rfl | ⟨rest, last, rfl⟩
      · obtain ⟨rfl, hm⟩ := List.append_inj' hlog rfl
        cases hm
        exact h
      · rw [List.concat_eq_append, ← List.cons_append, ← List.append_assoc] at hlog
        exact ih (List.append_inj' hlog rfl).1
  | context _ _ ih | interpreted _ ih | link _ _ ih => exact ih hlog

end Passage

/-! ## Compiled code -/

theorem passage_step (e : Emulator) (s : HostState GuardedMemory) (op : Operation) :
    Passage (e.during s) ((s.asks op).map e.stored) (e.during (s.step helpers op)) := by
  cases op with
  | call target =>
      cases target with
      | helper f =>
          cases f with
          | read32 => exact .refl
          | write width => exact .single rfl rfl
      | absolute _ | exitSlot _ _ => exact .refl
  | _ => exact Passage.refl.context (s.step helpers _).context

/-- Operations that end go the course of the writes they ask for. -/
theorem passage_run (e : Emulator) {s s' : HostState GuardedMemory} {sought : Option Nat}
    {ops : List Operation} (hr : (s.run helpers sought ops).state? = some s') :
    Passage (e.during s) ((s.writes helpers sought ops).map e.stored) (e.during s') := by
  induction ops generalizing s sought with
  | nil => cases hr
  | cons op rest ih =>
      cases sought with
      | some label => exact ih hr
      | none =>
          have hstep (hrest : ((s.step helpers op).run helpers none rest).state? = some s') :
              Passage (e.during s) ((s.asks op ++ (s.step helpers op).writes helpers none rest).map
                e.stored) (e.during s') := by
            rw [List.map_append]
            exact (passage_step e s op).trans (ih hrest)
          cases op with
          | leave _ | jumpThrough _ =>
              cases hr
              exact .refl
          | branch cond label => exact ih hr
          | enter | literal _ => cases hr
          | call target =>
              cases target with
              | helper f => exact hstep hr
              | absolute _ | exitSlot _ _ => cases hr
          | _ => exact hstep hr

theorem passage_chain (e : Emulator) (fuel : Nat) {id : BlockId}
    {s s' : HostState GuardedMemory} {code : UInt32} (hc : chain fuel id s = .ok (code, s')) :
    Passage (e.during s) (e.chainLog fuel id s) (e.during s') := by
  induction fuel generalizing id s with
  | zero => cases hc
  | succ fuel ih =>
      have hblock (t : HostState GuardedMemory)
          (hr : (s.run helpers none (s.world.code.arena.block id).program).state? = some t) :
          Passage (e.during s) (e.blockLog id s) (e.during t) := passage_run e hr
      unfold chain at hc
      rw [chainLog]
      split at hc
      · next hrun =>
          cases hc
          rw [hrun] at hblock ⊢
          exact (hblock _ rfl).trans .refl
      · next hrun =>
          rw [hrun] at hblock ⊢
          simp only
          split at hc
          · next hland =>
              cases hc
              rw [hland]
              exact (hblock _ rfl).trans .refl
          · next hland =>
              rw [hland]
              exact (hblock _ rfl).trans (ih hc)
          · cases hc
      · cases hc

theorem passage_execute {e e' : Emulator} {id last : BlockId} {code : ReturnCode}
    (hx : e.execute id = .ok (code, last, e')) : Passage e (e.executeLog id) e' := by
  obtain ⟨hlive, word, s, hc, _, _, _, rfl⟩ := of_execute_ok hx
  rw [executeLog, if_neg (ne_true_of_eq_false hlive)]
  have hentered := Passage.refl.context (e := e) (e.entered id).context
  exact (hentered.trans (passage_chain e _ hc)).context _

/-! ## Runs -/

theorem passage_bus {α : Type} (e : Emulator) (p : BusProgram α) :
    Passage e (e.busLog p) { e with guarded := (e.guarded.run p).2 } := by
  induction p generalizing e with
  | done _ => exact .refl
  | read addr next ih => exact ih _ e
  | write width addr value next ih => exact .cons rfl rfl (ih (e.busWrite width addr value))

section Run

variable {σ : Type} (i : Interpreter σ)

theorem passage_interpret (e : Emulator) (s : σ) :
    Passage e (e.interpretLog i s) (e.interpret i s).2.2 :=
  ((passage_bus e (i.step s e.cpu)).context _).interpreted

theorem passage_interpreted (e : Emulator) (s : σ) :
    Passage e (e.interpretLog i s) (turn.interpreted i s e).emulator := by
  have hi := passage_interpret i e s
  unfold turn.interpreted
  split
  · next he =>
      rw [he] at hi
      exact hi
  · next he =>
      rw [he] at hi
      exact hi

theorem passage_settle {e e' : Emulator} {pending : Option PendingLink} {id : BlockId}
    (hs : e.settle pending id = .ok e') : Passage e [] e' := by
  unfold settle at hs
  split at hs
  · cases hs
    exact .refl
  · split at hs
    · exact Passage.refl.link hs
    · cases hs
      exact .refl

theorem passage_turn {e : Emulator} {s : σ} {pending : Option PendingLink} {t : Turn σ}
    (ht : e.turn i s pending = .ok t) : Passage e (e.turnLog i s pending) t.emulator := by
  unfold turn at ht
  obtain ⟨⟨fetched, e₁⟩, hf, ht⟩ := bind_eq_ok_iff.mp ht
  have hfetched : e.undergo (.fetch e.cpu.eip) = .ok e₁ :=
    bind_eq_ok_iff.mpr ⟨(fetched, e₁), hf, rfl⟩
  rw [turnLog, hf]
  refine .cons rfl hfetched ?_
  unfold answerLog
  cases hblock : fetched.block? with
  | none =>
      simp only [hblock] at ht ⊢
      cases ht
      exact passage_interpreted i e₁ s
  | some id =>
      simp only [hblock] at ht ⊢
      obtain ⟨e₂, hs, ht⟩ := bind_eq_ok_iff.mp ht
      obtain ⟨⟨code, last, e₃⟩, hx, ht⟩ := bind_eq_ok_iff.mp ht
      rw [hs]
      simp only
      rw [hx]
      refine (passage_settle hs).trans ((passage_execute hx).trans ?_)
      cases code with
      | opcode =>
          cases ht
          exact passage_interpreted i e₃ s
      | _ =>
          cases ht
          exact .refl

theorem passage_turns (fuel : Nat) {e e' : Emulator} {s s' : σ} {pending : Option PendingLink}
    {exit : RunEnd} (ht : turns i fuel s e pending = .ok (exit, s', e')) :
    Passage e (turnsLog i fuel s e pending) e' := by
  induction fuel generalizing e s pending with
  | zero =>
      cases ht
      exact .refl
  | succ fuel ih =>
      unfold turns at ht
      rw [turnsLog]
      split at ht
      · next hcycles =>
          cases ht
          rw [if_pos hcycles]
          exact .refl
      · next hcycles =>
          obtain ⟨t, hturn, ht⟩ := bind_eq_ok_iff.mp ht
          have hcourse := passage_turn i hturn
          rw [if_neg hcycles, hturn]
          split at ht
          · exact hcourse.trans (ih ht)
          · cases ht
            exact hcourse.trans .refl

end Run

/-! ## Actions -/

theorem passage_load (e : Emulator) (addr : UInt32) (bytes : List UInt8) :
    Passage e (e.loadLog addr bytes) (e.load addr bytes) := by
  induction bytes generalizing e addr with
  | nil => exact .refl
  | cons b rest ih => exact .cons rfl rfl (ih (e.write .byte addr b.toUInt32).2 (addr + 1))

/-- What an action that counts does goes the course of its log, and is counted. -/
theorem passage_perform {e e' : Emulator} {a : Action} (ha : a.counted = true)
    (hp : e.perform a = .ok e') : Passage e (e.log a) e' := by
  replace hp := (perform_eq_ok_iff.mp hp).1
  cases a with
  | fetch eip => exact .single rfl hp
  | execute id =>
      obtain ⟨⟨code, last, e₁⟩, hx, hp⟩ := bind_eq_ok_iff.mp hp
      cases hp
      exact passage_execute hx
  | run i s cycles =>
      obtain ⟨⟨exit, s', e₁⟩, hr, hp⟩ := bind_eq_ok_iff.mp hp
      cases hp
      have hset := Passage.refl.context (e := e) { e.context with cycles }
      exact hset.trans (passage_turns i _ hr)
  | write width addr value | writeChecked width addr value | busWrite width addr value
  | invalidate start stop =>
      cases hp
      exact .single rfl rfl
  | discard id | flush | restore cpu => cases ha
  | load addr bytes =>
      cases hp
      exact passage_load e addr bytes
  | link source slot target => exact Passage.refl.link hp
  | setCpu cpu | setCycles cycles =>
      cases hp
      exact Passage.refl.context _

/-- **An action goes the course of its log.** -/
theorem course_perform {e e' : Emulator} {a : Action} (hp : e.perform a = .ok e') :
    Course e (e.log a) e' := by
  cases hcounted : a.counted with
  | true => exact (passage_perform hcounted hp).course
  | false =>
      replace hp := (perform_eq_ok_iff.mp hp).1
      cases a with
      | discard id => exact .single hp
      | flush =>
          cases hp
          exact .single rfl
      | restore cpu =>
          cases hp
          exact Course.context (.single rfl) _
      | _ => cases hcounted

theorem course_performAll {as : List Action} {e e' : Emulator} (hp : e.performAll as = .ok e') :
    Course e (e.logAll as) e' := by
  induction as generalizing e with
  | nil =>
      cases hp
      exact .refl
  | cons a rest ih =>
      obtain ⟨e₁, hfirst, hp⟩ := bind_eq_ok_iff.mp hp
      rw [logAll, hfirst]
      exact (course_perform hfirst).trans (ih hp)

theorem passage_performAll {as : List Action} (ha : ∀ a ∈ as, a.counted = true) {e e' : Emulator}
    (hp : e.performAll as = .ok e') : Passage e (e.logAll as) e' := by
  induction as generalizing e with
  | nil =>
      cases hp
      exact .refl
  | cons a rest ih =>
      obtain ⟨hfirst, hrest⟩ := List.forall_mem_cons.mp ha
      obtain ⟨e₁, hone, hp⟩ := bind_eq_ok_iff.mp hp
      rw [logAll, hone]
      exact (passage_perform hfirst hone).trans (ih hrest hp)

end Emulator

end Recompiler
