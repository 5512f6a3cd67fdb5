import Recompiler.Proofs.Emulator.Budget
import Recompiler.Proofs.Emulator.Told
import Recompiler.Proofs.Store.Displaced
import Recompiler.Proofs.Store.LastLink

/-!
# Runs link the exit that was left

A run leaves compiled code through an exit, looks up where the guest goes on, and
links an exit to what it found.  The log of its moves has every exit left and every
exit linked, in order: a link always comes right after the exit was left that it is
for.  It is the same exit, unless that one led to the trampoline of the other slot
before the run began, where only a link by hand can have sent it.
-/

namespace Recompiler

/-- Linking moves the exit that is linked; of the others it sends at most one home. -/
theorem Arena.Linked.link_cases {a a' : Arena} (h : a.Linked) {source target : BlockId}
    {slot : Slot} (hl : a.link source slot target = .ok a') (d : BlockId) (s : Slot) :
    (d = source ∧ s = slot ∧ a'.successor d s = target) ∨
      a'.successor d s = a.successor d s ∨ a'.successor d s = .trampoline s := by
  by_cases hc : a.successor source slot = target
  · rw [link_eq_self hl hc]
    exact Or.inr (Or.inl rfl)
  rw [successor_link h hl hc]
  split
  · next hds => exact Or.inl ⟨hds.1, hds.2, rfl⟩
  · split
    · exact Or.inr (Or.inr rfl)
    · exact Or.inr (Or.inl rfl)

namespace Emulator

/-! ## The log of a run -/

/-- What a run does about an exit. -/
inductive Move where
  /-- Compiled code was left through it. -/
  | left (x : ExitRef)
  /-- It was linked to a block. -/
  | linked (x : ExitRef) (target : BlockId)
  deriving DecidableEq

/-- The exit that is linked once its successor is known: the pending one, if its block
is still the one that was left. -/
def settled? (e : Emulator) (pending : Option PendingLink) : Option ExitRef :=
  pending.bind fun p =>
    if e.arena.isLive p.block && (e.arena.block p.block).generation = p.generation then
      some ⟨p.block, p.slot⟩
    else none

def answerMoves (pending : Option PendingLink) : Fetched × Emulator → List Move
  | (fetched, e) =>
      match fetched.block? with
      | none => []
      | some id =>
          match e.settle pending id with
          | .error _ => []
          | .ok e₁ =>
              (e.settled? pending).toList.map (Move.linked · id) ++
                (e₁.left? id).toList.map Move.left

def turnMoves (e : Emulator) (pending : Option PendingLink) : List Move :=
  match e.fetch e.cpu.eip with
  | .error _ => []
  | .ok answer => answerMoves pending answer

def turnsMoves {σ : Type} (i : Interpreter σ) :
    Nat → σ → Emulator → Option PendingLink → List Move
  | 0, _, _, _ => []
  | fuel + 1, s, e, pending =>
      if e.context.cycles ≤ 0 then []
      else
        e.turnMoves pending ++
          match e.turn i s pending with
          | .ok (.go s e pending) => turnsMoves i fuel s e pending
          | _ => []

def runMoves {σ : Type} (i : Interpreter σ) (s : σ) (e : Emulator) (cycles : Int32) : List Move :=
  turnsMoves i cycles.toInt.toNat s (e.setCycles cycles) none

/-! ## Moves -/

/-- The move before was to leave through an exit: this one, or one of the same block
that leads to the trampoline of its slot in some arena. -/
def RightAfter (a : Arena) (y : ExitRef) (before : Option Move) : Prop :=
  ∃ x, before = some (.left x) ∧ (y = x ∨ y.block = x.block ∧ a.Strays x y.slot)

/-- Every link comes right after the exit was left that it is for. -/
def Prompted (a : Arena) (moves : List Move) : Prop :=
  ∀ before y target after, moves = before ++ .linked y target :: after →
    RightAfter a y before.getLast?

theorem Prompted.nil (a : Arena) : Prompted a [] := by
  intro before y target after hmoves
  exact absurd hmoves.symm (List.append_ne_nil_of_right_ne_nil _ (List.cons_ne_nil _ _))

theorem Prompted.concat {a : Arena} {moves : List Move} (h : Prompted a moves) {m : Move}
    (hm : ∀ y target, m = .linked y target → RightAfter a y moves.getLast?) :
    Prompted a (moves ++ [m]) := by
  intro before y target after hmoves
  rcases List.eq_nil_or_concat after with rfl | ⟨rest, last, rfl⟩
  · obtain ⟨rfl, hlast⟩ := List.append_inj' hmoves rfl
    exact hm y target (List.cons.inj hlast).1
  · rw [List.concat_eq_append, ← List.cons_append, ← List.append_assoc] at hmoves
    exact h before y target rest (List.append_inj' hmoves rfl).1

/-- Every exit leads where it led, home, or to compiled code that it was linked to. -/
def Relinked (a : Arena) (moves : List Move) (a' : Arena) : Prop :=
  ∀ x : ExitRef, a'.successor x.block x.slot = a.successor x.block x.slot ∨
    a'.successor x.block x.slot = .trampoline x.slot ∨
    ((a'.successor x.block x.slot).isTrampoline = false ∧
      .linked x (a'.successor x.block x.slot) ∈ moves)

namespace Relinked

variable {a b c : Arena} {moves : List Move}

theorem refl (a : Arena) : Relinked a [] a := fun _ => Or.inl rfl

/-- What is kept or sent home needs no move. -/
theorem kept (h : Relinked a moves b) (hlink : ∀ d s, c.successor d s = b.successor d s ∨
    c.successor d s = .trampoline s) : Relinked a moves c := by
  intro x
  rcases hlink x.block x.slot with he | he
  · rw [he]
    exact h x
  · exact Or.inr (Or.inl he)

theorem moved (h : Relinked a moves b) (more : List Move) : Relinked a (moves ++ more) b :=
  fun x => (h x).imp_right fun hx => hx.imp_right fun hx =>
    ⟨hx.1, List.mem_append_left _ hx.2⟩

theorem link (h : Relinked a moves b) (hb : b.Linked) {source target : BlockId} {slot : Slot}
    (ht : b.isLive target = true) (hl : b.link source slot target = .ok c) :
    Relinked a (moves ++ [.linked ⟨source, slot⟩ target]) c := by
  intro x
  rcases hb.link_cases hl x.block x.slot with ⟨hblock, hslot, hx⟩ | hx | hx
  · refine Or.inr (Or.inr ⟨hx ▸ hb.not_trampoline_of_isLive ht, ?_⟩)
    rw [hx, ← hblock, ← hslot]
    exact List.mem_concat_self
  · rw [hx]
    exact h.moved _ x
  · exact Or.inr (Or.inl hx)

theorem strays (h : Relinked a moves b) {x : ExitRef} {t : Slot} (hx : b.Strays x t) :
    a.Strays x t := by
  rcases h x with he | he | ⟨he, _⟩
  · exact hx.of_kept (Or.inl he)
  · exact hx.of_kept (Or.inr he)
  · rw [hx.2, BlockId.isTrampoline_trampoline] at he
    cases he

end Relinked

/-! ## A turn -/

def Turn.pending? {σ : Type} : Turn σ → Option PendingLink
  | .go _ _ pending => pending
  | .stop _ _ _ => none

theorem turn_of_settle_error {σ : Type} (i : Interpreter σ) (s : σ) {e e₁ : Emulator}
    {pending : Option PendingLink} {f : Fetched} {id : BlockId} {fault : Fault}
    (hf : e.fetch e.cpu.eip = .ok (f, e₁)) (hid : f.block? = some id)
    (hs : e₁.settle pending id = .error fault) : e.turn i s pending = .error fault := by
  unfold turn
  rw [hf]
  simp only [bind, Except.bind, hid]
  rw [hs]

theorem settle_of_none {e : Emulator} {pending : Option PendingLink} (h : e.settled? pending = none)
    (id : BlockId) : e.settle pending id = .ok e := by
  unfold settle
  cases pending with
  | none => rfl
  | some p =>
      rw [settled?, Option.bind_some, ite_eq_right_iff] at h
      exact if_neg fun hc => Option.some_ne_none _ (h hc)

theorem settle_of_some {e : Emulator} {pending : Option PendingLink} {x : ExitRef}
    (h : e.settled? pending = some x) (id : BlockId) :
    e.settle pending id = e.link x.block x.slot id ∧
      ∃ p, pending = some p ∧ x = ⟨p.block, p.slot⟩ := by
  unfold settle
  cases pending with
  | none => cases h
  | some p =>
      rw [settled?, Option.bind_some, Option.ite_none_right_eq_some, Option.some.injEq] at h
      obtain ⟨hc, rfl⟩ := h
      exact ⟨if_pos hc, p, rfl, rfl⟩

/-- What a run has come to: the moves made so far, and the exit that is pending. -/
structure Tracked (a : Arena) (moves : List Move) (e : Emulator) (pending : Option PendingLink) :
    Prop where
  coherent : e.Coherent
  prompted : Prompted a moves
  relinked : Relinked a moves e.arena
  pending : ∀ p, pending = some p → RightAfter a ⟨p.block, p.slot⟩ moves.getLast?

namespace Tracked

variable {a : Arena} {moves : List Move} {e e' : Emulator} {pending : Option PendingLink}
  (h : Tracked a moves e pending)

include h

theorem drop (hc : e'.Coherent) (hlink : ∀ d s, e'.arena.successor d s = e.arena.successor d s ∨
    e'.arena.successor d s = .trampoline s) : Tracked a moves e' none :=
  ⟨hc, h.prompted, h.relinked.kept hlink, fun p hp => absurd hp.symm (Option.some_ne_none p)⟩

/-- Whoever is linked was left the move before. -/
theorem settle {id : BlockId} (hid : e.arena.isLive id = true)
    (hs : e.settle pending id = .ok e') :
    Tracked a (moves ++ (e.settled? pending).toList.map (Move.linked · id)) e' none ∧
      e'.arena.isLive id = true := by
  cases hx : e.settled? pending with
  | none =>
      rw [settle_of_none hx, Except.ok.injEq] at hs
      subst hs
      rw [Option.toList_none, List.map_nil, List.append_nil]
      exact ⟨h.drop h.coherent fun _ _ => Or.inl rfl, hid⟩
  | some x =>
      obtain ⟨hsettle, p, hp, rfl⟩ := settle_of_some hx id
      rw [hsettle] at hs
      have hc := h.coherent.link hs
      obtain ⟨b, hl, he⟩ := bind_eq_ok_iff.mp hs
      cases he
      refine ⟨⟨hc, ?_, ?_, fun p hp => absurd hp.symm (Option.some_ne_none p)⟩,
        ((Arena.Alike.link hl).isLive id).symm.trans hid⟩
      · refine h.prompted.concat fun y target hm => ?_
        obtain ⟨rfl, _⟩ := Move.linked.inj hm
        exact h.pending p hp
      · exact h.relinked.link h.coherent.guarded.store.linked hid hl

theorem left {x : ExitRef} {block : BlockId} {slot : Slot}
    (hx : RightAfter a ⟨block, slot⟩ (some (.left x))) (hc : e'.Coherent)
    (hlink : ∀ d s, e'.arena.successor d s = e.arena.successor d s ∨
      e'.arena.successor d s = .trampoline s) (generation : UInt32) :
    Tracked a (moves ++ [.left x]) e' (some ⟨block, slot, generation⟩) := by
  refine ⟨hc, h.prompted.concat fun _ _ hm => Move.noConfusion hm,
    (h.relinked.kept hlink).moved _, fun p hp => ?_⟩
  cases hp
  rw [List.getLast?_concat]
  exact hx

/-- What is pending after compiled code returned is the exit it was left through. -/
theorem execute {id last : BlockId} (hid : e.arena.isLive id = true) {code : ReturnCode}
    (hx : e.execute id = .ok (code, last, e')) (generation : UInt32) :
    Tracked a (moves ++ (e.left? id).toList.map Move.left) e'
      (code.slot?.map fun slot => ⟨last, slot, generation⟩) := by
  obtain ⟨hc, _, hshrinks⟩ := h.coherent.execute hx
  obtain ⟨code', last', e'', hok, htold⟩ := h.coherent.told hid
  cases hx.symm.trans hok
  generalize e.left? id = left at htold
  cases htold with
  | inside hcode =>
      rw [Option.toList_none, List.map_nil, List.append_nil, hcode]
      exact h.drop hc hshrinks.link
  | home =>
      rw [ReturnCode.slot?_eq_some_iff.mpr rfl]
      exact h.left ⟨_, rfl, Or.inl rfl⟩ hc hshrinks.link generation
  | @astray slot t _ hstray _ =>
      have hafter : RightAfter a ⟨last, t⟩ (some (.left ⟨last, slot⟩)) :=
        ⟨_, rfl, Or.inr ⟨rfl, h.relinked.strays hstray⟩⟩
      rw [ReturnCode.slot?_eq_some_iff.mpr rfl]
      exact h.left hafter hc hshrinks.link generation

section Turn

variable {σ : Type} (i : Interpreter σ) (s : σ)

theorem interpreted : Tracked a moves (turn.interpreted i s e).emulator
    (turn.interpreted i s e).pending? := by
  obtain ⟨hc, hshrinks⟩ := leaves_interpret h.coherent i s
  have hi := h.drop hc hshrinks.link
  unfold turn.interpreted
  split
  · next he =>
      rw [he] at hi
      exact hi
  · next he =>
      rw [he] at hi
      exact hi

omit h in
theorem answered {last : BlockId} {code : ReturnCode}
    (h : Tracked a moves e (code.slot?.map fun slot =>
      ⟨last, slot, (e.arena.block last).generation⟩)) :
    Tracked a moves (answered i s last e code).emulator (answered i s last e code).pending? := by
  cases code with
  | opcode => exact h.interpreted i s
  | _ => exact h

/-- A turn that runs compiled code links an exit, if its block still stands, and leaves
through another. -/
theorem executed {e₁ e₂ : Emulator} {f : Fetched} {id : BlockId}
    (hf : e.fetch e.cpu.eip = .ok (f, e₁)) (hid : f.block? = some id)
    (hfound : e.Found e.cpu.eip id e₁) (hs : e₁.settle pending id = .ok e₂) :
    ∃ t, e.turn i s pending = .ok t ∧
      Tracked a (moves ++ e.turnMoves pending) t.emulator t.pending? := by
  obtain ⟨src, hsource, _⟩ := hfound.source
  have hlive : e₁.arena.isLive id = true := hfound.coherent.guarded.store.isLive_of_source hsource
  have hfetched : Tracked a moves e₁ pending :=
    ⟨hfound.coherent, h.prompted, h.relinked.kept hfound.link, h.pending⟩
  obtain ⟨hsettled, hlive⟩ := hfetched.settle hlive hs
  obtain ⟨code, last, e₃, hx, _⟩ := hsettled.coherent.told hlive
  refine ⟨_, turn_eq i s hf hid hs hx, Tracked.answered i s ?_⟩
  have hmoves : e.turnMoves pending = (e₁.settled? pending).toList.map (Move.linked · id) ++
      (e₂.left? id).toList.map Move.left := by
    rw [turnMoves, hf]
    simp only [answerMoves, hid, hs]
  rw [hmoves, ← List.append_assoc]
  exact hsettled.execute hlive hx _

/-- **A turn links no exit but the one that was left the move before.** -/
theorem turn : Prompted a (moves ++ e.turnMoves pending) ∧
    ∀ t, e.turn i s pending = .ok t →
      Tracked a (moves ++ e.turnMoves pending) t.emulator t.pending? := by
  have hstill (hmoves : e.turnMoves pending = []) :
      Prompted a (moves ++ e.turnMoves pending) := by
    rw [hmoves, List.append_nil]
    exact h.prompted
  rcases fetch_spec h.coherent e.cpu.eip with ⟨hf, _⟩ | ⟨f, id, e₁, hf, hid, hfound, _⟩ | hf
  · have hmoves : e.turnMoves pending = [] := by
      rw [turnMoves, hf]
      rfl
    refine ⟨hstill hmoves, fun t ht => ?_⟩
    cases (turn_of_interpret i s hf rfl).symm.trans ht
    rw [hmoves, List.append_nil]
    exact h.interpreted i s
  · cases hs : e₁.settle pending id with
    | error fault =>
        have hmoves : e.turnMoves pending = [] := by
          rw [turnMoves, hf]
          simp only [answerMoves, hid, hs]
        refine ⟨hstill hmoves, fun t ht => ?_⟩
        cases (turn_of_settle_error i s hf hid hs).symm.trans ht
    | ok e₂ =>
        obtain ⟨t, hturn, htracked⟩ := h.executed i s hf hid hfound hs
        refine ⟨htracked.prompted, fun t' ht => ?_⟩
        cases hturn.symm.trans ht
        exact htracked
  · have hmoves : e.turnMoves pending = [] := by
      rw [turnMoves, hf]
    refine ⟨hstill hmoves, fun t ht => ?_⟩
    cases (turn_of_error i s hf).symm.trans ht

theorem ended (exit : RunEnd) : Prompted a (moves ++ []) ∧
    ∀ exit' s' e', (.ok (exit, s, e) : Except Fault (RunEnd × σ × Emulator)) =
      .ok (exit', s', e') → Relinked a (moves ++ []) e'.arena := by
  rw [List.append_nil]
  refine ⟨h.prompted, fun exit' s' e' he => ?_⟩
  cases he
  exact h.relinked

/-- **Every link of a run is prompted,** by induction on the number of turns. -/
theorem turns (fuel : Nat) : Prompted a (moves ++ turnsMoves i fuel s e pending) ∧
    ∀ exit s' e', turns i fuel s e pending = .ok (exit, s', e') →
      Relinked a (moves ++ turnsMoves i fuel s e pending) e'.arena := by
  induction fuel generalizing e s pending moves with
  | zero => exact h.ended s .outOfCycles
  | succ fuel ih =>
      unfold turnsMoves Emulator.turns
      by_cases hc : e.context.cycles ≤ 0
      · rw [if_pos hc, if_pos hc]
        exact h.ended s .outOfCycles
      rw [if_neg hc, if_neg hc]
      obtain ⟨hprompted, hturn⟩ := h.turn i s
      cases ht : e.turn i s pending with
      | error fault =>
          rw [List.append_nil]
          refine ⟨hprompted, fun exit s' e' he => ?_⟩
          cases he
      | ok t =>
          have htracked := hturn t ht
          cases t with
          | go s' e' pending' =>
              rw [← List.append_assoc]
              exact ih htracked s'
          | stop exit s' e' =>
              rw [← List.append_assoc]
              exact htracked.ended s' exit

end Turn

end Tracked

theorem Coherent.tracked {e : Emulator} (h : e.Coherent) : Tracked e.arena [] e none :=
  ⟨h, .nil _, .refl _, fun p hp => absurd hp.symm (Option.some_ne_none p)⟩

/-- **A run links the exit that was left the move before,** and no other exit leads
elsewhere afterwards but home. -/
theorem Coherent.runMoves {e : Emulator} (h : e.Coherent) {σ : Type} (i : Interpreter σ) (s : σ)
    (cycles : Int32) : Prompted e.arena (e.runMoves i s cycles) ∧
      ∀ exit s' e', e.run i s cycles = .ok (exit, s', e') →
        Relinked e.arena (e.runMoves i s cycles) e'.arena :=
  (h.setContext { e.context with cycles }).tracked.turns i s cycles.toInt.toNat

/-! ## Exits that stray were sent astray by hand -/

/-- Only a link by hand to the trampoline of the other slot makes an exit stray. -/
theorem strays_perform {e e' : Emulator} {action : Action} (h : e.Coherent)
    (hp : e.perform action = .ok e') {x : ExitRef} {t : Slot} (hx : e'.arena.Strays x t) :
    e.arena.Strays x t ∨ action = .link x.block x.slot (.trampoline t) := by
  have hattempt := (perform_eq_ok_iff.mp hp).1
  cases action with
  | fetch eip =>
      obtain ⟨⟨f, e₁⟩, hf, hdone⟩ := bind_eq_ok_iff.mp hattempt
      cases hdone
      rcases fetch_spec h eip with ⟨hok, _⟩ | ⟨f', id, e₂, hok, _, hfound, _⟩ | herr
      · cases hf.symm.trans hok
        exact Or.inl hx
      · cases hf.symm.trans hok
        exact Or.inl (hx.of_kept (hfound.link _ _))
      · cases hf.symm.trans herr
  | run i s cycles =>
      obtain ⟨⟨exit, s', e₁⟩, hr, hdone⟩ := bind_eq_ok_iff.mp hattempt
      cases hdone
      exact Or.inl (((h.runMoves i s cycles).2 exit s' _ hr).strays hx)
  | link source slot target =>
      obtain ⟨b, hl, hdone⟩ := bind_eq_ok_iff.mp hattempt
      cases hdone
      rcases h.guarded.store.linked.link_cases hl x.block x.slot with ⟨hblock, hslot, ht⟩ | hkept
      · rw [hblock, hslot, ← ht]
        exact Or.inr (congrArg _ hx.2)
      · exact Or.inl (hx.of_kept hkept)
  | _ => exact Or.inl (hx.of_kept ((h.shrinks_perform rfl hp).2.link _ _))

theorem strays_performAll {as : List Action} {e e' : Emulator} (h : e.Coherent)
    (hp : e.performAll as = .ok e') {x : ExitRef} {t : Slot} (hx : e'.arena.Strays x t) :
    e.arena.Strays x t ∨ .link x.block x.slot (.trampoline t) ∈ as := by
  induction as generalizing e with
  | nil =>
      cases hp
      exact Or.inl hx
  | cons action rest ih =>
      obtain ⟨e₁, hfirst, hp⟩ := bind_eq_ok_iff.mp hp
      rcases ih (h.perform hfirst) hp with hstray | hmem
      · rcases strays_perform h hfirst hstray with hstray | rfl
        · exact Or.inl hstray
        · exact Or.inr List.mem_cons_self
      · exact Or.inr (List.mem_cons_of_mem _ hmem)

/-! ## What return codes tell -/

/-- What an emulator tells of the exits that compiled code is left through, and what
becomes of it, after some actions. -/
structure TellsExits (as : List Action) (e : Emulator) : Prop where
  /-- Every exit leads to compiled code, home, or to the other trampoline. -/
  leads : ∀ x : ExitRef, e.arena.isLive (e.arena.successor x.block x.slot) = true ∨
    e.arena.successor x.block x.slot = .trampoline x.slot ∨ ∃ t, e.arena.Strays x t
  /-- It leads to the other trampoline only if it was linked to it by hand. -/
  byHand : ∀ x t, e.arena.Strays x t → .link x.block x.slot (.trampoline t) ∈ as
  /-- Compiled code returns, and tells the exit it was left through unless that strays. -/
  execute : ∀ id, e.arena.isLive id = true → ∃ code last e',
    e.execute id = .ok (code, last, e') ∧ Told e.arena e'.arena last (e.left? id) code
  /-- In a run every link comes right after the exit was left that it is for. -/
  run : ∀ {σ : Type} (i : Interpreter σ) (s : σ) (cycles : Int32),
    Prompted e.arena (e.runMoves i s cycles)
  /-- No other exit leads elsewhere after a run, but home. -/
  relinked : ∀ {σ : Type} (i : Interpreter σ) (s : σ) (cycles : Int32) (exit : RunEnd) (s' : σ)
    (e' : Emulator), e.run i s cycles = .ok (exit, s', e') →
      Relinked e.arena (e.runMoves i s cycles) e'.arena

/-- **An unlinked exit returns through its own trampoline,** unless it was linked to the
other one.  Whatever regions are opened, written, closed, torn down and linked, an exit
leads to a compiled block or home, or it was linked to the other trampoline since its
block was closed, and to nothing after that.  Compiled code tells the exit it was left
through, and a run links that exit and no other, but for those. -/
theorem tellsExits_of_valid {settings : Settings} (hs : settings.Valid) :
    (∀ log s, CodeStore.LinkHistory settings log s → ∀ x, s.arena.Leads log x) ∧
      ∀ (memory : Memory) (decoder : Decoder) e₀ as e, memory.Unwatched →
        Emulator.new settings memory decoder = .ok e₀ → e₀.performAll as = .ok e →
          e.TellsExits as := by
  refine ⟨fun log s h => h.leads hs, fun memory decoder e₀ as e hm hn hp => ?_⟩
  have h₀ : e₀.Coherent := .new hm hn
  have hreached : Reached (fun _ => True) e :=
    .performAll (fun _ _ => trivial) (.new hm hn) hp
  have h : e.Coherent := hreached.coherent
  refine ⟨fun x => ?_, fun x t hx => ?_, fun id hid => h.told hid,
    fun i s cycles => (h.runMoves i s cycles).1, fun i s cycles => (h.runMoves i s cycles).2⟩
  · cases hT : (e.arena.successor x.block x.slot).isTrampoline with
    | false => exact Or.inl (h.guarded.store.linked.live x.block x.slot hT)
    | true =>
        obtain ⟨t, ht⟩ := BlockId.isTrampoline_iff.mp hT
        by_cases hslot : t = x.slot
        · exact Or.inr (Or.inl (ht.trans (congrArg BlockId.trampoline hslot)))
        · exact Or.inr (Or.inr ⟨t, hslot, ht⟩)
  · refine (strays_performAll h₀ hp hx).resolve_left fun hstray => hstray.1 ?_
    have hhome := (Sound.new hm hn).threaded.homed x.block x.slot
      (hstray.2 ▸ BlockId.isTrampoline_trampoline t)
    exact BlockId.trampoline_inj.mp (hstray.2.symm.trans hhome)

/-- A conditional jump over a jump back to it, with an exit of the first block linked to
a trampoline by hand. -/
def misled (slot target : Slot) : List Action :=
  [.load 0 [0x74, 0x02, 0xEB, 0xFC], .fetch 0, .link ⟨2⟩ slot (.trampoline target)]

/-- The exit that is taken is told and linked, while the other one strays; and so does
one of a store. -/
theorem tellsExits_of_misled :
    Settings.small.Valid ∧ ∃ log s e, CodeStore.LinkHistory .small log s ∧
      s.arena.Strays ⟨⟨2⟩, .second⟩ .first ∧ (∀ x, s.arena.Leads log x) ∧
      zeroed.performAll (misled .second .first) = .ok e ∧
      e.arena.Strays ⟨⟨2⟩, .second⟩ .first ∧
      e.runMoves stepper () 6 = [.left ⟨⟨2⟩, .first⟩, .linked ⟨⟨2⟩, .first⟩ ⟨3⟩,
        .left ⟨⟨3⟩, .first⟩, .linked ⟨⟨3⟩, .first⟩ ⟨2⟩] ∧
      e.TellsExits (misled .second .first) := by
  obtain ⟨⟨log, s⟩, hlog, hs⟩ := exists_of_succeeds
    (x := [CodeStore.Action.openRegion, .close .dual [],
      .link ⟨2⟩ .second (.trampoline .first)].foldlM CodeStore.recordLinks ([], .new .small))
    (p := fun q => q.2.arena.Strays ⟨⟨2⟩, .second⟩ .first) (by decide +kernel)
  obtain ⟨e, he, htest⟩ := exists_of_succeeds (x := zeroed.performAll (misled .second .first))
    (p := fun e => e.arena.Strays ⟨⟨2⟩, .second⟩ .first ∧
      e.runMoves stepper () 6 = [.left ⟨⟨2⟩, .first⟩, .linked ⟨⟨2⟩, .first⟩ ⟨3⟩,
        .left ⟨⟨3⟩, .first⟩, .linked ⟨⟨3⟩, .first⟩ ⟨2⟩])
    (by decide +kernel)
  obtain ⟨hstrays, hmoves⟩ := of_decide_eq_true htest
  have h : CodeStore.LinkHistory .small log s :=
    CodeStore.LinkHistory.foldlM (p := ([], .new .small)) .new hlog
  obtain ⟨hleads, htells⟩ := tellsExits_of_valid Settings.valid_small
  exact ⟨Settings.valid_small, log, s, e, h, of_decide_eq_true hs, hleads log s h, he, hstrays,
    hmoves, htells _ _ zeroed _ e unwatched_zeroed new_zeroed he⟩

/-- An exit that was linked to the trampoline of the other slot is told as the other
exit, and a run links the other one in its stead. -/
theorem links_other_exit_of_misled :
    ∃ e, zeroed.performAll (misled .first .second) = .ok e ∧ e.arena.isLive ⟨2⟩ = true ∧
      e.arena.successor ⟨2⟩ .first = .trampoline .second ∧
      (e.setCycles 6).left? ⟨2⟩ = some ⟨⟨2⟩, .first⟩ ∧
      (∃ e', (e.setCycles 6).execute ⟨2⟩ = .ok (.secondExit, ⟨2⟩, e')) ∧
      e.runMoves stepper () 3 =
        [.left ⟨⟨2⟩, .first⟩, .linked ⟨⟨2⟩, .second⟩ ⟨3⟩, .left ⟨⟨3⟩, .first⟩,
          .linked ⟨⟨3⟩, .first⟩ ⟨2⟩, .left ⟨⟨2⟩, .first⟩] := by
  obtain ⟨e, he, htest⟩ := exists_of_succeeds (x := zeroed.performAll (misled .first .second))
    (p := fun e => e.arena.isLive ⟨2⟩ = true ∧
      e.arena.successor ⟨2⟩ .first = .trampoline .second ∧
      (e.setCycles 6).left? ⟨2⟩ = some ⟨⟨2⟩, .first⟩ ∧
      succeeds ((e.setCycles 6).execute ⟨2⟩) (fun r => r.1 = .secondExit ∧ r.2.1 = ⟨2⟩) = true ∧
      e.runMoves stepper () 3 =
        [.left ⟨⟨2⟩, .first⟩, .linked ⟨⟨2⟩, .second⟩ ⟨3⟩, .left ⟨⟨3⟩, .first⟩,
          .linked ⟨⟨3⟩, .first⟩ ⟨2⟩, .left ⟨⟨2⟩, .first⟩])
    (by decide +kernel)
  obtain ⟨hlive, hstrays, hleft, hexecute, hmoves⟩ := of_decide_eq_true htest
  obtain ⟨⟨code, last, e'⟩, hx, hr⟩ := exists_of_succeeds hexecute
  obtain ⟨rfl, rfl⟩ := of_decide_eq_true hr
  exact ⟨e, he, hlive, hstrays, hleft, ⟨e', hx⟩, hmoves⟩

end Emulator

end Recompiler
