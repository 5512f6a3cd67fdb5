import Recompiler.Proofs.Emulator.History
import Recompiler.Proofs.Emulator.Turn

/-!
# Running is running the plain machine

A run of the guest goes through the instructions of the plain machine, one after
the other, whatever is compiled, linked and torn down meanwhile.  It stops where
the plain machine stops, or once it has used up its budget.
-/

namespace Recompiler

namespace Emulator

/-! ## Only the dispatcher links -/

def Action.isLink : Action → Bool
  | .link _ _ _ => true
  | _ => false

theorem Sound.new {settings : Settings} {memory : Memory} {decoder : Decoder} {e : Emulator}
    (hm : memory.Unwatched) (hn : Emulator.new settings memory decoder = .ok e) :
    e.Sound := by
  refine ⟨.new hm hn, ?_⟩
  unfold Emulator.new at hn
  split at hn
  · cases hn
  · next hobjection =>
      cases hn
      have hs := (Settings.objection?_eq_none_iff _).mp hobjection
      refine ⟨.new hs, fun d slot hT => ?_⟩
      have hhome : ((Arena.new settings).successor d slot).isTrampoline = true := by
        rw [Arena.successor_new hs, BlockId.isTrampoline_trampoline]
      cases hhome.symm.trans hT

theorem Sound.of_shrinks {e e' : Emulator} (h : e.Sound) (hc : e'.Coherent)
    (hl : e'.settings = e.settings) (hs : e.arena.Shrinks e'.arena) : e'.Sound := by
  refine ⟨hc, ?_⟩
  rw [limits, hl]
  exact h.threaded.shrinks hs hc.guarded.store.linked

section Run

variable {σ : Type} (i : Interpreter σ)

/-- **Turns leave the emulator sound.** -/
theorem Sound.turns (fuel : Nat) {e e' : Emulator} (h : e.Sound) {s s' : σ}
    {pending : Option PendingLink} (ha : e.Awaits pending) {exit : RunEnd}
    (ht : turns i fuel s e pending = .ok (exit, s', e')) : e'.Sound := by
  induction fuel generalizing e s pending with
  | zero =>
      cases ht
      exact h
  | succ fuel ih =>
      unfold Emulator.turns at ht
      split at ht
      · cases ht
        exact h
      · next hc =>
          rcases turn_spec h i s ha (not_exhausted_iff.mp hc) with herr | ⟨t, hturn, hturned⟩
          · rw [herr] at ht
            cases ht
          · rw [hturn] at ht
            cases hturned with
            | go hs ha' _ => exact ih hs ha' ht
            | stop hs _ =>
                cases ht
                exact hs

end Run

/-- **Every action but linking by hand leaves the emulator sound.** -/
theorem Sound.perform {e e' : Emulator} {a : Action} (h : e.Sound) (ha : a.isLink = false)
    (hp : e.perform a = .ok e') : e'.Sound := by
  have hc := h.coherent.perform hp
  cases htears : a.tears with
  | true =>
      obtain ⟨hsettings, hs⟩ := h.coherent.shrinks_perform htears hp
      exact h.of_shrinks hc hsettings hs
  | false =>
      replace hp := (perform_eq_ok_iff.mp hp).1
      cases a with
      | fetch eip =>
          obtain ⟨⟨f, e₁⟩, hf, hp⟩ := bind_eq_ok_iff.mp hp
          cases hp
          rcases fetch_spec h.coherent eip with ⟨hi, _⟩ | ⟨_, _, _, hok, _, hfound, _⟩ | herr
          · rw [hi] at hf
            cases hf
            exact h
          · rw [hok] at hf
            cases hf
            exact h.found hfound
          · rw [herr] at hf
            cases hf
      | run i s cycles =>
          obtain ⟨⟨exit, s', e₁⟩, hr, hp⟩ := bind_eq_ok_iff.mp hp
          cases hp
          exact (h.setContext _).turns i _ (awaits_none _) hr
      | link source slot target => cases ha
      | _ => cases htears

theorem Reached.sound {e : Emulator} (h : Reached (fun a => a.isLink = false) e) : e.Sound := by
  induction h with
  | new hm hn => exact .new hm hn
  | perform _ ha hp ih => exact ih.perform ha hp

/-! ## Runs -/

/-- The emulators at whose address a run looks up what to do next. -/
inductive Dispatches {σ : Type} (i : Interpreter σ) :
    σ → Emulator → Option PendingLink → Emulator → Prop
  | now {s : σ} {e : Emulator} {pending : Option PendingLink} (hc : 0 < e.context.cycles) :
      Dispatches i s e pending e
  | later {s s' : σ} {e e' x : Emulator} {pending pending' : Option PendingLink}
      (hc : 0 < e.context.cycles) (ht : e.turn i s pending = .ok (.go s' e' pending'))
      (h : Dispatches i s' e' pending' x) : Dispatches i s e pending x

/-- **Turns go through the plain machine's instructions,** by induction on
their number: each uses up a cycle at least. -/
theorem turns_spec {σ : Type} (i : Interpreter σ) (fuel : Nat) {e : Emulator} (h : e.Sound) (s : σ)
    {pending : Option PendingLink} (ha : e.Awaits pending)
    (hfuel : e.context.cycles.toInt.toNat ≤ fuel)
    (hr : ∀ x, Dispatches i s e pending x → ¬x.Refuses x.cpu.eip) :
    (∃ n, turns i fuel s e pending = .error (.descriptorsExhausted n)) ∨
      ∃ k stop s' e', turns i fuel s e pending = .ok (.of stop, s', e') ∧
        Goes i k stop s e s' e' ∧ (stop = none → e'.context.cycles ≤ 0) := by
  induction fuel generalizing e s pending with
  | zero =>
      refine Or.inr ⟨0, none, s, e, rfl, .zero rfl rfl rfl, fun _ => ?_⟩
      rw [Int32.le_iff_toInt_le]
      exact Int.toNat_eq_zero.mp (Nat.le_zero.mp hfuel)
  | succ fuel ih =>
      unfold turns
      by_cases hc : e.context.cycles ≤ 0
      · rw [if_pos hc]
        exact Or.inr ⟨0, none, s, e, rfl, .zero rfl rfl rfl, fun _ => hc⟩
      · rw [if_neg hc]
        have hpos := not_exhausted_iff.mp hc
        have hc : 0 < e.context.cycles := Int32.lt_iff_toInt_lt.mpr hpos
        rcases turn_spec h i s ha hpos with herr | ⟨t, hturn, hturned⟩
        · rw [herr]
          exact Or.inl ⟨_, rfl⟩
        · rw [hturn]
          cases hturned with
          | @go s' e' pending' hs ha' hg =>
              obtain ⟨m, hm, hgoes⟩ := hg (hr e (.now hc))
              have hcycles := hgoes.cycles
              rcases ih hs s' ha' (by omega) fun x hx => hr x (.later hc hturn hx) with
                ⟨n, herr⟩ | ⟨k, stop, s'', e'', hok, hrest, hend⟩
              · exact Or.inl ⟨n, herr⟩
              · exact Or.inr ⟨m + k, stop, s'', e'', hok, hgoes.trans hrest, hend⟩
          | @stop s' e' why hs hg =>
              obtain ⟨m, hm, hgoes⟩ := hg (hr e (.now hc))
              exact Or.inr ⟨m, some why, s', e', rfl, hgoes, fun h => absurd h (Option.some_ne_none _)⟩

/-- **A run is so many steps of the plain machine.**  After any actions but
links made by hand, and unless it looks up an address that was written to too
often, a run of any interpreter with any budget goes through as many instructions
as it charges for, stops if and as the last of them stops the guest, and else
when the budget is used up.  Only a lack of descriptors makes it fail. -/
theorem plain_of_reached {e : Emulator} (h : Reached (fun a => a.isLink = false) e) {σ : Type}
    (i : Interpreter σ) (s : σ) (cycles : Int32)
    (hr : ∀ x, Dispatches i s (e.setCycles cycles) none x → ¬x.Refuses x.cpu.eip) :
    (∃ n, e.run i s cycles = .error (.descriptorsExhausted n)) ∨
      ∃ k stop s' e', e.run i s cycles = .ok (.of stop, s', e') ∧
        (e.guest s).steps e.settings.decoder i k = (k, e'.guest s', stop) ∧
          (k : Int) = cycles.toInt - e'.context.cycles.toInt ∧
            (stop = none → e'.context.cycles ≤ 0) := by
  have hsound : (e.setCycles cycles).Sound := h.sound.setContext _
  rcases turns_spec i cycles.toInt.toNat hsound s (awaits_none _) (Nat.le_refl _) hr with
    herr | ⟨k, stop, s', e', hok, hgoes, hend⟩
  · exact Or.inl herr
  · refine Or.inr ⟨k, stop, s', e', hok, hgoes.steps, ?_, hend⟩
    have hcycles : e'.context.cycles.toInt = cycles.toInt - k := hgoes.cycles
    omega

/-- Whether a turn leaves nothing of the budget. -/
def Turn.exhausts {σ : Type} : Turn σ → Bool
  | .go _ e _ => e.context.cycles ≤ 0
  | .stop _ _ _ => true

/-- A run whose first turn uses up the budget looks up one address. -/
theorem Dispatches.eq_of_exhausts {σ : Type} {i : Interpreter σ} {s : σ} {e x : Emulator}
    {pending : Option PendingLink} (ht : succeeds (e.turn i s pending) Turn.exhausts = true)
    (h : Dispatches i s e pending x) : x = e := by
  cases h with
  | now _ => rfl
  | @later _ _ _ e' _ _ _ _ hturn h =>
      rw [hturn] at ht
      have hend : e'.context.cycles ≤ 0 := of_decide_eq_true ht
      have hpos : 0 < e'.context.cycles := by
        cases h with
        | now hc | later hc _ _ => exact hc
      rw [Int32.le_iff_toInt_le] at hend
      rw [Int32.lt_iff_toInt_lt] at hpos
      omega

/-- A run through a loop whose block an earlier run linked to itself. -/
theorem plain_of_linked_loop :
    ∃ e, Reached (fun a => a.isLink = false) e ∧ e.arena.successor ⟨2⟩ .first = ⟨2⟩ ∧
      ∃ e', e.run stepper () 7 = .ok (.outOfCycles, (), e') ∧
        (e.guest ()).steps e.settings.decoder stepper 8 = (8, e'.guest (), none) := by
  obtain ⟨e, he, htest⟩ := exists_of_succeeds
    (x := zeroed.performAll [.load 0 [0x40, 0xEB, 0xFD], .run stepper () 5])
    (p := fun e => e.arena.successor ⟨2⟩ .first = ⟨2⟩ && !(e.setCycles 7).Refuses e.cpu.eip &&
      succeeds ((e.setCycles 7).turn stepper () none) Turn.exhausts &&
        succeeds (e.run stepper () 7) fun r => r.1 = .outOfCycles && r.2.2.context.cycles = -1)
    (by decide +kernel)
  simp only [Bool.and_eq_true, decide_eq_true_eq, Bool.not_eq_true', decide_eq_false_iff_not]
    at htest
  obtain ⟨⟨⟨hloop, hrefuses⟩, hexhausts⟩, hrun⟩ := htest
  have h : Reached (fun a => a.isLink = false) e :=
    Reached.performAll (by decide) (.new unwatched_zeroed new_zeroed) he
  obtain ⟨⟨exit, s, e'⟩, hok, hend⟩ := exists_of_succeeds hrun
  rw [Bool.and_eq_true, decide_eq_true_iff, decide_eq_true_iff] at hend
  rcases plain_of_reached h stepper () 7 fun x hx => by
      rw [hx.eq_of_exhausts hexhausts]
      exact hrefuses with ⟨_, herr⟩ | ⟨k, stop, s', e'', hok', hsteps, hk, _⟩
  · rw [hok] at herr
    cases herr
  · rw [hok, Except.ok.injEq, Prod.mk.injEq, Prod.mk.injEq] at hok'
    obtain ⟨rfl, rfl, rfl⟩ := hok'
    have hstop : stop = none := by
      cases stop with
      | none => rfl
      | some why => cases why <;> cases hend.1
    subst hstop
    rw [hend.2] at hk
    have hcharged : k = 8 := Int.ofNat.inj hk
    rw [hcharged] at hsteps
    exact ⟨e, h, hloop, e', hok, hsteps⟩

end Emulator

end Recompiler
