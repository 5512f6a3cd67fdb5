import Recompiler.Proofs.Emulator.Orderly
import Recompiler.Proofs.Emulator.Refinement
import Recompiler.Proofs.Store.Capacity

/-!
# Nothing makes it fail

Every fault is a broken rule of the recompiler's own, and as long as descriptors
are provided no rule is ever broken: there is always a region to compile into,
code fits it, every chain of blocks returns with a code that means something,
helpers find the handle they need, no watch is taken down while it has blocks,
and the exit a run links is one its block has.  A host program has to keep to
three things only: to execute what is compiled, to link exits that there are,
and to link them to compiled code or to their own trampoline.
-/

namespace Recompiler

/-- What tearing down and counting keep, these actions keep. -/
theorem Arena.Lasting.perform {P : Arena → Prop} (hP : Lasting P) {e e' : Emulator}
    {a : Emulator.Action} (ha : a.tears = true) (h : P e.arena) (hp : e.perform a = .ok e') :
    P e'.arena := by
  replace hp := (Emulator.perform_eq_ok_iff.mp hp).1
  cases a with
  | fetch _ | run _ _ _ | link _ _ _ => cases ha
  | execute id =>
      obtain ⟨⟨code, last, e₁⟩, hx, hp⟩ := bind_eq_ok_iff.mp hp
      cases hp
      exact hP.execute h hx
  | discard id =>
      obtain ⟨code, hcode, hp⟩ := bind_eq_ok_iff.mp hp
      cases hp
      exact hP.discard h hcode
  | write width addr value | writeChecked width addr value =>
      cases hp
      exact hP.write h width addr value e.running?
  | busWrite width addr value =>
      cases hp
      exact hP.write h width addr value none
  | load addr bytes =>
      cases hp
      exact hP.load bytes h addr
  | invalidate start stop =>
      cases hp
      exact hP.invalidate h start stop e.running?
  | flush | restore _ =>
      cases hp
      exact hP.flush h
  | setCpu _ | setCycles _ =>
      cases hp
      exact h

namespace Emulator

/-- A coherent emulator whose unlinked exits are at home, with an arena of some
property. -/
structure Steady (P : Arena → Prop) (e : Emulator) : Prop where
  coherent : e.Coherent
  homed : e.arena.Homed
  provided : P e.arena

variable {P : Arena → Prop}

theorem Steady.setContext {e : Emulator} (h : e.Steady P) (context : Context) :
    ({ e with context } : Emulator).Steady P :=
  ⟨h.coherent.setContext context, h.homed, h.provided⟩

theorem Steady.orderly {e : Emulator} (h : e.Steady P) : e.Orderly := ⟨h.coherent, h.homed⟩

theorem Orderly.steady {e : Emulator} (h : e.Orderly) (hp : P e.arena) : e.Steady P :=
  ⟨h.coherent, h.homed, hp⟩

variable (hP : Arena.Provident P)

namespace Steady

variable {e : Emulator} (h : e.Steady P)

include hP h

/-- **A look-up never fails.** -/
theorem fetch (eip : UInt32) : ∃ f e', e.fetch eip = .ok (f, e') ∧ e'.Steady P ∧
    (f.block? = none ∨ ∃ id, f.block? = some id ∧ e.Found eip id e') := by
  have hprovided : ∃ f e', e.fetch eip = .ok (f, e') ∧ P e'.arena := by
    by_cases hb : e.Barred eip
    · exact ⟨_, e, fetch_of_barred hb, h.provided⟩
    cases hf : e.find? eip with
    | some id =>
        have hcount := hP.lasting.count (fun c => { c with hits := c.hits + 1 }) h.provided
        exact ⟨_, _, fetch_of_find? hb hf, hcount⟩
    | none =>
        cases hr : e.refused eip with
        | true => exact ⟨_, e, fetch_of_refuses ⟨hb, hf, hr⟩, h.provided⟩
        | false =>
            obtain ⟨hpage, hcode⟩ := of_not_barred hb
            obtain ⟨watch, guarded, hw, hwatched⟩ := h.coherent.guarded.watchPage hpage hcode
            obtain ⟨page, hp⟩ := Memory.bytes?_eq_some_of_lt
              (Memory.lt_pageCount_of_watch? hwatched.watch)
            have hkept := hP.lasting.watchPage h.provided hw
            obtain ⟨⟨id, code⟩, hc⟩ := CodeStore.compile_ok hwatched.coherent.store hP hkept
              h.coherent.settings.sufficient watch page eip
            rw [fetch_of_not_find? hb hf hr hw, compile_eq (e := { e with guarded }) hp watch]
            refine ⟨.compiled id, { e with guarded := { guarded with code } }, ?_, ?_⟩
            · show (Except.map _ (guarded.code.compile e.limits watch page eip) >>= _) = _
              rw [show guarded.code.compile e.limits watch page eip = _ from hc]
              rfl
            · exact CodeStore.provided_of_compile hwatched.coherent.store hP hkept
                h.coherent.settings.sufficient hc
  obtain ⟨f, e', hok, ha⟩ := hprovided
  rcases fetch_spec h.coherent eip with ⟨hi, _⟩ | ⟨f', id, e'', hok', hid, hfound, _⟩ | herr
  · rw [hok, Except.ok.injEq, Prod.mk.injEq] at hi
    obtain ⟨rfl, rfl⟩ := hi
    exact ⟨_, _, hok, h, Or.inl rfl⟩
  · rw [hok, Except.ok.injEq, Prod.mk.injEq] at hok'
    obtain ⟨rfl, rfl⟩ := hok'
    exact ⟨f, e', hok, (h.orderly.found hfound).steady ha, Or.inr ⟨id, hid, hfound⟩⟩
  · rw [hok] at herr
    cases herr

/-- **Compiled code never fails,** and the exit it is left through is one that
the block entered last has. -/
theorem execute {id : BlockId} (hid : e.arena.isLive id = true) :
    ∃ code last e', e.execute id = .ok (code, last, e') ∧ e'.Steady P ∧
      ∀ slot, code = .ofSlot slot →
        e'.Awaits (some ⟨last, slot, (e'.arena.block last).generation⟩) := by
  obtain ⟨cs, code, t, hx⟩ := h.orderly.execute hid
  exact ⟨code, _, e.left t, hx.execute,
    hx.orderly.steady (hP.lasting.execute h.provided hx.execute), hx.awaits⟩

/-! ## The dispatcher -/

theorem interpret {σ : Type} (i : Interpreter σ) (s : σ) : (e.interpret i s).2.2.Steady P :=
  (h.orderly.interpret i s).steady (hP.lasting.interpret h.provided i s)

theorem linkTo {a : Arena} {source target : BlockId} {slot : Slot}
    (ht : e.arena.isLive target = true ∨ target = .trampoline slot)
    (hl : e.arena.link source slot target = .ok a) : (e.modifyArena fun _ => a).Steady P :=
  (h.orderly.linkTo ht hl).steady (hP.of_alike h.provided (.link hl))

theorem settle {e₀ : Emulator} {pending : Option PendingLink} (ha : e₀.Awaits pending)
    {id : BlockId} (hf : e₀.Found e₀.cpu.eip id e) :
    ∃ e', e.settle pending id = .ok e' ∧ e'.Steady P ∧ e'.arena.isLive id = true := by
  obtain ⟨src, hs, _⟩ := hf.source
  have hlive : e.arena.isLive id = true := h.coherent.guarded.store.isLive_of_source hs
  rcases hf.settle ha with hnone | ⟨p, _, a, _, _, hlink, hsettle⟩
  · exact ⟨e, hnone, h, hlive⟩
  · exact ⟨_, hsettle, h.linkTo hP (Or.inl hlive) hlink,
      ((Arena.Alike.link hlink).isLive id).symm.trans hlive⟩

end Steady

/-- Whatever a turn leads to is steady. -/
def Turn.Steady {σ : Type} (P : Arena → Prop) : Turn σ → Prop
  | .go _ e pending => e.Steady P ∧ e.Awaits pending
  | .stop _ _ e => e.Steady P

section Run

variable {σ : Type} (i : Interpreter σ)

include hP

theorem Steady.interpreted {e : Emulator} (h : e.Steady P) (s : σ) :
    (turn.interpreted i s e).Steady P := by
  have hi := h.interpret hP i s
  unfold turn.interpreted
  split
  · next he =>
      rw [he] at hi
      exact hi
  · next he =>
      rw [he] at hi
      exact ⟨hi, awaits_none _⟩

/-- **A turn of the dispatcher never fails.** -/
theorem Steady.turn {e : Emulator} (h : e.Steady P) (s : σ) {pending : Option PendingLink}
    (ha : e.Awaits pending) : ∃ t, e.turn i s pending = .ok t ∧ t.Steady P := by
  obtain ⟨f, e₁, hf, h₁, hfound⟩ := h.fetch hP e.cpu.eip
  rcases hfound with hnone | ⟨id, hid, hfound⟩
  · exact ⟨_, turn_of_interpret i s hf hnone, h₁.interpreted hP i s⟩
  · obtain ⟨e₂, hs, h₂, hlive⟩ := h₁.settle hP ha hfound
    obtain ⟨code, last, e₃, hx, h₃, hexit⟩ := h₂.execute hP hlive
    refine ⟨_, turn_eq i s hf hid hs hx, ?_⟩
    cases code with
    | normal | cycles | selfModified => exact ⟨h₃, awaits_none _⟩
    | firstExit => exact ⟨h₃, hexit .first rfl⟩
    | secondExit => exact ⟨h₃, hexit .second rfl⟩
    | opcode => exact h₃.interpreted hP i s
    | callback => exact h₃

/-- **Turns never fail,** by induction on their number. -/
theorem Steady.turns (fuel : Nat) {e : Emulator} (h : e.Steady P) (s : σ)
    {pending : Option PendingLink} (ha : e.Awaits pending) :
    ∃ exit s' e', turns i fuel s e pending = .ok (exit, s', e') ∧ e'.Steady P := by
  induction fuel generalizing e s pending with
  | zero => exact ⟨_, s, e, rfl, h⟩
  | succ fuel ih =>
      unfold Emulator.turns
      split
      · exact ⟨_, s, e, rfl, h⟩
      · obtain ⟨t, ht, hsteady⟩ := h.turn hP i s ha
        rw [ht]
        cases t with
        | go s' e' pending' => exact ih hsteady.1 s' hsteady.2
        | stop exit s' e' => exact ⟨exit, s', e', rfl, hsteady⟩

end Run

/-! ## Whatever a host program does -/

/-- What a host program has to keep to: it executes compiled blocks, and links
exits that there are to compiled blocks or to their own trampoline. -/
def Permits (e : Emulator) : Action → Prop
  | .execute id => e.arena.isLive id = true
  | .link source slot target => slot.index < (e.arena.block source).kind.exitCount ∧
      (e.arena.isLive target = true ∨ target = .trampoline slot)
  | _ => True

instance (e : Emulator) : DecidablePred e.Permits := fun a => by
  cases a <;> unfold Permits <;> infer_instance

/-- Whether all of some actions are permitted when it is their turn. -/
def Lawful (e : Emulator) : List Action → Prop
  | [] => True
  | a :: rest => e.Permits a ∧
      match e.perform a with
      | .ok e' => e'.Lawful rest
      | .error _ => True

instance decidableLawful : (e : Emulator) → (actions : List Action) → Decidable (e.Lawful actions)
  | _, [] => .isTrue trivial
  | e, a :: rest =>
      match hp : e.perform a with
      | .ok e' =>
          have := decidableLawful e' rest
          decidable_of_iff (e.Permits a ∧ e'.Lawful rest) (by rw [Lawful, hp])
      | .error _ => decidable_of_iff (e.Permits a) (by rw [Lawful, hp, and_true])

section Perform

include hP

/-- **No permitted action fails.** -/
theorem Steady.perform {e : Emulator} (h : e.Steady P) {a : Action} (ha : e.Permits a) :
    ∃ e', e.perform a = .ok e' ∧ e'.Steady P := by
  have htears : a.tears = true → ∀ e', e.perform a = .ok e' → e'.Steady P := fun ht e' hp =>
    ⟨h.coherent.perform hp, (h.coherent.shrinks_perform ht hp).2.homed h.homed,
      hP.lasting.perform ht h.provided hp⟩
  cases a with
  | fetch eip =>
      obtain ⟨f, e', hf, h', _⟩ := h.fetch hP eip
      refine ⟨e', h.coherent.perform_eq ?_, h'⟩
      show (e.fetch eip >>= _) = _
      rw [hf]
      rfl
  | run i s cycles =>
      obtain ⟨exit, s', e', hr, h'⟩ :=
        (h.setContext { e.context with cycles }).turns hP i cycles.toInt.toNat s (awaits_none _)
      refine ⟨e', h.coherent.perform_eq ?_, h'⟩
      show (e.run i s cycles >>= _) = _
      rw [show e.run i s cycles = _ from hr]
      rfl
  | link source slot target =>
      obtain ⟨hx, ht⟩ := ha
      obtain ⟨a, hl⟩ := Arena.link_ok (a := e.arena)
        (ht.symm.imp_left fun ht => ht ▸ BlockId.isTrampoline_trampoline slot) hx
      refine ⟨e.modifyArena fun _ => a, h.coherent.perform_eq ?_, h.linkTo hP ht hl⟩
      show (e.arena.link source slot target >>= _) = _
      rw [hl]
      rfl
  | execute id =>
      obtain ⟨code, last, e', hx, _⟩ := h.execute hP ha
      have hp : e.perform (.execute id) = .ok e' := by
        refine h.coherent.perform_eq ?_
        show (e.execute id >>= _) = _
        rw [hx]
        rfl
      exact ⟨e', hp, htears rfl e' hp⟩
  | discard id =>
      obtain ⟨code, hd⟩ := h.coherent.guarded.store.indexed.filed.discard_ok id
      have hp : e.perform (.discard id) = .ok { e with guarded := { e.guarded with code } } := by
        refine h.coherent.perform_eq ?_
        show (e.guarded.code.discard id >>= _) = _
        rw [hd]
        rfl
      exact ⟨_, hp, htears rfl _ hp⟩
  | _ => exact ⟨_, h.coherent.perform_eq rfl, htears rfl _ (h.coherent.perform_eq rfl)⟩

/-- **No permitted actions fail,** by induction on their number. -/
theorem Steady.performAll {e : Emulator} (h : e.Steady P) {actions : List Action}
    (ha : e.Lawful actions) : ∃ e', e.performAll actions = .ok e' := by
  induction actions generalizing e with
  | nil => exact ⟨e, rfl⟩
  | cons a rest ih =>
      obtain ⟨hpermitted, hrest⟩ := ha
      obtain ⟨e₁, hp, h₁⟩ := h.perform hP hpermitted
      rw [hp] at hrest
      obtain ⟨e', hall⟩ := ih h₁ hrest
      exact ⟨e', bind_eq_ok_iff.mpr ⟨e₁, hp, hall⟩⟩

end Perform

/-! ## How many descriptors it takes -/

theorem Steady.new {settings : Settings} {memory : Memory} {decoder : Decoder} {e : Emulator}
    (hm : memory.Unwatched) (hn : Emulator.new settings memory decoder = .ok e)
    (hp : settings.Valid → P (CodeStore.new settings).arena) : e.Steady P := by
  refine ⟨.new hm hn, (Sound.new hm hn).threaded.homed, ?_⟩
  unfold Emulator.new at hn
  split at hn
  · cases hn
  · next hobjection =>
      cases hn
      exact hp ((Settings.objection?_eq_none_iff _).mp hobjection)

/-- **Nothing the guest or the host program does makes it fail.**  With a
descriptor for every sixteen bytes of the arena and two for the trampolines, any
actions succeed on any memory, as long as they are permitted. -/
theorem succeeds_of_lawful {settings : Settings} {memory : Memory} {decoder : Decoder}
    {e : Emulator} (hm : memory.Unwatched) (hn : Emulator.new settings memory decoder = .ok e)
    (hd : settings.arenaBytes / codeAlign + BlockId.lowest.number ≤ settings.descriptors)
    {actions : List Action} (ha : e.Lawful actions) : ∃ e', e.performAll actions = .ok e' :=
  (Steady.new hm hn fun hs => CodeStore.ample_new hs hd).performAll .ample ha

/-- A loop linked to itself by hand, on a computer with one watch for two
pages. -/
theorem succeeds_of_handmade_loop :
    ∃ e, Emulator.new { Settings.small with descriptors := 66 } ⟨#[.zero, .zero]⟩ = .ok e ∧
      ∃ e', e.performAll [.load 0 [0x40, 0xEB, 0xFD], .fetch 0, .link ⟨2⟩ .first ⟨2⟩,
        .setCycles 3, .execute ⟨2⟩, .link ⟨2⟩ .first (.trampoline .first), .run stepper () 5,
        .fetch 4096, .discard ⟨2⟩, .flush] = .ok e' := by
  have hunwatched : Memory.Unwatched ⟨#[.zero, .zero]⟩ := by
    constructor <;> rintro (_ | _ | page) <;> rfl
  have hnew : Emulator.new { Settings.small with descriptors := 66 } ⟨#[.zero, .zero]⟩ = .ok _ :=
    rfl
  exact ⟨_, hnew, succeeds_of_lawful hunwatched hnew (by decide) (by decide +kernel)⟩

/-- Settings with a descriptor for every sixty-four bytes of the arena. -/
def sparse : Settings :=
  { arenaBytes := 1536, blockBytes := 512, descriptors := 24, watches := 1 }

def fetches (n : Nat) : List Action := (List.range n).map fun i => .fetch i.toUInt32

/-- **A descriptor for every sixty-four bytes is not enough.**  A block that only
leaves an instruction to the interpreter takes forty-eight. -/
theorem exhausted_on_empty_page :
    sparse.Valid ∧ sparse.arenaBytes ≤ 64 * sparse.descriptors ∧
      ∃ e, Emulator.new sparse ⟨#[.zero]⟩ = .ok e ∧
        e.performAll (fetches 22) = .error (.descriptorsExhausted 24) :=
  ⟨(Settings.objection?_eq_none_iff _).mp rfl, by decide, _, rfl,
    eq_error_of_failsWith (by decide +kernel)⟩

/-- **Blocks have room before descriptors are used up,** if there is one for
every forty-eight bytes in which a block may start, and for every sixteen of the
scratch space behind them. -/
theorem succeeds_of_room {settings : Settings} {memory : Memory} {decoder : Decoder} {e : Emulator}
    (hm : memory.Unwatched) (hn : Emulator.new settings memory decoder = .ok e)
    (hd : (settings.arenaBytes - settings.blockBytes) / Arena.leastRegion +
      settings.blockBytes / codeAlign + 2 + BlockId.lowest.number ≤ settings.descriptors)
    {actions : List Action} (ha : e.Lawful actions) : ∃ e', e.performAll actions = .ok e' :=
  (Steady.new hm hn fun hs => CodeStore.coarse_new hs hd).performAll .coarse ha

/-- The same look-ups with a few descriptors more. -/
theorem succeeds_on_empty_page :
    ∃ e, Emulator.new { sparse with descriptors := 57 } ⟨#[.zero]⟩ = .ok e ∧
      ∃ e', e.performAll (fetches 22) = .ok e' := by
  have hnew : Emulator.new { sparse with descriptors := 57 } ⟨#[.zero]⟩ = .ok _ := rfl
  exact ⟨_, hnew, succeeds_of_room unwatched_zeroed hnew (by decide) (by decide +kernel)⟩

end Emulator

end Recompiler
