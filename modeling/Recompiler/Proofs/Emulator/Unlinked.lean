import Recompiler.Proofs.Compile.Settled
import Recompiler.Proofs.Emulator.Forget
import Recompiler.Proofs.Emulator.Refinement

/-!
# Links are not observed

A run that links exits and one that goes back to the dispatcher at every exit
end alike.  A linked exit enters the block that a look-up of the address stored
would find: so while the one run follows a link, the other takes a turn that
finds the same block, and what the two have in common, links aside, stays so.
-/

namespace Recompiler

namespace Arena

def Unlinked (a : Arena) : Prop := ∀ d slot, a.successor d slot = .trampoline slot

theorem Unlinked.of_kept {a a' : Arena} (h : a.Unlinked)
    (hlink : ∀ d s, a'.successor d s = a.successor d s ∨ a'.successor d s = .trampoline s) :
    a'.Unlinked := fun d s => (hlink d s).elim (fun he => he.trans (h d s)) fun he => he

theorem Unlinked.cut (a : Arena) : a.cut.Unlinked := fun d slot => by
  rw [successor, block_cut, show (a.block d).core.links = .unlinked from rfl, Links.get_unlinked]
  rfl

end Arena

namespace Emulator

variable {σ : Type}

/-! ## A dispatcher that links nothing -/

/-- Turns of a dispatcher that drops what is pending. -/
def turnsUnlinked (i : Interpreter σ) : Nat → σ → Emulator → Except Fault (RunEnd × σ × Emulator)
  | 0, s, e => .ok (.outOfCycles, s, e)
  | fuel + 1, s, e =>
      if e.context.cycles ≤ 0 then .ok (.outOfCycles, s, e)
      else do
        match ← e.turn i s none with
        | .go s e _ => turnsUnlinked i fuel s e
        | .stop exit s e => return (exit, s, e)

/-- A run that goes back to the dispatcher at every exit. -/
def runUnlinked (i : Interpreter σ) (s : σ) (e : Emulator) (cycles : Int32) :
    Except Fault (RunEnd × σ × Emulator) :=
  turnsUnlinked i cycles.toInt.toNat s (e.setCycles cycles)

def forgetEnd (r : RunEnd × σ × Emulator) : RunEnd × σ × Emulator := (r.1, r.2.1, r.2.2.forget)

/-! ## Emulators that differ in links -/

/-- Emulators that differ in links only, and no exit of the second is linked. -/
structure Twins (e₁ e₂ : Emulator) : Prop where
  sound : e₁.Sound
  coherent : e₂.Coherent
  unlinked : e₂.arena.Unlinked
  forget : e₁.forget = e₂.forget

theorem Coherent.cut {e : Emulator} (h : e.Coherent) : e.cut.Coherent :=
  h.setGuarded (h.guarded.of_alike (Arena.alike_cut _) h.guarded.store.linked.cut)

theorem Twins.cut {e : Emulator} (h : e.Sound) : Twins e e.cut :=
  ⟨h, h.coherent.cut, .cut _, (forget_cut e).symm⟩

namespace Twins

variable {e₁ e₂ : Emulator} (h : Twins e₁ e₂)

include h

theorem settings : e₁.settings = e₂.settings := by
  have hs : e₁.forget.settings = e₂.forget.settings := by rw [h.forget]
  exact hs

theorem context : e₁.context = e₂.context := by
  have hc : e₁.forget.context = e₂.forget.context := by rw [h.forget]
  exact hc

theorem core (b : BlockId) : (e₁.arena.block b).core = (e₂.arena.block b).core := by
  have hb := congrArg (fun e : Emulator => e.arena.block b) h.forget
  rw [← Arena.block_forget, ← Arena.block_forget]
  exact hb

theorem countHits : Twins e₁ (e₂.count fun c => { c with hits := c.hits + 1 }) :=
  ⟨h.sound, h.coherent.count _, h.unlinked, h.forget.trans (forget_count_hits e₂).symm⟩

theorem modifyContext (f : Context → Context) :
    Twins { e₁ with context := f e₁.context } { e₂ with context := f e₂.context } := by
  refine ⟨h.sound.setContext _, h.coherent.setContext _, h.unlinked, ?_⟩
  exact congrArg (fun e : Emulator => { e with context := f e.context }) h.forget

/-- A look-up answers both alike. -/
theorem fetch_cases (eip : UInt32) :
    (e₁.fetch eip = .ok (.interpret, e₁) ∧ e₂.fetch eip = .ok (.interpret, e₂)) ∨
      (∃ f id e₁' e₂', e₁.fetch eip = .ok (f, e₁') ∧ e₂.fetch eip = .ok (f, e₂') ∧
        f.block? = some id ∧ e₁.Found eip id e₁' ∧ e₂.Found eip id e₂' ∧ Twins e₁' e₂') ∨
      ∃ fault, e₁.fetch eip = .error fault ∧ e₂.fetch eip = .error fault := by
  have hfetch : (e₁.fetch eip).map (Prod.map id Emulator.forget) =
      (e₂.fetch eip).map (Prod.map id Emulator.forget) := by
    rw [forget_fetch, h.forget, ← forget_fetch]
  rcases fetch_spec h.sound.coherent eip with ⟨h₁, _⟩ | ⟨f, b, e₁', h₁, hid, hf₁, _⟩ | h₁
  · rw [h₁] at hfetch
    rcases fetch_spec h.coherent eip with ⟨h₂, _⟩ | ⟨f', _, e₂', h₂, hid', _, _⟩ | h₂
    · exact Or.inl ⟨h₁, h₂⟩
    · rw [h₂] at hfetch
      cases (congrArg Prod.fst (Except.ok.inj hfetch) : Fetched.interpret = f')
      cases hid'
    · rw [h₂] at hfetch
      cases hfetch
  · rw [h₁] at hfetch
    rcases fetch_spec h.coherent eip with ⟨h₂, _⟩ | ⟨f', b', e₂', h₂, hid', hf₂, _⟩ | h₂
    · rw [h₂] at hfetch
      cases (congrArg Prod.fst (Except.ok.inj hfetch) : f = Fetched.interpret)
      cases hid
    · rw [h₂] at hfetch
      cases (congrArg Prod.fst (Except.ok.inj hfetch) : f = f')
      cases Option.some.inj (hid.symm.trans hid')
      exact Or.inr (Or.inl ⟨f, b, e₁', e₂', h₁, h₂, hid, hf₁, hf₂, h.sound.found hf₁,
        hf₂.coherent, h.unlinked.of_kept hf₂.link, congrArg Prod.snd (Except.ok.inj hfetch)⟩)
    · rw [h₂] at hfetch
      cases hfetch
  · rw [h₁] at hfetch
    rcases fetch_spec h.coherent eip with ⟨h₂, _⟩ | ⟨f', _, e₂', h₂, _, _, _⟩ | h₂
    · rw [h₂] at hfetch
      cases hfetch
    · rw [h₂] at hfetch
      cases hfetch
    · rw [h₂] at hfetch
      exact Or.inr (Or.inr ⟨_, h₁, h₂.trans hfetch.symm⟩)

/-- **Where the one follows a link, the other's look-up finds the block it leads
to.** -/
theorem fetch_successor {d : BlockId} {slot : Slot}
    (hT : (e₁.arena.successor d slot).isTrampoline = false)
    (hx : e₁.arena.Exits e₁.limits d slot e₁.cpu.eip) :
    e₂.fetch e₂.cpu.eip = .ok (.cached (e₁.arena.successor d slot),
      e₂.count fun c => { c with hits := c.hits + 1 }) := by
  obtain ⟨src, hs, hx'⟩ := h.sound.threaded.thread d slot hT
  have heip : src.start = e₁.cpu.eip := hx'.unique h.sound.coherent.settings.sufficient hx
  have hs₂ : e₂.arena.sourceOf _ = some src :=
    (Arena.sourceOf_eq_of_core (h.core _).symm).trans hs
  have hcpu : e₁.cpu = e₂.cpu := congrArg Context.cpu h.context
  rw [← hcpu, ← heip]
  exact fetch_of_find? (h.coherent.not_barred hs₂) (h.coherent.find?_eq_some_iff.mpr ⟨src, hs₂, rfl⟩)

theorem interpret (i : Interpreter σ) (s : σ) :
    (e₁.interpret i s).1 = (e₂.interpret i s).1 ∧
      (e₁.interpret i s).2.1 = (e₂.interpret i s).2.1 ∧
        Twins (e₁.interpret i s).2.2 (e₂.interpret i s).2.2 := by
  have hi := forget_interpret i s e₁
  rw [h.forget, forget_interpret, Prod.mk.injEq, Prod.mk.injEq] at hi
  obtain ⟨hc, hs⟩ := leaves_interpret h.coherent i s
  exact ⟨hi.1.symm, hi.2.1.symm, h.sound.interpret i s, hc, h.unlinked.of_kept hs.link, hi.2.2.symm⟩

end Twins

/-! ## Blocks -/

theorem helpers_alike :
    helpers.Alike helpers fun g g' : GuardedMemory => g.forget = g'.forget := by
  refine ⟨fun g g' addr hg => ?_, fun g g' running width addr value hg => ?_, fun _ _ _ => rfl⟩
  · have hm := congrArg GuardedMemory.memory hg
    exact congrArg (fun m : Memory => m.readWidth .long addr) hm
  · have hw := g.forget_write width addr value
      (if running = noBlock then none else some (.ofWord running))
    rw [hg, ← g'.forget_write] at hw
    exact ⟨congrArg Prod.snd hw, congrArg (fun r => r.1.metRunning) hw⟩

namespace Twins

variable {e₁ e₂ : Emulator} {s₁ s₂ t₁ t₂ : HostState GuardedMemory}
  (h : Twins (e₁.left s₁) (e₂.left s₂))

include h

theorem run (ho₁ : s₁.Owned []) (ho₂ : s₂.Owned []) (seq : Sequence) (id : BlockId) :
    (s₁.run helpers none (seq.operations id)).Alike (fun g g' => g.forget = g'.forget)
      (s₂.run helpers none (seq.operations id)) := by
  have hcontext :
      { s₁.context with running := id.word } = { s₂.context with running := id.word } := by
    have howned : ∀ c : Context, c.owner = true → { c with running := id.word } =
        { c with running := id.word, owner := true } := fun c hc => by rw [← hc]
    rw [howned _ ho₁.owner, howned _ ho₂.owner]
    exact congrArg (fun c : Context => { c with running := id.word, owner := true }) h.context
  have hcycles : (e₁.left s₁).context.cycles = (e₂.left s₂).context.cycles := by rw [h.context]
  have hsettled : settled [] (bodies (cycleLabel + 1) seq.instructions ++ seq.tail id) = true :=
    settled_append (settled_bodies ..)
      (settled_append (seq.exit.settled_operations ..) (settled_append rfl (settled_writeStubs ..)))
  have halike : (s₁.started helpers id).Alike (fun g g' => g.forget = g'.forget) []
      (s₂.started helpers id) :=
    ⟨fun _ hp => absurd hp List.not_mem_nil,
      by rw [s₁.context_started, s₂.context_started, hcontext], congrArg Emulator.guarded h.forget,
      ho₁.broken.trans ho₂.broken.symm⟩
  rw [s₁.run_started, s₂.run_started, show s₁.context.cycles = s₂.context.cycles from hcycles]
  refine HostState.Alike.run helpers_alike _ hsettled (halike.mono ?_)
  rw [ite_self]
  exact List.Subset.refl _

theorem leave (h₁ : GuardedMemory.Leaves e₁.limits none s₁.world false t₁.world)
    (h₂ : GuardedMemory.Leaves e₂.limits none s₂.world false t₂.world)
    (halike : t₁.Alike (fun g g' => g.forget = g'.forget) [] t₂) :
    Twins (e₁.left t₁) (e₂.left t₂) := by
  refine ⟨(h.sound.leaves h₁.coherent h₁.shrinks).setContext _, ⟨h.coherent.settings, h₂.coherent⟩,
    h.unlinked.of_kept h₂.shrinks.link, ?_⟩
  have hsettings : e₁.settings = e₂.settings := h.settings
  show Emulator.mk e₁.settings t₁.world.forget
      { t₁.context with running := noBlock, owner := false } =
    Emulator.mk e₂.settings t₂.world.forget
      { t₂.context with running := noBlock, owner := false }
  rw [hsettings, halike.world, halike.context]

end Twins

/-! ## Turns -/

/-- Turns that end alike, with fewer than `n` cycles left. -/
inductive Matches (n : Int) : Turn σ → Turn σ → Prop
  | go {s : σ} {e₁ e₂ : Emulator} {pending dropped : Option PendingLink} (h : Twins e₁ e₂)
      (ha : e₁.Awaits pending) (hn : e₁.context.cycles.toInt < n) :
      Matches n (.go s e₁ pending) (.go s e₂ dropped)
  | stop {exit : RunEnd} {s : σ} {e₁ e₂ : Emulator} (h : Twins e₁ e₂)
      (hn : e₁.context.cycles.toInt < n) : Matches n (.stop exit s e₁) (.stop exit s e₂)

theorem Matches.cycles {n : Int} {t t' : Turn σ} (h : Matches n t t') :
    t'.emulator.context.cycles.toInt < n := by
  cases h with
  | go h _ hn | stop h hn =>
      rw [h.context] at hn
      exact hn

theorem Matches.mono {m n : Int} {t t' : Turn σ} (h : Matches m t t') (hmn : m ≤ n) :
    Matches n t t' := by
  cases h with
  | go h ha hn => exact .go h ha (Int.lt_of_lt_of_le hn hmn)
  | stop h hn => exact .stop h (Int.lt_of_lt_of_le hn hmn)

theorem Twins.interpreted {e₁ e₂ : Emulator} (h : Twins e₁ e₂) (i : Interpreter σ) (s : σ)
    (hlow : -(pageSize : Int) < e₁.context.cycles.toInt) {n : Int}
    (hn : e₁.context.cycles.toInt ≤ n) :
    Matches n (turn.interpreted i s e₁) (turn.interpreted i s e₂) := by
  obtain ⟨houtcome, hstate, htwins⟩ := h.interpret i s
  have hcycles := cycles_interpret i s hlow
  obtain ⟨⟨o₁, s₁, x₁⟩, h₁⟩ : ∃ r, e₁.interpret i s = r := ⟨_, rfl⟩
  obtain ⟨⟨o₂, s₂, x₂⟩, h₂⟩ : ∃ r, e₂.interpret i s = r := ⟨_, rfl⟩
  rw [h₁] at houtcome hstate htwins hcycles
  rw [h₂] at houtcome hstate htwins
  cases houtcome
  cases hstate
  have hlt : x₁.context.cycles.toInt < n := by
    simp only at hcycles
    omega
  unfold turn.interpreted
  rw [h₁, h₂]
  cases o₁ with
  | halt => exact .stop htwins hlt
  | proceed => exact .go htwins (awaits_none _) hlt

/-- The turn after compiled code returned but through an exit. -/
theorem Twins.answered {e₁ e₂ : Emulator} {i : Interpreter σ} {s : σ} {l : Limits} {id : BlockId}
    {exit : Exit} {eip : UInt32} {s₁ t₁ t₂ : HostState GuardedMemory} {word : UInt32}
    (h : Twins (e₁.left t₁) (e₂.left t₂))
    (hleft : Left i s l id exit 0 eip s₁ (.returned word t₁))
    (hpos : 0 < s₁.context.cycles.toInt) :
    ∃ code : ReturnCode, word = code.word ∧ ∀ last last', Matches s₁.context.cycles.toInt
      (answered i s last (e₁.left t₁) code) (answered i s last' (e₂.left t₂) code) := by
  cases hleft with
  | @returned n _ code hcode hn hp =>
      have hlt : (e₁.left t₁).context.cycles.toInt < s₁.context.cycles.toInt := by
        have hcycles : (e₁.left t₁).context.cycles.toInt = _ := hp.cycles
        omega
      refine ⟨code, rfl, fun _ _ => ?_⟩
      rcases hcode with rfl | rfl
      · exact .go h (awaits_none _) hlt
      · exact .go h (awaits_none _) hlt
  | @opcode n _ hsize hp hi =>
      have hcycles : (e₁.left t₁).context.cycles.toInt = _ := hp.cycles
      exact ⟨.opcode, rfl, fun _ _ => h.interpreted i s (by omega) (by omega)⟩
  | @callback n _ v hn hp hv =>
      have hcycles : (e₁.left t₁).context.cycles.toInt = _ := hp.cycles
      refine ⟨.callback, rfl, fun _ _ => ?_⟩
      unfold Emulator.answered
      rw [h.context]
      exact .stop h (by omega)

/-- **A block is left alike in both:** it returns, or leaves through an exit. -/
theorem Twins.block {e₁ e₂ : Emulator} {s₁ s₂ : HostState GuardedMemory}
    (h : Twins (e₁.left s₁) (e₂.left s₂)) (ho₁ : s₁.Owned []) (ho₂ : s₂.Owned [])
    (i : Interpreter σ) (s : σ) {id : BlockId} {src : Source}
    (hb : s₁.world.code.arena.sourceOf id = some src) (hpos : 0 < s₁.context.cycles.toInt) :
    (∃ (code : ReturnCode) (t₁ t₂ : HostState GuardedMemory),
      s₁.run helpers none (s₁.world.code.arena.block id).program = .returned code.word t₁ ∧
        s₂.run helpers none (s₂.world.code.arena.block id).program = .returned code.word t₂ ∧
          ∀ last last', Matches s₁.context.cycles.toInt
            (Emulator.answered i s last (e₁.left t₁) code)
            (Emulator.answered i s last' (e₂.left t₂) code)) ∨
      ∃ (slot : Slot) (t₁ t₂ : HostState GuardedMemory),
        s₁.run helpers none (s₁.world.code.arena.block id).program =
            .jumped (.exitSlot id slot) t₁ ∧
          s₂.run helpers none (s₂.world.code.arena.block id).program =
            .jumped (.exitSlot id slot) t₂ ∧
          Twins (e₁.left t₁) (e₂.left t₂) ∧ t₁.Owned [] ∧
          t₁.world.code.arena.Exits e₁.limits id slot t₁.context.cpu.eip ∧
          t₁.world.code.arena.isLive id = true ∧ t₁.context.running = id.word ∧
          t₁.context.cycles.toInt < s₁.context.cycles.toInt := by
  have hg₁ : s₁.world.Coherent e₁.limits := h.sound.coherent.guarded
  have hg₂ : s₂.world.Coherent e₂.limits := h.coherent.guarded
  have hcore : (s₁.world.code.arena.block id).core = (s₂.world.code.arena.block id).core := h.core id
  obtain ⟨seq, hg, _, hprogram⟩ := (hg₁.store.translated id src hb).gives
  have hprogram₁ : (s₁.world.code.arena.block id).program = seq.operations id := hprogram
  have hprogram₂ : (s₂.world.code.arena.block id).program = seq.operations id :=
    (congrArg Descriptor.program hcore.symm).trans hprogram
  rw [hprogram₁, hprogram₂]
  have hleft : Left i s _ id seq.exit 0 src.start s₁ _ :=
    left_block h.sound.coherent.settings.sufficient hg hg₁ hb hpos
  have halike := h.run ho₁ ho₂ seq id
  have howned := HostState.Owned.run (h := helpers) none (seq.settled_operations id) ho₁
  have hleaves₁ := leaves_block hg₁ (seq.operations id)
  have hleaves₂ := leaves_block hg₂ (seq.operations id)
  generalize s₁.run helpers none (seq.operations id) = o₁ at hleft halike howned hleaves₁ ⊢
  generalize s₂.run helpers none (seq.operations id) = o₂ at halike hleaves₂ ⊢
  cases o₁ with
  | lost => cases hleft
  | returned word t₁ =>
      obtain ⟨t₂, rfl, ht⟩ := halike.returned
      obtain ⟨code, rfl, hm⟩ := (h.leave hleaves₁ hleaves₂ ht).answered hleft hpos
      exact Or.inl ⟨code, t₁, t₂, rfl, rfl, hm⟩
  | jumped slot t₁ =>
      obtain ⟨t₂, rfl, ht⟩ := halike.jumped
      cases hleft with
      | @jumped k _ slot hk hp hlive htarget =>
          have hcycles := hp.cycles
          have hexits : t₁.world.code.arena.Exits e₁.limits id slot t₁.context.cpu.eip :=
            ⟨src, seq, (Arena.sourceOf_eq_of_core (hp.shrinks.core id hlive)).trans hb, hg, htarget⟩
          exact Or.inr ⟨slot, t₁, t₂, rfl, rfl, h.leave hleaves₁ hleaves₂ ht, howned, hexits,
            hlive, hp.running, by omega⟩

/-! ## Chains of blocks -/

/-- Turns that drop what is pending, one after the other; each uses up a cycle
at least. -/
inductive TurnsTo (i : Interpreter σ) : σ → Emulator → Turn σ → Prop
  | last {s : σ} {e : Emulator} {t : Turn σ} (ht : e.turn i s none = .ok t)
      (hlt : t.emulator.context.cycles.toInt < e.context.cycles.toInt) : TurnsTo i s e t
  | more {s s' : σ} {e e' : Emulator} {dropped : Option PendingLink} {t : Turn σ}
      (ht : e.turn i s none = .ok (.go s' e' dropped))
      (hlt : e'.context.cycles.toInt < e.context.cycles.toInt) (hc : 0 < e'.context.cycles.toInt)
      (h : TurnsTo i s' e' t) : TurnsTo i s e t

/-- **A chain of blocks takes as many turns where no exit is linked,** by
induction on the number of blocks: whenever one is left through a linked exit,
the other's next look-up finds the block the exit leads to. -/
theorem Twins.chain {e₁ : Emulator} (i : Interpreter σ) (s : σ) (n : Nat) {x e₂ : Emulator}
    {id : BlockId} {src : Source} {f : Fetched} {s₁ : HostState GuardedMemory}
    (h : Twins (e₁.left s₁) (e₂.left (e₂.entered id))) (ho : s₁.Owned [])
    (hf : x.fetch x.cpu.eip = .ok (f, e₂)) (hid : f.block? = some id)
    (hx : x.context.cycles.toInt = s₁.context.cycles.toInt)
    (hb : s₁.world.code.arena.sourceOf id = some src) (hpos : 0 < s₁.context.cycles.toInt)
    (hn : s₁.context.cycles.toInt.toNat < n) :
    ∃ code t τ, Emulator.chain n id s₁ = .ok (code.word, t) ∧ x.TurnsTo i s τ ∧
      Matches s₁.context.cycles.toInt
        (Emulator.answered i s (.ofWord t.context.running) (e₁.left t) code) τ := by
  induction n generalizing x e₂ id src f s₁ with
  | zero => exact absurd hn (Nat.not_lt_zero _)
  | succ n ih =>
      have hstore₂ : e₂.guarded.code.Coherent e₂.limits := h.coherent.guarded.store
      have hb₂ : e₂.arena.sourceOf id = some src :=
        (Arena.sourceOf_eq_of_core (h.core id).symm).trans hb
      -- The other dispatcher goes through one block a turn.
      have hturn : ∀ {code t}, Emulator.chain (e₂.context.cycles.toInt.toNat + 1) id
          (e₂.entered id) = .ok (code.word, t) → x.turn i s none =
            .ok (Emulator.answered i s (.ofWord t.context.running) (e₂.left t) code) := fun hc =>
        turn_eq i s hf hid rfl (execute_of_chain h.coherent (hstore₂.isLive_of_source hb₂) hc)
      rcases h.block ho (e₂.owned_entered id) i s hb hpos with ⟨code, t₁, t₂, hrun₁, hrun₂, hm⟩ |
        ⟨slot, t₁, t₂, hrun₁, hrun₂, htwins, howned, hexits, hlive, hrunning, hlt⟩
      · exact ⟨code, t₁, _, chain_of_returned hrun₁, .last (hturn (chain_of_returned hrun₂))
          (hx ▸ (hm (.ofWord 0) _).cycles), hm _ _⟩
      have hg₁ : t₁.world.Coherent e₁.limits := htwins.sound.coherent.guarded
      have hthreads : t₁.world.code.arena.Threaded e₁.limits := htwins.sound.threaded
      have hgo := hturn (chain_of_unlinked hrun₂ htwins.coherent.guarded.store.linked
        (htwins.unlinked id slot))
      rw [answered_ofSlot] at hgo
      have hcycles : (e₂.left t₂).context.cycles.toInt = t₁.context.cycles.toInt := by
        rw [← htwins.context]
        rfl
      have hlt₂ : (e₂.left t₂).context.cycles.toInt < x.context.cycles.toInt := by
        rw [hcycles, hx]
        exact hlt
      cases hT : (t₁.world.code.arena.successor id slot).isTrampoline with
      | true =>
          refine ⟨.ofSlot slot, t₁, _, chain_of_unlinked hrun₁ hg₁.store.linked
            (hthreads.homed id slot hT), .last hgo hlt₂, ?_⟩
          have hsize : id.number < UInt32.size :=
            Nat.lt_trans (Arena.lt_capacity_of_isLive hlive) hg₁.store.ids
          rw [answered_ofSlot, hrunning, BlockId.ofWord_word hsize]
          refine .go htwins ?_ hlt
          rintro p ⟨⟩
          exact ⟨rfl, hexits⟩
      | false =>
          rw [chain_of_linked hrun₁ hg₁.store.arranged hg₁.store.linked hT]
          obtain ⟨next, hnext, _⟩ := hthreads.thread id slot hT
          by_cases hc : t₁.context.cycles ≤ 0
          · -- The block it leads to returns at once, and the other dispatcher ends.
            obtain ⟨m, rfl⟩ : ∃ m, n = m + 1 := Nat.exists_eq_add_one.mpr (by omega)
            obtain ⟨u, hchain, hcu, hwu⟩ :=
              chain_of_exhausted hg₁ (hg₁.store.isLive_of_source hnext) hc
            have hleft : e₁.left u = e₁.left t₁ := by rw [left, left, hcu, hwu]
            refine ⟨.cycles, u, _, hchain, .last hgo hlt₂, ?_⟩
            rw [hleft]
            exact .go htwins (awaits_none _) hlt
          · have hc := not_exhausted_iff.mp hc
            obtain ⟨code, u, τ, hchain, hto, hm⟩ := ih htwins.countHits howned
              (htwins.fetch_successor hT hexits) rfl hcycles hnext hc (by omega)
            exact ⟨code, u, τ, hchain, .more hgo hlt₂ (by rw [hcycles]; exact hc) hto,
              hm.mono (Int.le_of_lt hlt)⟩

/-! ## Runs -/

/-- **A turn does what some turns do where no exit is linked,** or fails as they
do. -/
theorem Twins.turn {e₁ e₂ : Emulator} (h : Twins e₁ e₂) (i : Interpreter σ) (s : σ)
    {pending : Option PendingLink} (ha : e₁.Awaits pending) (hpos : 0 < e₁.context.cycles.toInt) :
    (∃ fault, e₁.turn i s pending = .error fault ∧ e₂.turn i s none = .error fault) ∨
      ∃ t τ, e₁.turn i s pending = .ok t ∧ e₂.TurnsTo i s τ ∧
        Matches e₁.context.cycles.toInt t τ := by
  have hcycles : e₂.context.cycles.toInt = e₁.context.cycles.toInt := by rw [h.context]
  have hcpu : e₂.cpu = e₁.cpu := congrArg Context.cpu h.context.symm
  rcases h.fetch_cases e₁.cpu.eip with ⟨h₁, h₂⟩ | ⟨f, id, x₁, x₂, h₁, h₂, hid, hf₁, hf₂, hx⟩ |
    ⟨fault, h₁, h₂⟩
  · have hm : Matches e₁.context.cycles.toInt (turn.interpreted i s e₁) (turn.interpreted i s e₂) :=
      h.interpreted i s (by simp only [pageSize]; omega) (Int.le_refl _)
    exact Or.inr ⟨_, _, turn_of_interpret i s h₁ rfl,
      .last (turn_of_interpret i s (hcpu ▸ h₂) rfl) (hcycles ▸ hm.cycles), hm⟩
  · obtain ⟨a, hsettle, hsound, hsource⟩ := h.sound.settle ha hf₁
    obtain ⟨src, hb, heip⟩ := hf₁.source
    have htwins : Twins (x₁.modifyArena fun _ => a) x₂ :=
      ⟨hsound, hx.coherent, hx.unlinked, (forget_settle hsettle).trans hx.forget⟩
    have hc₁ : x₁.context = e₁.context := hf₁.context
    have hstore := hsound.coherent.guarded.store
    have hb : a.sourceOf id = some src := hsource.trans hb
    have hentered : Twins ((x₁.modifyArena fun _ => a).left ((x₁.modifyArena fun _ => a).entered id))
        (x₂.left (x₂.entered id)) := htwins.modifyContext fun c =>
        { c with running := noBlock, owner := false }
    obtain ⟨code, t, τ, hchain, hto, hm⟩ := hentered.chain i s (x₁.context.cycles.toInt.toNat + 1)
      (owned_entered _ id) (hcpu ▸ h₂) hid (hcycles.trans (by rw [← hc₁]; rfl)) hb
      (by rw [← hc₁] at hpos; exact hpos) (Nat.lt_succ_self _)
    refine Or.inr ⟨_, τ, turn_eq i s h₁ hid hsettle
      (execute_of_chain hsound.coherent (hstore.isLive_of_source hb) hchain), hto, ?_⟩
    rw [← hc₁]
    exact hm
  · exact Or.inl ⟨fault, turn_of_error i s h₁, turn_of_error i s (hcpu ▸ h₂)⟩

def Turn.goOn (t : Turn σ)
    (next : σ → Emulator → Option PendingLink → Except Fault (RunEnd × σ × Emulator)) :
    Except Fault (RunEnd × σ × Emulator) :=
  match t with
  | .go s e pending => next s e pending
  | .stop exit s e => .ok (exit, s, e)

section Run

variable {i : Interpreter σ} {s : σ} {e e₁ e₂ : Emulator} {pending : Option PendingLink}

theorem turns_of_exhausted (h : e.context.cycles ≤ 0) (fuel : Nat) :
    turns i fuel s e pending = .ok (.outOfCycles, s, e) := by
  cases fuel with
  | zero => rfl
  | succ fuel => exact if_pos h

theorem turnsUnlinked_of_exhausted (h : e.context.cycles ≤ 0) (fuel : Nat) :
    turnsUnlinked i fuel s e = .ok (.outOfCycles, s, e) := by
  cases fuel with
  | zero => rfl
  | succ fuel => exact if_pos h

theorem turns_succ (h : 0 < e.context.cycles.toInt) (fuel : Nat) :
    turns i (fuel + 1) s e pending =
      e.turn i s pending >>= fun t => t.goOn (turns i fuel) := by
  refine (if_neg (not_exhausted_iff.mpr h)).trans
    (congrArg (e.turn i s pending >>= ·) (funext fun t => ?_))
  cases t <;> rfl

theorem turnsUnlinked_succ (h : 0 < e.context.cycles.toInt) (fuel : Nat) :
    turnsUnlinked i (fuel + 1) s e =
      e.turn i s none >>= fun t => t.goOn fun s e _ => turnsUnlinked i fuel s e := by
  refine (if_neg (not_exhausted_iff.mpr h)).trans
    (congrArg (e.turn i s none >>= ·) (funext fun t => ?_))
  cases t <;> rfl

/-- Turns one after the other are part of a run. -/
theorem TurnsTo.turnsUnlinked {t : Turn σ} (h : e.TurnsTo i s t) {fuel : Nat}
    (hpos : 0 < e.context.cycles.toInt) (hfuel : e.context.cycles.toInt.toNat ≤ fuel) :
    ∃ rest, t.emulator.context.cycles.toInt.toNat ≤ rest ∧ Emulator.turnsUnlinked i fuel s e =
      t.goOn fun s e _ => Emulator.turnsUnlinked i rest s e := by
  induction h generalizing fuel with
  | @last s e t ht hlt =>
      obtain ⟨fuel, rfl⟩ : ∃ m, fuel = m + 1 := Nat.exists_eq_add_one.mpr (by omega)
      refine ⟨fuel, by omega, ?_⟩
      rw [turnsUnlinked_succ hpos, ht]
      rfl
  | @more s s' e e' dropped t ht hlt hc _ ih =>
      obtain ⟨fuel, rfl⟩ : ∃ m, fuel = m + 1 := Nat.exists_eq_add_one.mpr (by omega)
      obtain ⟨rest, hrest, heq⟩ := ih hc (show e'.context.cycles.toInt.toNat ≤ fuel by omega)
      refine ⟨rest, hrest, ?_⟩
      rw [turnsUnlinked_succ hpos, ht]
      exact heq

/-- **Runs end alike,** by induction on the turns of the one that links. -/
theorem Twins.turns (fuel : Nat) {fuel' : Nat} (h : Twins e₁ e₂) (ha : e₁.Awaits pending)
    (hfuel : e₁.context.cycles.toInt.toNat ≤ fuel)
    (hfuel' : e₁.context.cycles.toInt.toNat ≤ fuel') :
    (Emulator.turns i fuel s e₁ pending).map forgetEnd =
      (turnsUnlinked i fuel' s e₂).map forgetEnd := by
  induction fuel generalizing fuel' e₁ e₂ s pending with
  | zero =>
      have hc : e₁.context.cycles ≤ 0 :=
        Int32.le_iff_toInt_le.mpr (Int.toNat_eq_zero.mp (Nat.le_zero.mp hfuel))
      rw [turns_of_exhausted hc, turnsUnlinked_of_exhausted (h.context ▸ hc)]
      exact congrArg (fun x => Except.ok (RunEnd.outOfCycles, s, x)) h.forget
  | succ fuel ih =>
      by_cases hc : e₁.context.cycles ≤ 0
      · rw [turns_of_exhausted hc, turnsUnlinked_of_exhausted (h.context ▸ hc)]
        exact congrArg (fun x => Except.ok (RunEnd.outOfCycles, s, x)) h.forget
      have hpos := not_exhausted_iff.mp hc
      rw [turns_succ hpos]
      rcases h.turn i s ha hpos with ⟨fault, h₁, h₂⟩ | ⟨t, τ, h₁, hto, hm⟩
      · obtain ⟨fuel', rfl⟩ : ∃ m, fuel' = m + 1 := Nat.exists_eq_add_one.mpr (by omega)
        rw [turnsUnlinked_succ (h.context ▸ hpos), h₁, h₂]
        rfl
      · rw [h.context] at hpos hfuel'
        obtain ⟨rest, hrest, heq⟩ := hto.turnsUnlinked hpos hfuel'
        rw [h₁, heq]
        cases hm with
        | @go s x₁ x₂ pending _ hx ha hlt =>
            refine ih hx ha (by omega) ?_
            rw [hx.context]
            exact hrest
        | @stop exit s x₁ x₂ hx _ => exact congrArg (fun x => Except.ok (exit, s, x)) hx.forget

end Run

/-- **Linking is not observed.**  After any actions but links made by hand, a
run and one that goes back to the dispatcher at every exit, from the same
emulator with no exit linked, end alike or fail alike: but for links, rings and
the counters that tell of them, everything is the same. -/
theorem unlinked_of_reached {e : Emulator} (h : Reached (fun a => a.isLink = false) e)
    (i : Interpreter σ) (s : σ) (cycles : Int32) :
    (e.run i s cycles).map forgetEnd = (e.cut.runUnlinked i s cycles).map forgetEnd :=
  ((Twins.cut h.sound).modifyContext fun c => { c with cycles }).turns _ (awaits_none _)
    (Nat.le_refl _) (Nat.le_refl _)

/-- A run through a loop whose block is linked to itself; without the link it
takes more look-ups. -/
theorem unlinked_of_linked_loop :
    ∃ e, Reached (fun a => a.isLink = false) e ∧ e.arena.successor ⟨2⟩ .first = ⟨2⟩ ∧
      ∃ r r', e.run stepper () 7 = .ok r ∧ e.cut.runUnlinked stepper () 7 = .ok r' ∧
        r.2.2.arena.counters.hits < r'.2.2.arena.counters.hits ∧ forgetEnd r = forgetEnd r' := by
  obtain ⟨e, he, htest⟩ := exists_of_succeeds
    (x := zeroed.performAll [.load 0 [0x40, 0xEB, 0xFD], .run stepper () 5])
    (p := fun e => e.arena.successor ⟨2⟩ .first = ⟨2⟩ &&
      succeeds (e.run stepper () 7) fun r => succeeds (e.cut.runUnlinked stepper () 7) fun r' =>
        r.2.2.arena.counters.hits < r'.2.2.arena.counters.hits)
    (by decide +kernel)
  rw [Bool.and_eq_true, decide_eq_true_iff] at htest
  have h : Reached (fun a => a.isLink = false) e :=
    Reached.performAll (by decide) (.new unwatched_zeroed new_zeroed) he
  obtain ⟨r, hr, htest'⟩ := exists_of_succeeds htest.2
  obtain ⟨r', hr', hhits⟩ := exists_of_succeeds htest'
  have hsame := unlinked_of_reached h stepper () 7
  rw [hr, hr'] at hsame
  exact ⟨e, h, htest.1, r, r', hr, hr', of_decide_eq_true hhits, Except.ok.inj hsame⟩

end Emulator

end Recompiler
