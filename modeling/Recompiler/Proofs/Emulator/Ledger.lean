import Recompiler.Proofs.Emulator.Lifetime
import Recompiler.Proofs.Guarded.Countdown
import Recompiler.Proofs.Guarded.Ledger

/-!
# The accounts of blocks

Three counters tell how many blocks were compiled, how many were evicted to make room,
and how many were invalidated.  As long as no block is discarded and no watch is taken
for another page, they tell of every block: what was compiled is live or ended in one of
the two ways, and in that way once.
-/

namespace Recompiler

namespace Emulator

/-! ## The ledger of a log -/

namespace Moment

/-- Whether an event needs a watch for a page when none is free. -/
def exhausts : Moment → Prop
  | ⟨e, .fetch eip⟩ =>
      e.compiles eip ∧ e.memory.watch? (pageOf eip) = none ∧ e.watches.free = []
  | _ => False

instance : (m : Moment) → Decidable m.exhausts
  | ⟨_, .fetch _⟩ => inferInstanceAs (Decidable (_ ∧ _))
  | ⟨_, .write ..⟩ | ⟨_, .invalidate ..⟩ | ⟨_, .discard _⟩ | ⟨_, .flush⟩ =>
      inferInstanceAs (Decidable False)

/-- The live blocks that an event ends. -/
def ended (m : Moment) : List BlockId := m.state.arena.compiledBlocks.filter fun b => m.ends b

/-- What an event enters: a look-up that compiles evicts what lies where the block will;
a write or the invalidation of a range invalidates. -/
def entries (m : Moment) : List Entry :=
  match m.event with
  | .fetch eip =>
      if m.state.compiles eip then
        m.state.arena.evictions m.state.arena.overwritten ++ [⟨.compiled, m.state.arena.active⟩]
      else []
  | .write _ _ _ _ | .invalidate _ _ => m.ended.map (Entry.mk .invalidated)
  | .discard _ | .flush => []

end Moment

def ledger (log : List Moment) : List Entry := log.flatMap Moment.entries

theorem ledger_concat (log : List Moment) (m : Moment) :
    ledger (log ++ [m]) = ledger log ++ m.entries := by
  rw [ledger, List.flatMap_append, List.flatMap_singleton, ← ledger]

/-! ## One event -/

namespace Coherent

variable {e e' : Emulator} (h : e.Coherent)

include h

theorem mem_compiledBlocks {b : BlockId} :
    b ∈ e.arena.compiledBlocks ↔ e.arena.isLive b = true :=
  h.guarded.store.arranged.mem_compiledBlocks h.guarded.store.linked

theorem nodup_ended {m : Moment} (hm : m.state = e) : m.ended.Nodup := by
  subst hm
  exact h.guarded.store.arranged.nodup_compiledBlocks.filter _

theorem mem_ended {m : Moment} (hm : m.state = e) {P : Source → Prop}
    (hends : ∀ b, m.ends b ↔ ∃ src, e.arena.sourceOf b = some src ∧ P src) (b : BlockId) :
    b ∈ m.ended ↔ ∃ src, e.arena.sourceOf b = some src ∧ P src := by
  subst hm
  rw [Moment.ended, List.mem_filter, decide_eq_true_iff, hends, h.mem_compiledBlocks]
  refine and_iff_right_of_imp ?_
  rintro ⟨src, hs, _⟩
  exact h.guarded.store.isLive_of_source hs

/-- **A look-up enters the block that it compiles,** after those that it overwrites. -/
theorem books_fetch {eip : UInt32} {f : Fetched} (hf : e.fetch eip = .ok (f, e'))
    (hpool : ¬(⟨e, .fetch eip⟩ : Moment).exhausts) :
    e.arena.Books (⟨e, .fetch eip⟩ : Moment).entries e'.arena := by
  by_cases hc : e.compiles eip
  · obtain ⟨w, guarded, page, b, code, hw, hwatched, hcompile, rfl⟩ :=
      of_fetch_not_find? h hc.1 hc.2.1 hc.2.2 hf
    have harena : guarded.code.arena = e.arena := by
      rcases h.guarded.watchPage_cases hw with ⟨_, rfl⟩ | ⟨_, _, rfl⟩ | ⟨hnone, hfree, _⟩
      · rfl
      · rfl
      · exact absurd ⟨hc, hnone, hfree⟩ hpool
    have hbooks := hwatched.coherent.store.books_compile hcompile
    rw [harena] at hbooks
    show e.arena.Books (if e.compiles eip then _ else _) code.arena
    rw [if_pos hc]
    exact hbooks
  · show e.arena.Books (if e.compiles eip then _ else _) e'.arena
    rw [if_neg hc]
    rcases eq_or_hit_of_not_compiles hc hf with rfl | rfl
    · exact .refl _
    · refine .of_core (fun _ => rfl) fun change => ?_
      cases change with
      | compiled | evicted | invalidated => rfl

/-- **An event that counts enters what it changes.** -/
theorem books_undergo {v : Event} (hc : v.counted = true) (hv : e.undergo v = .ok e')
    (hpool : ¬(⟨e, v⟩ : Moment).exhausts) :
    e.arena.Books (⟨e, v⟩ : Moment).entries e'.arena := by
  cases v with
  | fetch eip =>
      obtain ⟨⟨f, e₁⟩, hf, hv⟩ := bind_eq_ok_iff.mp hv
      cases hv
      exact h.books_fetch hf hpool
  | write width addr value running =>
      cases hv
      exact h.guarded.books_write (h.nodup_ended rfl) width addr value running
        (h.mem_ended rfl fun _ => Iff.rfl)
  | invalidate start stop =>
      cases hv
      exact h.guarded.books_invalidateRange (h.nodup_ended rfl) start stop e.running?
        (h.mem_ended rfl fun _ => Iff.rfl)
  | discard id | flush => cases hc

end Coherent

/-! ## Along a course -/

/-- **What happens one after the other is entered in order.** -/
theorem Passage.books {e e' : Emulator} {log : List Moment} (h : Passage e log e')
    (he : e.Coherent) (hpool : ∀ m ∈ log, ¬m.exhausts) :
    e.arena.Books (ledger log) e'.arena := by
  induction h with
  | refl => exact .refl e.arena
  | @event log e₁ _ v h hc hv ih =>
      have hbefore := ih fun m hm => hpool m (List.mem_append_left _ hm)
      have hlast := hpool ⟨e₁, v⟩ (List.mem_append_right _ (List.mem_singleton_self _))
      rw [ledger_concat]
      exact hbefore.trans ((h.course.coherent he).books_undergo hc hv hlast)
  | context _ context ih => exact ih hpool
  | interpreted _ ih =>
      refine (ih hpool).extend (.of_core (fun _ => rfl) fun change => ?_)
      cases change with
      | compiled | evicted | invalidated => rfl
  | link _ hl ih =>
      obtain ⟨a, ha, hl⟩ := bind_eq_ok_iff.mp hl
      cases hl
      exact (ih hpool).extend (.link ha)

/-! ## The result -/

/-- The accounts of an emulator agree with a ledger, and balance. -/
structure Accounts (e : Emulator) (ledger : List Entry) : Prop where
  nodup : e.arena.compiledBlocks.Nodup
  live : ∀ b, b ∈ e.arena.compiledBlocks ↔ e.arena.isLive b = true
  balance : e.arena.compiledBlocks.length + e.arena.counters.evictions +
    e.arena.counters.invalidations = e.arena.counters.compiled
  counted : ∀ change, e.arena.counters.tally change = tally change ledger
  /-- What is live was compiled, and nothing was entered of it since. -/
  entered : ∀ b, e.arena.isLive b = true → ∃ before between,
    ledger = before ++ ⟨.compiled, b⟩ :: between ∧ ∀ y ∈ between, y.block ≠ b
  /-- What was compiled is live still, or the next that is entered of it is how it ended. -/
  left : ∀ before b after, ledger = before ++ ⟨.compiled, b⟩ :: after →
    (e.arena.isLive b = true ∧ ∀ y ∈ after, y.block ≠ b) ∨
      ∃ between change rest, after = between ++ ⟨change, b⟩ :: rest ∧
        (∀ y ∈ between, y.block ≠ b) ∧ (change = .evicted ∨ change = .invalidated)
  /-- What ended was compiled, and had not ended since. -/
  once : ∀ before change b after, ledger = before ++ ⟨change, b⟩ :: after →
    change = .evicted ∨ change = .invalidated → ∃ earlier between,
      before = earlier ++ ⟨.compiled, b⟩ :: between ∧ ∀ y ∈ between, y.block ≠ b
  generation : ∀ b, (e.arena.block b).generation = UInt32.ofNat (ledger.count ⟨.compiled, b⟩)

theorem of_new_ok {settings : Settings} {memory : Memory} {decoder : Decoder} {e : Emulator}
    (hn : Emulator.new settings memory decoder = .ok e) :
    settings.Valid ∧ e.arena = Arena.new settings := by
  unfold Emulator.new at hn
  split at hn
  · cases hn
  · next hobjection =>
      cases hn
      exact ⟨(Settings.objection?_eq_none_iff _).mp hobjection, rfl⟩

/-- The accounts are those of a ledger that started with nothing. -/
theorem Coherent.accounts {e : Emulator} (h : e.Coherent) {settings : Settings}
    (hs : settings.Valid) {ledger : List Entry}
    (hbooks : (Arena.new settings).Books ledger e.arena) : e.Accounts ledger := by
  have hdead : ∀ b, (Arena.new settings).isLive b = false := fun b =>
    (Arena.block_new_clean hs b).2.2.1
  have htracks : Tracks (Arena.new settings).isLive ledger e.arena.isLive := hbooks.tracks
  have hcounted : ∀ change, e.arena.counters.tally change = tally change ledger := by
    intro change
    rw [hbooks.counted]
    cases change with
    | compiled | evicted | invalidated => exact Nat.zero_add _
  have hnodup := h.guarded.store.arranged.nodup_compiledBlocks
  constructor
  case nodup => exact hnodup
  case live => exact fun b => h.mem_compiledBlocks
  case counted => exact hcounted
  case balance =>
    have hnone : ∀ b, b ∈ ([] : List BlockId) ↔ (Arena.new settings).isLive b = true := fun b => by
      simp [hdead]
    have hlength := htracks.length_add List.nodup_nil hnone hnodup fun b => h.mem_compiledBlocks
    rw [← hcounted, ← hcounted, ← hcounted, List.length_nil, Nat.zero_add] at hlength
    exact hlength
  case entered =>
    intro b hb
    refine (htracks.entered hb).resolve_left fun hstart => ?_
    cases (hdead b).symm.trans hstart.1
  case left =>
    rintro before b after rfl
    obtain ⟨live, _, hafter⟩ := htracks.of_append
    cases hafter with
    | cons _ hafter =>
        refine (hafter.left (Function.update_self ..)).imp_right ?_
        rintro ⟨between, change, rest, rfl, hnone, hc⟩
        exact ⟨between, change, rest, rfl, hnone, Change.ne_compiled_iff.mp hc⟩
  case once =>
    rintro before change b after rfl hc
    obtain ⟨live, hbefore, hafter⟩ := htracks.of_append
    cases hafter with
    | cons hlive _ =>
        have henters : (Entry.mk change b).enters = false :=
          decide_eq_false (Change.ne_compiled_iff.mpr hc)
        rw [henters] at hlive
        refine (hbefore.entered hlive).resolve_left fun hstart => ?_
        cases (hdead b).symm.trans hstart.1
  case generation =>
    intro b
    rw [hbooks.generation, Arena.generation_new hs]
    exact UInt32.zero_add _

/-- **Nothing is lost and nothing is counted twice.**  Take whatever is done to a new
emulator, but for discarding blocks by hand or all together, and let no watch be taken for
another page.  At each entry of the log and at the end, the live blocks are those that were
compiled and neither evicted nor invalidated, as many as the counters say; every block that
was compiled is live, or was ended once, in one of the two ways, before its descriptor was
used again; and the generation of a descriptor is how often it was compiled. -/
theorem accounts_of_new {settings : Settings} {memory : Memory} {decoder : Decoder}
    {e₀ e : Emulator} (hm : memory.Unwatched) (hn : Emulator.new settings memory decoder = .ok e₀)
    {as : List Action} (ha : ∀ a ∈ as, a.counted = true) (hp : e₀.performAll as = .ok e)
    (hpool : ∀ m ∈ e₀.logAll as, ¬m.exhausts) :
    e.Accounts (ledger (e₀.logAll as)) ∧
      ∀ before m after, e₀.logAll as = before ++ m :: after →
        m.state.Accounts (ledger before) := by
  have hcoherent : e₀.Coherent := .new hm hn
  obtain ⟨hs, harena⟩ := of_new_ok hn
  have haccounts : ∀ {log e'}, Passage e₀ log e' → (∀ m ∈ log, ¬m.exhausts) →
      e'.Accounts (ledger log) := by
    intro log e' hpassage hnone
    have hbooks := hpassage.books hcoherent hnone
    rw [harena] at hbooks
    exact (hpassage.course.coherent hcoherent).accounts hs hbooks
  have hpassage := passage_performAll ha hp
  refine ⟨haccounts hpassage hpool, fun before m after hlog => ?_⟩
  refine haccounts (hpassage.before hlog) fun x hx => hpool x ?_
  rw [hlog]
  exact List.mem_append_left _ hx

/-- Two blocks are compiled, one in a run, and linked; the second is freed by a write and
compiled again, for which the first is overwritten, and the descriptor of the second goes
back to the pool and is taken for what is left of the region; then the first is compiled
again, in that descriptor, and freed with a range. -/
def reused : List Action :=
  [.load 0 (List.replicate 14 0x40 ++ [0xEB, 0xFE]),
    .load 0x40 (List.replicate 14 0x40 ++ [0xEB, 0xFE]), .run stepper () 2, .fetch 0x40,
    .link ⟨2⟩ .first ⟨3⟩, .write .byte 0x41 0x90, .fetch 0x40, .fetch 0, .invalidate 0 0x3F]

/-- Four blocks are compiled, one is evicted, two are invalidated, and one is live. -/
theorem accounts_of_reused :
    ∃ e, zeroed.performAll reused = .ok e ∧
      ledger (zeroed.logAll reused) =
        [⟨.compiled, ⟨2⟩⟩, ⟨.compiled, ⟨3⟩⟩, ⟨.invalidated, ⟨3⟩⟩, ⟨.evicted, ⟨2⟩⟩,
          ⟨.compiled, ⟨2⟩⟩, ⟨.compiled, ⟨3⟩⟩, ⟨.invalidated, ⟨3⟩⟩] ∧
      e.arena.compiledBlocks = [⟨2⟩] ∧ (∀ a ∈ reused, a.counted = true) ∧
      (∀ m ∈ zeroed.logAll reused, ¬m.exhausts) ∧
      e.Accounts (ledger (zeroed.logAll reused)) := by
  obtain ⟨e, he, htest⟩ := exists_of_succeeds (x := zeroed.performAll reused)
    (p := fun e => decide (e.arena.compiledBlocks = [⟨2⟩]) &&
      decide (ledger (zeroed.logAll reused) =
        [⟨.compiled, ⟨2⟩⟩, ⟨.compiled, ⟨3⟩⟩, ⟨.invalidated, ⟨3⟩⟩, ⟨.evicted, ⟨2⟩⟩,
          ⟨.compiled, ⟨2⟩⟩, ⟨.compiled, ⟨3⟩⟩, ⟨.invalidated, ⟨3⟩⟩]) &&
      decide (∀ m ∈ zeroed.logAll reused, ¬m.exhausts)) (by decide +kernel)
  simp only [Bool.and_eq_true, decide_eq_true_eq] at htest
  obtain ⟨⟨hlive, hledger⟩, hpool⟩ := htest
  have hcounted : ∀ a ∈ reused, a.counted = true := by decide
  obtain ⟨haccounts, _⟩ := accounts_of_new unwatched_zeroed new_zeroed hcounted he hpool
  exact ⟨e, he, hledger, hlive, hcounted, hpool, haccounts⟩

end Emulator

end Recompiler
