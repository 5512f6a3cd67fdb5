import Recompiler.Proofs.Emulator.Lifetime
import Recompiler.Proofs.Guarded.Flush
import Recompiler.Proofs.Guarded.Rewrites

/-!
# All compiled code is discarded

Whatever was done before, the loop that clears the oldest watch comes to an end, and
then no code is left, and no trace of any: no watch is in use, no page is flagged, no
exit is linked, and nothing is refused for what was rewritten before.  Guest state,
memory and the division of the arena are what they were.
-/

namespace Recompiler

namespace Emulator

/-! ## What is left -/

/-- An emulator once all compiled code is discarded. -/
structure Flushed (e e' : Emulator) : Prop where
  live : ∀ b, e'.arena.isLive b = false
  source : ∀ b, e'.arena.sourceOf b = none
  exit : ∀ b s, e'.arena.successor b s = .trampoline s ∧
    e'.arena.slotPosition b s = trampolinePosition s
  ring : ∀ b, (e'.arena.block b).ring = .empty
  used : e'.watches.used = []
  nodup : e'.watches.free.Nodup
  free : ∀ id, id ∈ e'.watches.free ↔ id.number < e.watches.capacity
  fresh : ∀ id ∈ e'.watches.free, e'.watches.watch id = .fresh 0 e.settings.releaseDelay.toNat
  unwatched : ∀ page, e'.memory.watch? page = none ∧ (e'.memory.flags page).testBit 2 = false
  /-- Settings, CPU and cycle budget are those of before. -/
  settings : e'.settings = e.settings
  context : e'.context = e.context
  /-- And so are memory and its marks, but for watches. -/
  bytes : ∀ page, e'.memory.bytes? page = e.memory.bytes? page
  rom : ∀ page, e'.memory.isRom page = e.memory.isRom page
  noCode : ∀ page, e'.memory.isNoCode page = e.memory.isNoCode page
  /-- And so is the division of the arena, with the place to write to, the descriptors not
  in use, and all counters. -/
  regions : e'.arena.regions = e.arena.regions
  active : e'.arena.active = e.arena.active
  opened : e'.arena.opened = e.arena.opened
  unused : e'.arena.free = e.arena.free
  pen : e'.arena.pen = e.arena.pen
  counters : e'.arena.counters = e.arena.counters
  capacity : e'.arena.capacity = e.arena.capacity
  /-- And what a record says of its region, with how often code was compiled into it. -/
  generation : ∀ b, (e'.arena.block b).generation = (e.arena.block b).generation
  start : ∀ b, (e'.arena.block b).start = (e.arena.block b).start
  size : ∀ b, (e'.arena.block b).size = (e.arena.block b).size
  program : ∀ b, (e'.arena.block b).program = (e.arena.block b).program

/-- **Flushing discards everything and nothing else.** -/
theorem Pooled.flushed {e : Emulator} (h : e.Pooled) : e.Flushed e.flush := by
  have hg := h.coherent.guarded
  have hflush : e.flush.guarded = e.guarded.discarded e.settings.releaseDelay.toNat :=
    h.guarded.flush_eq
  have harena : e.flush.arena =
      { e.arena with pool := e.arena.pool.map Descriptor.vacated } := by
    rw [arena, hflush]
    rfl
  have hblock : ∀ b, e.flush.arena.block b = (e.arena.block b).vacated := hg.block_flush
  have hmemory : e.flush.memory = e.memory.bare := hg.memory_flush
  have hused : e.flush.watches.used = [] := hg.used_flush
  obtain ⟨log, hlog⟩ := (h.setGuarded h.guarded.flush).recorded
  have hordered : Watches.Ordered e.settings log e.flush.watches := hlog.ordered
  have hpool := hordered.pooled
  have hnodup := hordered.nodup
  rw [hused, List.append_nil] at hpool hnodup
  constructor
  case live => exact hg.isLive_flush
  case source => exact hg.sourceOf_flush
  case exit =>
    intro b s
    unfold Arena.successor Arena.slotPosition
    rw [hblock, Descriptor.vacated]
    cases s with
    | first => exact ⟨rfl, rfl⟩
    | second => exact ⟨rfl, rfl⟩
  case ring =>
    intro b
    rw [hblock]
    rfl
  case used => exact hused
  case nodup => exact hnodup
  case free =>
    intro id
    refine (hpool id).trans (iff_of_eq ?_)
    show (id.number < e.flush.guarded.code.watches.capacity) = _
    rw [hflush]
    exact congrArg (id.number < ·) (Array.size_replicate ..)
  case fresh => exact hordered.idle
  case unwatched =>
    intro page
    have hunwatched : e.flush.memory.Unwatched := hg.unwatched_flush
    exact ⟨hunwatched.watch page,
      (e.flush.memory.testBit_flags page).trans (hunwatched.hasCode page)⟩
  case settings | context => rfl
  case bytes =>
    intro page
    rw [hmemory, Memory.bytes?_bare]
  case rom =>
    intro page
    rw [hmemory, Memory.isRom_bare]
  case noCode =>
    intro page
    rw [hmemory, Memory.isNoCode_bare]
  case regions | active | opened | unused | pen | counters => rw [harena]
  case capacity =>
    rw [harena]
    exact Array.size_map ..
  case generation | start | size | program =>
    intro b
    rw [hblock]
    rfl

/-! ## What is refused thereafter -/

def Moment.changed : Moment → List UInt32
  | ⟨e, .write width addr value _⟩ => e.memory.changedBy width addr value
  | _ => []

theorem limit_le_of_refused {e : Emulator} {eip : UInt32} (hr : e.refused eip = true) :
    e.settings.changeLimit.toNat ≤ e.guarded.rewrites eip := by
  unfold refused at hr
  cases hid : e.memory.watch? (pageOf eip) with
  | none =>
      rw [hid] at hr
      cases hr
  | some id =>
      rw [hid] at hr
      rw [GuardedMemory.rewrites_of_watch? hid]
      exact UInt8.le_iff_toNat_le.mp (of_decide_eq_true hr)

namespace Coherent

variable {e e' : Emulator} (h : e.Coherent)

include h

theorem rewrites_fetch {eip : UInt32} {f : Fetched} (hf : e.fetch eip = .ok (f, e'))
    (a : UInt32) : e'.guarded.rewrites a ≤ e.guarded.rewrites a := by
  rcases of_fetch_ok h hf with ⟨g, rfl⟩ | ⟨watch, guarded, page, id, code, hw, hwatched, hc, rfl⟩
  · exact Nat.le_refl _
  · have hused := ((hwatched.coherent.mapped _ _).mp hwatched.watch).1
    refine Nat.le_trans (Nat.le_of_eq ?_) (h.guarded.rewrites_watchPage hw a)
    exact GuardedMemory.rewrites_congr (fun _ => rfl) fun x =>
      (hwatched.coherent.store.counts_compile hused hc x).2

/-- **An event adds to the count of a byte at most the times that it changes it.** -/
theorem rewrites_undergo {v : Event} (hv : e.undergo v = .ok e') (a : UInt32) :
    e'.guarded.rewrites a ≤
      e.guarded.rewrites a + (Moment.changed ⟨e, v⟩).count a := by
  cases v with
  | fetch eip =>
      obtain ⟨⟨f, e₁⟩, hf, hv⟩ := bind_eq_ok_iff.mp hv
      cases hv
      exact h.rewrites_fetch hf a
  | write width addr value running =>
      cases hv
      exact h.guarded.rewrites_write width addr value running a
  | invalidate start stop =>
      cases hv
      exact Nat.le_of_eq (h.guarded.rewrites_invalidateRange start stop e.running? a)
  | discard id =>
      obtain ⟨code, hd, hv⟩ := bind_eq_ok_iff.mp hv
      cases hv
      exact Nat.le_of_eq (h.guarded.rewrites_discard hd a)
  | flush =>
      cases hv
      have hnone : e.flush.guarded.rewrites a = 0 :=
        GuardedMemory.rewrites_of_unwatched (h.guarded.watch?_flush (pageOf a))
      rw [hnone]
      exact Nat.zero_le _

end Coherent

theorem Course.rewrites {e e' : Emulator} {log : List Moment} (h : Course e log e')
    (he : e.Coherent) (a : UInt32) :
    e'.guarded.rewrites a ≤ e.guarded.rewrites a + (log.flatMap Moment.changed).count a := by
  induction h with
  | refl => exact Nat.le_refl _
  | @event log e₁ e₂ v h hv ih =>
      have hstep := (h.coherent he).rewrites_undergo hv a
      rw [List.flatMap_append, List.count_append, List.flatMap_singleton]
      omega
  | context _ _ ih | count _ _ ih => exact ih
  | link _ hl ih =>
      obtain ⟨a, _, hl⟩ := bind_eq_ok_iff.mp hl
      cases hl
      exact ih

/-- **Discarding all compiled code.**  In every state the loop that clears the oldest watch
comes to an end, in one way only, and what is left then is as it should be.  Whatever
happens thereafter, the code at an address where there may be code is found or compiled
on demand, unless no descriptor is left, or the address was itself rewritten often
enough since. -/
theorem flushed_of_visited {e : Emulator} (h : Visited e) :
    (∀ ids g, e.guarded.Empties ids g ↔ ids = e.watches.used ∧ g = e.flush.guarded) ∧
    e.Flushed e.flush ∧
    (∀ eip, e.flush.refused eip = false) ∧
    (∀ as e', e.flush.performAll as = .ok e' → Course e.flush (e.flush.logAll as) e') ∧
    ∀ log e', Course e.flush log e' → ∀ eip, ¬e'.Barred eip →
      (log.flatMap Moment.changed).count eip < e'.settings.changeLimit.toNat →
      (∃ f id e'', e'.fetch eip = .ok (f, e'') ∧ f.block? = some id ∧ e'.Found eip id e'') ∨
        e'.fetch eip = .error (.descriptorsExhausted e'.arena.capacity) := by
  have hcoherent := h.coherent
  refine ⟨fun ids g => hcoherent.guarded.empties_iff, h.pooled.flushed, fun eip => ?_,
    fun as e' hp => course_performAll hp, fun log e' hcourse eip hbarred hfew => ?_⟩
  · unfold refused
    rw [(h.pooled.flushed.unwatched (pageOf eip)).1]
  have hthen := hcourse.coherent hcoherent.flush
  rcases fetch_spec hthen eip with ⟨_, hleft⟩ | ⟨f, id, e'', hok, hblock, hfound, _⟩ | herr
  · have hrefused := (hleft.resolve_left hbarred).2.2
    have hlimit := limit_le_of_refused hrefused
    have hcount := hcourse.rewrites hcoherent.flush eip
    have hnone : e.flush.guarded.rewrites eip = 0 :=
      GuardedMemory.rewrites_of_unwatched (hcoherent.guarded.watch?_flush (pageOf eip))
    omega
  · exact Or.inl ⟨f, id, e'', hok, hblock, hfound⟩
  · exact Or.inr herr

/-- Two blocks that are linked to one another, and a third, beside which an address was
rewritten again and again. -/
def entangled : List Action :=
  [.load 0 [0xEB, 0x0E], .load 0x10 [0xEB, 0xEE], .load 0x21 [0xEB, 0xDD], .fetch 0x21,
    .write .byte 0x20 1, .write .byte 0x20 2, .write .byte 0x20 3, .write .byte 0x20 4,
    .fetch 0, .fetch 0x10, .link ⟨3⟩ .first ⟨4⟩, .link ⟨4⟩ .first ⟨3⟩]

/-- All three go, and the address is refused no longer. -/
theorem flushed_of_entangled :
    ∃ e, Visited e ∧ e.arena.compiledBlocks = [⟨2⟩, ⟨3⟩, ⟨4⟩] ∧
      e.arena.successor ⟨3⟩ .first = ⟨4⟩ ∧ e.refused 0x20 = true ∧
      e.guarded.Empties [⟨0⟩] e.flush.guarded ∧ e.Flushed e.flush ∧
      e.flush.refused 0x20 = false ∧ Course e.flush [] e.flush ∧ ¬e.flush.Barred 0x20 ∧
      ((∃ f id e', e.flush.fetch 0x20 = .ok (f, e') ∧ f.block? = some id ∧
        e.flush.Found 0x20 id e') ∨
          e.flush.fetch 0x20 = .error (.descriptorsExhausted e.flush.arena.capacity)) := by
  obtain ⟨e, he, htest⟩ := exists_of_succeeds (x := zeroed.performAll entangled)
    (p := fun e => decide (e.arena.compiledBlocks = [⟨2⟩, ⟨3⟩, ⟨4⟩]) &&
      decide (e.arena.successor ⟨3⟩ .first = ⟨4⟩) && e.refused 0x20 &&
      decide (e.watches.used = [⟨0⟩]) && !decide (e.flush.Barred 0x20) &&
      decide (0 < e.flush.settings.changeLimit.toNat)) (by decide +kernel)
  simp only [Bool.and_eq_true, Bool.not_eq_true', decide_eq_true_eq, decide_eq_false_iff_not]
    at htest
  obtain ⟨⟨⟨⟨⟨hblocks, hlinked⟩, hrefused⟩, hused⟩, hbarred⟩, hlimit⟩ := htest
  have h : Reached (fun _ => True) e :=
    .performAll (fun _ _ => trivial) (.new unwatched_zeroed new_zeroed) he
  obtain ⟨hempties, hflushed, hno, _, hfinds⟩ := flushed_of_visited h.visited
  exact ⟨e, h.visited, hblocks, hlinked, hrefused, (hempties _ _).mpr ⟨hused.symm, rfl⟩, hflushed,
    hno 0x20, .refl, hbarred, hfinds [] e.flush .refl 0x20 hbarred hlimit⟩

end Emulator

end Recompiler
