import Recompiler.Emulator.Execute
import Recompiler.Proofs.Emulator.Freed

/-!
# Writes that change nothing

A byte written outside memory, on a page that is ROM, or over an equal byte
changes nothing, and a write all of whose bytes are such does nothing whatever:
not to memory, not to compiled code, and not to the counts by which watches are
released and code is left to the interpreter.  Over the edge of a page each byte
is for itself, so one write may have bytes of all three kinds.
-/

namespace Recompiler

namespace Memory

/-- Whether a byte written at an address leaves memory as it is: the address is
outside memory, or on a page that is ROM, or holds the byte already. -/
def Keeps (m : Memory) (addr : UInt32) (v : UInt8) : Prop :=
  m.contains addr = false ∨ m.isRom (pageOf addr) = true ∨ m.read addr = v

theorem Keeps.read_eq {m : Memory} {addr : UInt32} {v : UInt8} (h : m.Keeps addr v)
    (ha : m.accepts addr = true) : m.read addr = v := by
  rw [accepts, Bool.and_eq_true, Bool.not_eq_true'] at ha
  rcases h with hout | hrom | hread
  · rw [ha.1] at hout
    cases hout
  · rw [ha.2] at hrom
    cases hrom
  · exact hread

theorem accepts_add {m : Memory} {addr : UInt32} {i : Nat}
    (h : (offsetOf addr).val + i < pageSize) :
    m.accepts (addr + i.toUInt32) = m.accepts addr := by
  rw [accepts, accepts, pageOf_add_of_lt h]
  congr 1
  rw [Bool.eq_iff_iff, contains_iff, contains_iff, pageOf_add_of_lt h]

theorem readWidth_of_keeps {m : Memory} {width : Width} {addr value : UInt32}
    (hc : GuardedMemory.crossesPage width addr = false) (ha : m.accepts addr = true)
    (h : ∀ i < width.bytes, m.Keeps (addr + i.toUInt32) (byteAt value i)) :
    m.readWidth width addr = width.truncate value := by
  rw [readWidth, ← ofBytes_byteAt]
  congr 1
  refine List.map_congr_left fun i hi => ?_
  have hin := lt_of_not_crosses hc hi
  exact (h i (List.mem_range.mp hi)).read_eq ((accepts_add hin).trans ha)

end Memory

def WriteResult.Idle (r : WriteResult) : Prop := r = .ignored ∨ r = .unchanged

theorem WriteResult.Idle.merge {a b : WriteResult} (ha : a.Idle) (hb : b.Idle) :
    (a.merge b).Idle := by
  rcases hb with rfl | rfl
  · rcases ha with rfl | rfl
    · exact Or.inl rfl
    · exact Or.inr rfl
  · rcases ha with rfl | rfl
    · exact Or.inr rfl
    · exact Or.inr rfl

theorem WriteResult.Idle.metRunning {r : WriteResult} (h : r.Idle) : r.metRunning = false := by
  rcases h with rfl | rfl
  · rfl
  · rfl

namespace GuardedMemory

variable (g : GuardedMemory) {width : Width} {addr value : UInt32} (running : Option BlockId)

theorem writeWithin_of_keeps (hc : crossesPage width addr = false)
    (h : ∀ i < width.bytes, g.memory.Keeps (addr + i.toUInt32) (byteAt value i)) :
    ∃ outcome : WriteResult, outcome.Idle ∧
      g.writeWithin width addr value running = (outcome, g) := by
  unfold writeWithin
  simp only
  split
  · exact ⟨.ignored, Or.inl rfl, rfl⟩
  · next hin =>
      rw [Bool.or_eq_true, not_or, Bool.not_eq_true', Bool.not_eq_false, Bool.not_eq_true] at hin
      have haccepts : g.memory.accepts addr = true := by
        rw [Memory.accepts, hin.1, hin.2]
        rfl
      rw [if_pos (Memory.readWidth_of_keeps hc haccepts h)]
      exact ⟨.unchanged, Or.inr rfl, rfl⟩

/-- Each byte is written to the memory that the bytes before it left alone. -/
theorem writeBytes_of_keeps {n : Nat}
    (h : ∀ i < n, g.memory.Keeps (addr + i.toUInt32) (byteAt value i)) :
    ∃ outcome : WriteResult, outcome.Idle ∧
      g.writeBytes addr value running n = (outcome, g) := by
  induction n with
  | zero => exact ⟨.ignored, Or.inl rfl, rfl⟩
  | succ n ih =>
      obtain ⟨outcome, hidle, heq⟩ := ih fun i hi => h i (Nat.lt_succ_of_lt hi)
      have hlast : ∀ i < Width.byte.bytes, g.memory.Keeps (addr + n.toUInt32 + i.toUInt32)
          (byteAt (byteAt value n).toUInt32 i) := fun i hi => by
        obtain rfl : i = 0 := Nat.lt_one_iff.mp hi
        have hbyte : byteAt (byteAt value n).toUInt32 0 = byteAt value n :=
          UInt8.toNat_inj.mp (by simp [byteAt])
        rw [hbyte, show addr + n.toUInt32 + Nat.toUInt32 0 = addr + n.toUInt32 from
          UInt32.add_zero _]
        exact h n (Nat.lt_succ_self n)
      obtain ⟨part, hpart, hwithin⟩ := g.writeWithin_of_keeps running (crossesPage_byte _) hlast
      refine ⟨outcome.merge part, hidle.merge hpart, ?_⟩
      rw [writeBytes_succ, heq]
      simp only [hwithin]

theorem write_of_keeps
    (h : ∀ i < width.bytes, g.memory.Keeps (addr + i.toUInt32) (byteAt value i)) :
    ∃ outcome : WriteResult, outcome.Idle ∧ g.write width addr value running = (outcome, g) := by
  cases hc : crossesPage width addr with
  | false =>
      rw [write_of_within g hc]
      exact g.writeWithin_of_keeps running hc h
  | true =>
      rw [write_of_crosses g hc]
      exact g.writeBytes_of_keeps running h

end GuardedMemory

namespace Emulator

/-- **A write that leaves memory as it is has no effect at all.**  Whoever asks
for it, be it the host program, a device, the interpreter or compiled code, the
emulator is afterwards what it was, and no running block is met. -/
theorem eq_self_of_keeps (e : Emulator) (width : Width) (addr value : UInt32)
    (h : ∀ i < width.bytes, e.memory.Keeps (addr + i.toUInt32) (byteAt value i)) :
    (∀ running, ∃ outcome : WriteResult, (outcome = .ignored ∨ outcome = .unchanged) ∧
      e.guarded.write width addr value running = (outcome, e.guarded)) ∧
    (∃ outcome : WriteResult, (outcome = .ignored ∨ outcome = .unchanged) ∧
      e.write width addr value = (outcome, e)) ∧
    e.writeChecked width addr value = (false, e) ∧
    e.busWrite width addr value = e ∧
    e.guarded.run (BusProgram.store width addr value) = ((), e.guarded) ∧
    ∀ running, helpers.write e.guarded running width addr value = (e.guarded, false) := by
  have hwrite : ∀ running, ∃ outcome : WriteResult, outcome.Idle ∧
      e.guarded.write width addr value running = (outcome, e.guarded) :=
    fun running => e.guarded.write_of_keeps running h
  have hhost : ∃ outcome : WriteResult, outcome.Idle ∧
      e.write width addr value = (outcome, e) := by
    obtain ⟨outcome, hidle, heq⟩ := hwrite e.running?
    exact ⟨outcome, hidle, by rw [write, heq]⟩
  refine ⟨hwrite, hhost, ?_, ?_, ?_, fun running => ?_⟩
  · obtain ⟨outcome, hidle, heq⟩ := hhost
    rw [writeChecked, heq]
    simp only [hidle.metRunning]
  · obtain ⟨outcome, -, heq⟩ := hwrite none
    rw [busWrite, heq]
  · obtain ⟨outcome, -, heq⟩ := hwrite none
    simp only [GuardedMemory.run, BusProgram.store, BusProgram.run, heq]
  · obtain ⟨outcome, hidle, heq⟩ :=
      hwrite (if running = noBlock then none else some (BlockId.ofWord running))
    simp only [helpers, heq, hidle.metRunning]

/-- A write over the end of the address space: two bytes fall outside memory, and
two on the zeros a block was compiled from. -/
theorem eq_self_of_wrapping_write :
    ∃ e, Visited e ∧ e.arena.isLive ⟨2⟩ = true ∧
      (∃ src, e.arena.sourceOf ⟨2⟩ = some src ∧ src.meets [0]) ∧
      GuardedMemory.crossesPage .long 0xFFFFFFFE = true ∧
      (∀ i < Width.long.bytes,
        e.memory.Keeps (0xFFFFFFFE + i.toUInt32) (byteAt 0x0000BEEF i)) ∧
      e.writeChecked .long 0xFFFFFFFE 0x0000BEEF = (false, e) ∧
      e.busWrite .long 0xFFFFFFFE 0x0000BEEF = e := by
  obtain ⟨e, he, htest⟩ := exists_of_succeeds (x := zeroed.performAll [.fetch 0])
    (p := fun e => e.arena.isLive ⟨2⟩ &&
      ((e.arena.sourceOf ⟨2⟩).any fun src => src.start ≤ 0 && 0 ≤ src.stop) &&
      (List.range 4).all fun i =>
        !e.memory.contains (0xFFFFFFFE + i.toUInt32) ||
          e.memory.read (0xFFFFFFFE + i.toUInt32) = byteAt 0x0000BEEF i) (by decide +kernel)
  simp only [Bool.and_eq_true] at htest
  obtain ⟨⟨hlive, hsource⟩, hbytes⟩ := htest
  have h : Reached (fun _ => True) e :=
    .performAll (fun _ _ => trivial) (.new unwatched_zeroed new_zeroed) he
  have hkeeps : ∀ i < Width.long.bytes,
      e.memory.Keeps (0xFFFFFFFE + i.toUInt32) (byteAt 0x0000BEEF i) := fun i hi => by
    have hi := List.all_eq_true.mp hbytes i (List.mem_range.mpr hi)
    rw [Bool.or_eq_true, Bool.not_eq_true', decide_eq_true_iff] at hi
    exact hi.imp_right Or.inr
  obtain ⟨-, -, hchecked, hbus, -⟩ := eq_self_of_keeps e .long 0xFFFFFFFE 0x0000BEEF hkeeps
  refine ⟨e, h.visited, hlive, ?_, by decide, hkeeps, hchecked, hbus⟩
  obtain ⟨src, hs, hat⟩ := Option.any_eq_true .. |>.mp hsource
  rw [Bool.and_eq_true, decide_eq_true_iff, decide_eq_true_iff] at hat
  exact ⟨src, hs, 0, List.mem_cons_self, hat⟩

end Emulator

end Recompiler
