import Recompiler.Proofs.Emulator.History

/-!
# What memory holds

Every access of a host program reaches memory through the watches, which drop
writes that change nothing, look at the marks of a page once for a whole span, and
tear compiled code down before a byte is stored.  None of that is seen in what
memory holds: it is what the same accesses leave in memory by itself, where each is
a program over the bus that moves its bytes one by one.
-/

namespace Recompiler

/-! ## Memory by itself -/

namespace Memory

theorem bare_write (m : Memory) (addr : UInt32) (v : UInt8) :
    (m.write addr v).bare = m.bare.write addr v := by
  rw [write, write, isRom_bare]
  split
  · rfl
  · exact bare_store m addr v

theorem bare_writeWidth (m : Memory) (width : Width) (addr value : UInt32) :
    (m.writeWidth width addr value).bare = m.bare.writeWidth width addr value := by
  have hstep (m : Memory) (i : Nat) : (m.write (addr + i.toUInt32) (byteAt value i)).bare =
      m.bare.write (addr + i.toUInt32) (byteAt value i) := bare_write ..
  exact bare_foldl hstep (List.range width.bytes) m

/-- What a program over the bus does has nothing to do with watches. -/
theorem run_bare {α : Type} (p : BusProgram α) (m : Memory) :
    m.bare.run p = ((m.run p).1, (m.run p).2.bare) := by
  simp only [run]
  induction p generalizing m with
  | done a => simp only [BusProgram.run]
  | read addr next ih =>
      simp only [BusProgram.run, read_bare]
      exact ih (m.read addr) m
  | write width addr value next ih =>
      simp only [BusProgram.run, ← bare_writeWidth]
      exact ih (m.writeWidth width addr value)

end Memory

theorem BusProgram.run_readWidth {σ : Type} (get : σ → UInt32 → UInt8)
    (put : σ → Width → UInt32 → UInt32 → σ) (width : Width) (addr : UInt32) (s : σ) :
    (BusProgram.readWidth width addr).run get put s =
      (ofBytes ((List.range width.bytes).map fun i => get s (addr + i.toUInt32)), s) := by
  cases width <;> rfl

namespace Emulator

/-! ## Accesses -/

/-- An access of a host program to guest memory. -/
inductive Access where
  | write (width : Width) (addr value : UInt32)
  | writeChecked (width : Width) (addr value : UInt32)
  | busWrite (width : Width) (addr value : UInt32)
  | load (addr : UInt32) (bytes : List UInt8)

namespace Access

def action : Access → Action
  | write width addr value => .write width addr value
  | writeChecked width addr value => .writeChecked width addr value
  | busWrite width addr value => .busWrite width addr value
  | load addr bytes => .load addr bytes

/-- Bytes written one after the other; addresses wrap. -/
def bytesProgram (addr : UInt32) : List UInt8 → BusProgram Unit
  | [] => pure ()
  | b :: rest => do
      BusProgram.store .byte addr b.toUInt32
      bytesProgram (addr + 1) rest

def program : Access → BusProgram Unit
  | write width addr value | writeChecked width addr value | busWrite width addr value =>
      BusProgram.store width addr value
  | load addr bytes => bytesProgram addr bytes

def programAll : List Access → BusProgram Unit
  | [] => pure ()
  | a :: rest => do
      a.program
      programAll rest

end Access

/-- Whether an action has no business with what memory holds. -/
def Action.keepsMemory : Action → Bool
  | .fetch _ | .invalidate _ _ | .discard _ | .link _ _ _ | .flush | .restore _ | .setCpu _
  | .setCycles _ => true
  | _ => false

/-! ## One access, and several -/

theorem bare_load (e : Emulator) (addr : UInt32) (bytes : List UInt8) :
    (e.load addr bytes).memory.bare =
      (e.memory.bare.run (Access.bytesProgram addr bytes)).2 := by
  induction bytes generalizing e addr with
  | nil => rfl
  | cons b rest ih =>
      have hwrite : (e.write .byte addr b.toUInt32).2.memory.bare =
          e.memory.bare.writeWidth .byte addr b.toUInt32 :=
        e.guarded.bare_write .byte addr b.toUInt32 e.running?
      rw [load, ih, hwrite]
      rfl

theorem attempt_access (e : Emulator) (a : Access) :
    ∃ e', e.attempt a.action = .ok e' ∧ e'.memory.bare = (e.memory.bare.run a.program).2 := by
  cases a with
  | write width addr value | writeChecked width addr value =>
      exact ⟨_, rfl, e.guarded.bare_write width addr value e.running?⟩
  | busWrite width addr value => exact ⟨_, rfl, e.guarded.bare_write width addr value none⟩
  | load addr bytes => exact ⟨_, rfl, e.bare_load addr bytes⟩

theorem performAll_access {e : Emulator} (h : e.Coherent) (as : List Access) :
    ∃ e', e.performAll (as.map Access.action) = .ok e' ∧
      e'.memory.bare = (e.memory.bare.run (Access.programAll as)).2 := by
  induction as generalizing e with
  | nil => exact ⟨e, rfl, rfl⟩
  | cons a rest ih =>
      obtain ⟨e₁, hattempt, hbare⟩ := e.attempt_access a
      obtain ⟨e', hrest, hall⟩ := ih (h.attempt hattempt)
      refine ⟨e', ?_, ?_⟩
      · rw [List.map_cons, performAll, List.foldlM_cons, h.perform_eq hattempt]
        exact hrest
      · have hthen := BusProgram.run_bind Memory.read Memory.writeWidth a.program
          (fun _ => Access.programAll rest) e.memory.bare
        rw [hall, hbare]
        exact congrArg Prod.snd hthen.symm

/-! ## What keeps memory as it is -/

theorem bare_flush (g : GuardedMemory) : g.flush.memory.bare = g.memory.bare :=
  List.foldlRecOn (motive := fun g' : GuardedMemory => g'.memory.bare = g.memory.bare) _ _ rfl
    fun g' hg' id _ => (GuardedMemory.Coherent.bare_clearWatch g' id).trans hg'

theorem bare_of_keepsMemory {e e' : Emulator} (h : e.Coherent) {a : Action}
    (ha : a.keepsMemory = true) (hp : e.perform a = .ok e') :
    e'.memory.bare = e.memory.bare := by
  replace hp := (perform_eq_ok_iff.mp hp).1
  cases a with
  | fetch eip =>
      obtain ⟨⟨f, e₁⟩, hf, hp⟩ := bind_eq_ok_iff.mp hp
      cases hp
      rcases fetch_spec h eip with ⟨hi, _⟩ | ⟨_, _, _, hok, _, hfound, _⟩ | herr
      · rw [hi] at hf
        cases hf
        rfl
      · rw [hok] at hf
        cases hf
        exact hfound.bare
      · rw [herr] at hf
        cases hf
  | invalidate start stop =>
      cases hp
      exact congrArg Memory.bare (e.guarded.memory_invalidate start stop e.running?)
  | discard id =>
      obtain ⟨code, _, hp⟩ := bind_eq_ok_iff.mp hp
      cases hp
      rfl
  | link source slot target =>
      obtain ⟨arena, _, hp⟩ := bind_eq_ok_iff.mp hp
      cases hp
      rfl
  | flush | restore _ =>
      cases hp
      exact bare_flush e.guarded
  | setCpu _ | setCycles _ =>
      cases hp
      rfl
  | execute _ | run _ _ _ | write _ _ _ | writeChecked _ _ _ | busWrite _ _ _ | load _ _ =>
      cases ha

/-! ## The result -/

/-- **Watching memory never changes what it holds.**  After any actions, let `m` be a memory
of the same bytes and marks that nothing watches.  Any accesses succeed, whatever their widths,
addresses and values; memory then holds byte for byte what the same accesses leave in `m`, and
words of every width read the same at every address, directly, over the bus and in `m`.  What
is done to compiled code alone changes no byte. -/
theorem contents_of_reached {allowed : Action → Prop} {e : Emulator} (h : Reached allowed e)
    {m : Memory} (hm : m.bare = e.memory.bare) (as : List Access) :
    (∃ e', e.performAll (as.map Access.action) = .ok e' ∧
      (∀ page, e'.memory.bytes? page = (m.run (Access.programAll as)).2.bytes? page) ∧
      ∀ width addr,
        e'.memory.readWidth width addr =
          ((m.run (Access.programAll as)).2.run (BusProgram.readWidth width addr)).1 ∧
        (e'.guarded.run (BusProgram.readWidth width addr)).1 =
          ((m.run (Access.programAll as)).2.run (BusProgram.readWidth width addr)).1) ∧
    ∀ a e', a.keepsMemory = true → e.perform a = .ok e' →
      ∀ page, e'.memory.bytes? page = e.memory.bytes? page := by
  constructor
  · obtain ⟨e', hperform, hbare⟩ := performAll_access h.coherent as
    have hsame : e'.memory.bare = (m.run (Access.programAll as)).2.bare := by
      rw [hbare, ← hm, Memory.run_bare]
    refine ⟨e', hperform, fun page => ?_, fun width addr => ?_⟩
    · rw [← Memory.bytes?_bare, hsame, Memory.bytes?_bare]
    · have hread : ((m.run (Access.programAll as)).2.run (BusProgram.readWidth width addr)).1 =
          e'.memory.readWidth width addr := by
        rw [Memory.run, BusProgram.run_readWidth, ← Memory.readWidth_bare e'.memory, hsame,
          Memory.readWidth_bare]
        rfl
      refine ⟨hread.symm, ?_⟩
      rw [hread, GuardedMemory.run, BusProgram.run_readWidth]
      rfl
  · intro a e' ha hp page
    rw [← Memory.bytes?_bare, bare_of_keepsMemory h.coherent ha hp, Memory.bytes?_bare]

def zeroedAndRom : Memory := ⟨#[.zero, { Page.zero with rom := true }]⟩

/-- Accesses across a page boundary into ROM, to an address where code was compiled, and past
the last address. -/
def someAccesses : List Access :=
  [.write .long 0xFFE 0x11223344, .busWrite .byte 0 0xC3, .load 0xFFFFFFFF [1, 2]]

theorem contents_of_compiled_page :
    ∃ e e', Reached (fun _ => True) e ∧ e.arena.isLive ⟨2⟩ = true ∧
      zeroedAndRom.bare = e.memory.bare ∧
      e.performAll (someAccesses.map Access.action) = .ok e' ∧
      e'.memory.readWidth .long 0xFFE = 0x3344 ∧
      (∀ page, e'.memory.bytes? page =
        (zeroedAndRom.run (Access.programAll someAccesses)).2.bytes? page) ∧
      Action.flush.keepsMemory = true ∧ e.perform .flush = .ok e.flush ∧
      ∀ page, e.flush.memory.bytes? page = e.memory.bytes? page := by
  obtain ⟨e₀, hnew⟩ : ∃ e, Emulator.new .small zeroedAndRom = .ok e := ⟨_, rfl⟩
  have hunwatched : zeroedAndRom.Unwatched := by
    constructor <;> rintro (_ | _ | page) <;> rfl
  have hstart : Reached (fun _ => True) e₀ := .new hunwatched hnew
  obtain ⟨e, hfetch, hlive⟩ := exists_of_succeeds (x := e₀.perform (.fetch 0))
    (p := fun e => e.arena.isLive ⟨2⟩ &&
      succeeds (e.performAll (someAccesses.map Access.action)) fun e' =>
        e'.memory.readWidth .long 0xFFE == 0x3344)
    (by cases hnew; decide +kernel)
  rw [Bool.and_eq_true] at hlive
  obtain ⟨e', hperform, hread⟩ := exists_of_succeeds hlive.2
  have h := hstart.perform trivial hfetch
  have hbare : zeroedAndRom.bare = e.memory.bare := by
    rw [bare_of_keepsMemory hstart.coherent rfl hfetch]
    cases hnew
    rfl
  obtain ⟨⟨e'', hagain, hbytes, _⟩, hkeeps⟩ := contents_of_reached h hbare someAccesses
  cases hperform.symm.trans hagain
  have hflush : e.perform .flush = .ok e.flush := h.coherent.perform_eq rfl
  exact ⟨e, e', h, hlive.1, hbare, hperform, beq_iff_eq.mp hread, hbytes, rfl, hflush,
    hkeeps .flush e.flush rfl hflush⟩

end Emulator

end Recompiler
