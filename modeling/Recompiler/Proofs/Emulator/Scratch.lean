import Recompiler.Proofs.Compile.Follows
import Recompiler.Proofs.Emulator.Freed

/-!
# Blocks fit their scratch space

Room for the worst instruction, the worst exit and every stub is set aside before
an instruction is taken, when neither its code nor its stub is known yet.  It is
enough: whatever a page holds, the code of a block takes no more than the scratch
space of an open block, so it is written within the region that was opened for
it, and closing the block neither meets an overrun nor lets the region grow.
-/

namespace Recompiler

/-! ## What is decoded -/

/-- The number of instructions decoded for a sequence: those compiled, and the one
that is left to the interpreter, if it stopped at one. -/
def Sequence.decoded (s : Sequence) : Nat :=
  s.instructions.length +
    match s.exit with
    | .interpret _ => 1
    | _ => 0

theorem Sequence.decoded_pos {l : Limits} (hl : l.Sufficient) (page : Vector UInt8 pageSize)
    (eip : UInt32) : 0 < (Sequence.at page l eip).decoded := by
  rw [decoded]
  cases hi : (Sequence.at page l eip).instructions with
  | nil =>
      rw [exit_at_of_nil hl hi]
      exact Nat.succ_pos _
  | cons p rest => exact Nat.lt_add_right _ (Nat.succ_pos _)

namespace Arena

/-! ## What closing leaves of a region -/

/-- A region that holds what was written to it does not grow. -/
theorem Arranged.size_of_trimmed_le {a a' : Arena} (h : a.Arranged) {id : BlockId} {written : Nat}
    (hid : id ∈ a.regions) (hfit : written ≤ (a.block id).size) (ht : Trimmed a id written a') :
    (a'.block id).size ≤ (a.block id).size := by
  cases ht with
  | stays _ => exact Nat.le_refl _
  | grows hgrow _ _ => exact absurd hfit (Nat.not_le.mpr hgrow)
  | splits rest free hfree hlt =>
      rw [(h.block_carve hid hfree _).2, if_pos rfl]
      exact Nat.le_of_lt hlt

/-- A block that fits is closed where it was opened, and in no more space. -/
theorem Arranged.region_of_close {a a' : Arena} (h : a.Arranged) {kind : BlockKind}
    {program : List Operation} {id x : BlockId} (ho : a.opened = some id)
    (hfit : a.pen.cursor - (a.block id).start ≤ (a.block id).size)
    (hc : a.close kind program = .ok (x, a')) :
    x = id ∧ (a'.block id).start = (a.block id).start ∧ (a'.block id).size ≤ (a.block id).size := by
  obtain ⟨hopened, b, ht, rfl⟩ := of_close_ok hc
  obtain rfl : id = x := Option.some.inj (ho.symm.trans hopened)
  have hid : id ∈ a.regions := (h.opened id ho).1 ▸ h.active
  have hblock := block_sealed kind program (h.region_lt_capacity hid) id
  rw [if_pos rfl] at hblock
  have hstart : ((a.sealed id kind program).block id).start = (a.block id).start := by
    rw [hblock]
    rfl
  have hsize : ((a.sealed id kind program).block id).size = (a.block id).size := by
    rw [hblock]
    rfl
  have hsealed := h.sealed kind program ho
  have hkept := hsealed.size_of_trimmed_le hid (hsize.symm ▸ hfit) ht
  obtain ⟨_, _, _, hrecord⟩ :=
    hsealed.block_of_trimmed hid ht (b := id) (h.not_free_of_region hid)
  rw [block_count, block_advance]
  exact ⟨rfl, by rw [hrecord, ← hstart], hsize ▸ hkept⟩

/-! ## Writing a block -/

/-- A program of some kind fits the open region of an arena: it is written there,
and nowhere else, and closed without an overrun. -/
structure Fits (a : Arena) (id : BlockId) (kind : BlockKind) (program : List Operation) :
    Prop where
  opened : a.opened = some id
  starts : a.pen.cursor = (a.block id).start
  written : ∃ b, a.emitProgram program = .ok b ∧
    b.pen.cursor = (a.block id).start + codeLength program ∧
    b.pen.cursor ≤ (a.block id).start + (a.block id).size ∧
    (∀ i, i < (a.block id).start ∨ (a.block id).start + (a.block id).size ≤ i →
      b.pen.image.read i = a.pen.image.read i) ∧
    (∀ x c, b.close kind program = .ok (x, c) →
      x = id ∧ (c.block id).start = (a.block id).start ∧ (c.block id).size ≤ (a.block id).size) ∧
    ∀ f, b.close kind program = .error f → f = .descriptorsExhausted a.capacity

end Arena

namespace CodeStore

theorem read_emitProgram_of_outside {a b : Arena} {program : List Operation}
    (he : a.emitProgram program = .ok b) {i : Nat} (hi : i < a.pen.cursor ∨ b.pen.cursor ≤ i) :
    b.pen.image.read i = a.pen.image.read i := by
  have hwithin : Pen.Within a.pen.cursor { a.pen with labels := [] } := Pen.within_start rfl rfl
  rw [Arena.of_checked_ok he] at hi ⊢
  exact Pen.read_emitAll_of_outside hwithin Arena.base program hi

/-- **Any block fits any region that is opened.** -/
theorem Coherent.fits {l : Limits} {s code : CodeStore} (h : s.Coherent l) (hl : l.Sufficient)
    {id : BlockId} (ho : s.openRegion = .ok (id, code)) (page : Vector UInt8 pageSize)
    (eip : UInt32) :
    code.arena.Fits id (Sequence.at page l eip).exit.kind
      ((Sequence.at page l eip).operations id) := by
  obtain ⟨_, _, _, _, hre⟩ := reopened_of_ok h.arranged ho
  obtain ⟨b, he⟩ := h.emitProgram_ok hl ho page eip
  have hstarts : code.arena.pen.cursor = (code.arena.block id).start := by
    rw [hre.pen, ← Descriptor.start_core (code.arena.block id), hre.core, if_pos rfl]
    exact (Descriptor.start_cleared _).symm
  have hcursor := Arena.cursor_emitProgram (Sequence.portable_operations _ id) he
  rw [hstarts] at hcursor
  have hblock : b.block id = code.arena.block id := by
    rw [Arena.of_checked_ok he]
    rfl
  have hopened : b.opened = some id := by
    rw [Arena.of_checked_ok he]
    exact hre.opened
  have hfit := h.written_le hl ho he
  have hend : b.pen.cursor ≤ (code.arena.block id).start + (code.arena.block id).size := by
    rw [hblock] at hfit
    omega
  refine ⟨hre.opened, hstarts, b, he, hcursor, hend, fun i hi => ?_, fun x c hc => ?_,
    fun f hf => ?_⟩
  · refine read_emitProgram_of_outside he (hi.imp (fun h1 => ?_) (Nat.le_trans hend))
    rw [hstarts]
    exact h1
  · have hclosed := (sound_emitProgram h ho he).arranged.region_of_close hopened hfit hc
    rwa [hblock] at hclosed
  · rcases h.close_ok_or hl ho he with ⟨r, hr⟩ | hr
    · rw [hr] at hf
      cases hf
    · rw [hr] at hf
      cases hf
      rw [hre.capacity]

end CodeStore

namespace Emulator

/-- **A block fits its scratch space.**  Under limits that admit blocks at all,
whatever a page holds, at least one instruction is decoded, and the code comes to
no more than the limit.  So wherever a look-up compiles a block, once its page is
under a watch, the region opened for it has that much room, and the block is
written and closed within it. -/
theorem fits_of_sufficient {l : Limits} (hinstructions : 1 ≤ l.instructions)
    (hbytes : leastBlockBytes ≤ l.codeBytes) (page : Vector UInt8 pageSize) (eip : UInt32) :
    1 ≤ (Sequence.at page l eip).decoded ∧
      (∀ id, codeLength ((Sequence.at page l eip).operations id) ≤ l.codeBytes) ∧
      ∀ (e : Emulator) (watch : WatchId) (g : GuardedMemory), Visited e → e.limits = l →
        e.guarded.watchPage (pageOf eip) = .ok (some watch, g) →
        ∃ id code, g.code.openRegion = .ok (id, code) ∧
          l.codeBytes ≤ (code.arena.block id).size ∧
          code.arena.Fits id (Sequence.at page l eip).exit.kind
            ((Sequence.at page l eip).operations id) := by
  have hl : l.Sufficient := ⟨hinstructions, hbytes⟩
  refine ⟨Sequence.decoded_pos hl page eip, codeLength_operations_le hl page eip, ?_⟩
  rintro e watch g hv rfl hw
  have hg := (hv.coherent.guarded.of_watchPage_ok hw).coherent
  obtain ⟨id, code, ho⟩ := hg.store.openRegion_ok
  obtain ⟨_, _, _, _, hre⟩ := CodeStore.reopened_of_ok hg.store.arranged ho
  obtain ⟨_, _, hroom⟩ := (CodeStore.sound_openRegion hg.store ho).arranged.opened id hre.opened
  rw [hre.blockBytes, hg.store.room] at hroom
  exact ⟨id, code, ho, hroom, hg.store.fits hl ho page eip⟩

/-- A page of pushes, each with a stub of its own, under the least limits: two fit,
and the third is not taken. -/
theorem fits_of_pushes :
    let page : Vector UInt8 pageSize := Vector.replicate pageSize 0x50
    let sequence := Sequence.at page zeroed.limits 0
    zeroed.limits = ⟨32, leastBlockBytes, .ia32⟩ ∧ sequence.decoded = 2 ∧ sequence.exit = .limit 2 ∧
      (∀ id, codeLength (sequence.operations id) ≤ leastBlockBytes) ∧
      ∃ watch g id code, zeroed.guarded.watchPage 0 = .ok (some watch, g) ∧
        g.code.openRegion = .ok (id, code) ∧ leastBlockBytes ≤ (code.arena.block id).size ∧
        code.arena.Fits id sequence.exit.kind (sequence.operations id) := by
  intro page sequence
  have hv : Visited zeroed := .new unwatched_zeroed new_zeroed
  obtain ⟨watch, g, hw, -⟩ := GuardedMemory.Coherent.watchPage hv.coherent.guarded
    (show 0 < zeroed.guarded.memory.pageCount by decide) rfl
  obtain ⟨-, hlength, hopens⟩ :=
    fits_of_sufficient (l := zeroed.limits) (by decide) (by decide) page 0
  obtain ⟨id, code, ho, hroom, hfits⟩ := hopens zeroed watch g hv rfl hw
  exact ⟨rfl, by decide +kernel, by decide +kernel, hlength, watch, g, id, code, hw, ho, hroom,
    hfits⟩

end Emulator

end Recompiler
