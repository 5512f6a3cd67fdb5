import Recompiler.Proofs.Compile.Extent
import Recompiler.Proofs.Emulator.Freed

/-!
# Source ranges are exact

Whatever a page holds, decoding from any of its bytes on comes to an end, and the
block covers what was decoded: from the byte it starts at to the last byte counted,
within the page.  That range is recorded with every block a look-up answers with.
-/

namespace Recompiler

namespace Emulator

def Records (e : Emulator) (id : BlockId) (eip : UInt32) (s : Sequence) : Prop :=
  ∃ src, e.arena.sourceOf id = some src ∧ src.page = pageOf eip ∧
    src.first = offsetOf eip ∧ src.last = s.last

theorem Coherent.records_of_fetch {e e' : Emulator} (h : e.Coherent) {eip : UInt32} {f : Fetched}
    {id : BlockId} (hf : e.fetch eip = .ok (f, e')) (hid : f.block? = some id)
    {page : Vector UInt8 pageSize} (hp : e.memory.bytes? (pageOf eip) = some page) :
    e'.Records id eip (Sequence.at page e.limits eip) := by
  rcases fetch_spec h eip with ⟨hi, _⟩ | ⟨f', id', e₁, hok, hid', hfound, _⟩ | herr
  · rw [hi] at hf
    cases hf
    cases hid
  · rw [hok] at hf
    cases hf
    rw [hid] at hid'
    cases hid'
    obtain ⟨src, hs, rfl⟩ := hfound.source
    obtain ⟨src', now, hnow, hup⟩ :=
      hfound.coherent.upToDate (hfound.coherent.guarded.store.isLive_of_source hs)
    obtain rfl : src' = src := Option.some.inj (hup.source.symm.trans hs)
    have hbytes : e'.memory.bytes? (pageOf src'.start) = some page := by
      rw [← Memory.bytes?_bare, hfound.bare, Memory.bytes?_bare, hp]
    obtain rfl : now = page := by
      rw [hup.start.1, hnow] at hbytes
      exact Option.some.inj hbytes
    have hlimits : e'.limits = e.limits := by rw [limits, limits, hfound.settings]
    exact ⟨src', hs, hup.start.1.symm, hup.start.2.symm, hlimits ▸ hup.last⟩
  · rw [herr] at hf
    cases hf

/-- **Source ranges are exact.**  Under limits that admit blocks at all, whatever a page
holds, decoding comes to an end, with at least one instruction; the block extends over
all that was decoded, within its page, and goes on one past it.  That is the range that
is recorded with the block when a look-up answers with it. -/
theorem spans_of_sufficient {l : Limits} (hinstructions : 1 ≤ l.instructions)
    (hbytes : leastBlockBytes ≤ l.codeBytes) (page : Vector UInt8 pageSize) (eip : UInt32) :
    (∃ ds, Spans page l eip (Sequence.at page l eip) ds) ∧
      ∀ (e e' : Emulator) (f : Fetched) (id : BlockId), Visited e → e.limits = l →
        e.memory.bytes? (pageOf eip) = some page → e.fetch eip = .ok (f, e') →
        f.block? = some id → e'.Records id eip (Sequence.at page l eip) := by
  refine ⟨Sequence.spans_at ⟨hinstructions, hbytes⟩ page eip, ?_⟩
  rintro e e' f id hv rfl hp hf hid
  exact hv.coherent.records_of_fetch hf hid hp

/-- A call at the end of a page that the page end cuts off, after another instruction: it
is decoded and counted, and left to the interpreter. -/
theorem spans_of_truncated :
    ∃ e page e' id, Visited e ∧ e.limits = ⟨32, leastBlockBytes, .ia32⟩ ∧
      e.memory.bytes? 0 = some page ∧ e.fetch 4094 = .ok (.compiled id, e') ∧
      (Sequence.at page e.limits 4094).exit = .interpret 4095 ∧
      (∃ ds, ds.length = 2 ∧ Spans page e.limits 4094 (Sequence.at page e.limits 4094) ds) ∧
      (Sequence.at page e.limits 4094).last = 4095 ∧
      e'.Records id 4094 (Sequence.at page e.limits 4094) := by
  obtain ⟨e, he, htest⟩ := exists_of_succeeds
    (x := zeroed.performAll [.load 4094 [0x90, 0xE8]])
    (p := fun e =>
      ((e.memory.bytes? 0).any fun page =>
        (Sequence.at page e.limits 4094).instructions.length = 1 ∧
          (Sequence.at page e.limits 4094).exit = .interpret 4095 ∧
          (Sequence.at page e.limits 4094).last = 4095) ∧
      succeeds (e.fetch 4094) fun r => r.1 = .compiled ⟨2⟩)
    (by decide +kernel)
  obtain ⟨hpage, hfetch⟩ := of_decide_eq_true htest
  obtain ⟨page, hp, hat⟩ := Option.any_eq_true .. |>.mp hpage
  obtain ⟨hlength, hexit, hlast⟩ := of_decide_eq_true hat
  obtain ⟨⟨f, e'⟩, hf, hnew⟩ := exists_of_succeeds hfetch
  obtain rfl : f = .compiled ⟨2⟩ := of_decide_eq_true hnew
  have hreached : Reached (fun _ => True) e :=
    .performAll (fun _ _ => trivial) (.new unwatched_zeroed new_zeroed) he
  have hlimits : e.limits = ⟨32, leastBlockBytes, .ia32⟩ := by
    obtain ⟨_, hload, hdone⟩ := bind_eq_ok_iff.mp he
    cases hdone
    rw [limits, ((Coherent.new unwatched_zeroed new_zeroed).shrinks_perform rfl hload).1]
    rfl
  have hsufficient : 1 ≤ e.limits.instructions ∧ leastBlockBytes ≤ e.limits.codeBytes := by
    rw [hlimits]
    exact ⟨by decide, Nat.le_refl _⟩
  obtain ⟨⟨ds, hspans⟩, hrecords⟩ := spans_of_sufficient hsufficient.1 hsufficient.2 page 4094
  obtain ⟨front, d, rfl, _, hfront, _⟩ := hspans.interpreted _ hexit
  refine ⟨e, page, e', ⟨2⟩, hreached.visited, hlimits, hp, hf, hexit, ⟨front ++ [d], ?_, hspans⟩,
    hlast, hrecords e e' _ _ hreached.visited rfl hp hf rfl⟩
  rw [List.length_append, ← hfront, hlength]
  rfl

end Emulator

end Recompiler
