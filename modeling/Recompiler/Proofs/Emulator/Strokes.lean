import Recompiler.Proofs.Emulator.Course
import Recompiler.Proofs.Guarded.Freed

/-!
# Writes one page at a time

A write over the edge of a page is carried out byte by byte.  A log may tell of the
bytes instead: the emulator goes the same course, and every write on it stays within
a page.
-/

namespace Recompiler

namespace Emulator

open GuardedMemory (crossesPage)

namespace Moment

def within : Moment → Bool
  | ⟨_, .write width addr _ _⟩ => !crossesPage width addr
  | _ => true

/-- An event with a write over the edge of a page taken apart into its bytes. -/
def strokes : Moment → List Moment
  | ⟨e, .write width addr value running⟩ =>
      if crossesPage width addr then
        (List.range width.bytes).map fun n =>
          ⟨{ e with guarded := (e.guarded.writeBytes addr value running n).2 },
            .write .byte (addr + n.toUInt32) (byteAt value n).toUInt32 running⟩
      else [⟨e, .write width addr value running⟩]
  | m => [m]

theorem within_of_mem_strokes {m x : Moment} (hx : x ∈ m.strokes) : x.within = true := by
  obtain ⟨e, v⟩ := m
  cases v with
  | write width addr value running =>
      unfold strokes at hx
      simp only at hx
      split at hx
      · obtain ⟨n, _, rfl⟩ := List.mem_map.mp hx
        show (!crossesPage .byte _) = true
        rw [GuardedMemory.crossesPage_byte]
        rfl
      · next hc =>
          rw [List.mem_singleton.mp hx]
          show (!crossesPage width addr) = true
          rw [eq_false_of_ne_true hc]
          rfl
  | fetch _ | invalidate _ _ | discard _ | flush =>
      rw [List.mem_singleton.mp hx]
      rfl

end Moment

theorem course_bytes (e : Emulator) (addr value : UInt32) (running : Option BlockId) (n : Nat) :
    Course e ((List.range n).map fun k =>
        ⟨{ e with guarded := (e.guarded.writeBytes addr value running k).2 },
          .write .byte (addr + k.toUInt32) (byteAt value k).toUInt32 running⟩)
      { e with guarded := (e.guarded.writeBytes addr value running n).2 } := by
  induction n with
  | zero => exact .refl
  | succ n ih =>
      rw [List.range_succ, List.map_append]
      refine ih.event (congrArg Except.ok ?_)
      rw [GuardedMemory.writeBytes_succ,
        GuardedMemory.write_of_within _ (GuardedMemory.crossesPage_byte _)]

theorem course_strokes {e e' : Emulator} {v : Event} (hv : e.undergo v = .ok e') :
    Course e (Moment.strokes ⟨e, v⟩) e' := by
  cases v with
  | write width addr value running =>
      unfold Moment.strokes
      simp only
      split
      · next hc =>
          cases hv
          rw [GuardedMemory.write_of_crosses _ hc]
          exact course_bytes e addr value running width.bytes
      · exact .single hv
  | fetch _ | invalidate _ _ | discard _ | flush => exact .single hv

namespace Course

variable {e e' : Emulator} {log : List Moment}

/-- **A course may be told byte by byte** where writes leave a page. -/
theorem strokes (h : Course e log e') : Course e (log.flatMap Moment.strokes) e' := by
  induction h with
  | refl => exact .refl
  | event _ hv ih =>
      rw [List.flatMap_append, List.flatMap_singleton]
      exact ih.trans (course_strokes hv)
  | context _ context ih => exact ih.context context
  | count _ f ih => exact ih.count f
  | link _ hl ih => exact ih.link hl

/-- What comes after an event comes of what the event leaves. -/
theorem after (h : Course e log e') {before rest : List Moment} {m : Moment}
    (hlog : log = before ++ m :: rest) :
    ∃ e₁, m.state.undergo m.event = .ok e₁ ∧ Course e₁ rest e' := by
  induction h generalizing rest with
  | refl =>
      rw [eq_comm, List.append_eq_nil_iff] at hlog
      cases hlog.2
  | @event log e₁ e₂ v _ hv ih =>
      rcases List.eq_nil_or_concat rest with rfl | ⟨rest, last, rfl⟩
      · obtain ⟨rfl, hm⟩ := List.append_inj' hlog rfl
        cases hm
        exact ⟨e₂, hv, .refl⟩
      · rw [List.concat_eq_append, ← List.cons_append, ← List.append_assoc] at hlog
        obtain ⟨hfirst, hlast⟩ := List.append_inj' hlog rfl
        obtain ⟨e₃, hundergo, hrest⟩ := ih hfirst
        cases hlast
        exact ⟨e₃, hundergo, List.concat_eq_append ▸ hrest.event hv⟩
  | context _ context ih =>
      obtain ⟨e₁, hundergo, hrest⟩ := ih hlog
      exact ⟨e₁, hundergo, hrest.context context⟩
  | count _ f ih =>
      obtain ⟨e₁, hundergo, hrest⟩ := ih hlog
      exact ⟨e₁, hundergo, hrest.count f⟩
  | link _ hl ih =>
      obtain ⟨e₁, hundergo, hrest⟩ := ih hlog
      exact ⟨e₁, hundergo, hrest.link hl⟩

end Course

end Emulator

end Recompiler
