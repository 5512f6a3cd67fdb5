import Mathlib.Data.List.Nodup
import Recompiler.Arena.Link

/-!
# Rings by place

A ring is looked at place by place.  Pushing puts an entry at the next place
and leaves the others; erasing empties places and moves nothing.  A ring that
names no exit twice keeps that through both.
-/

namespace Recompiler

namespace Ring

def entry (r : Ring) (i : Fin ringSize) : Option ExitRef := r.entries[i.val]

/-- No exit is named at two places. -/
def Distinct (r : Ring) : Prop :=
  ∀ i j e, r.entry i = some e → r.entry j = some e → i = j

theorem mem_iff_entry {r : Ring} {e : ExitRef} :
    e ∈ r.toList ↔ ∃ i, r.entry i = some e := by
  rw [mem_toList, Vector.mem_iff_getElem]
  constructor
  · rintro ⟨i, hi, h⟩
    exact ⟨⟨i, hi⟩, h⟩
  · rintro ⟨i, h⟩
    exact ⟨i.val, i.isLt, h⟩

theorem ext_entry {r s : Ring} (hn : r.next = s.next)
    (h : ∀ i, r.entry i = s.entry i) : r = s := by
  obtain ⟨re, rn⟩ := r
  obtain ⟨se, sn⟩ := s
  have he : re = se := Vector.ext fun i hi => h ⟨i, hi⟩
  subst he
  simp only at hn
  subst hn
  rfl

@[simp] theorem entry_empty (i : Fin ringSize) : empty.entry i = none := by
  simp [entry, empty]

@[simp] theorem toList_empty : empty.toList = [] := by
  rw [List.eq_nil_iff_forall_not_mem]
  intro e he
  obtain ⟨i, hi⟩ := mem_iff_entry.mp he
  simp at hi

theorem evicted?_eq (r : Ring) : r.evicted? = r.entry r.next := rfl

theorem entry_push (r : Ring) (e : ExitRef) (i : Fin ringSize) :
    (r.push e).entry i = if r.next = i then some e else r.entry i := by
  simp only [entry, push, Vector.getElem_set]
  by_cases h : r.next = i
  · simp [h]
  · have : r.next.val ≠ i.val := fun hv => h (Fin.ext hv)
    simp [h, this]

theorem entry_erase (r : Ring) (test : ExitRef → Bool) (i : Fin ringSize) :
    (r.erase test).entry i = (r.entry i).filter (!test ·) := by
  simp only [entry, erase, Vector.getElem_map]
  cases h : r.entries[i.val] with
  | none => rfl
  | some e => cases ht : test e <;> simp [Option.filter, ht]

theorem erase_eq_self {r : Ring} {test : ExitRef → Bool}
    (h : ∀ e ∈ r.toList, test e = false) : r.erase test = r := by
  refine ext_entry (show (r.erase test).next = r.next from rfl) fun i => ?_
  rw [entry_erase]
  cases he : r.entry i with
  | none => rfl
  | some e => simp [Option.filter, h e (mem_iff_entry.mpr ⟨i, he⟩)]

@[simp] theorem erase_empty (test : ExitRef → Bool) : empty.erase test = empty :=
  erase_eq_self (by simp)

theorem Distinct.empty : Ring.empty.Distinct := by
  intro i j e h
  simp at h

theorem Distinct.erase {r : Ring} (h : r.Distinct) (test : ExitRef → Bool) :
    (r.erase test).Distinct := by
  intro i j e hi hj
  rw [entry_erase, Option.filter_eq_some_iff] at hi hj
  exact h i j e hi.1 hj.1

theorem Distinct.push {r : Ring} (h : r.Distinct) {e : ExitRef}
    (he : e ∉ r.toList) : (r.push e).Distinct := by
  have hno : ∀ i, r.entry i ≠ some e := fun i hi => he (mem_iff_entry.mpr ⟨i, hi⟩)
  intro i j x hi hj
  rw [entry_push] at hi hj
  split at hi
  · next hin =>
      split at hj
      · next hjn => rw [← hin, hjn]
      · rw [← hi] at hj
        exact absurd hj (hno j)
  · split at hj
    · rw [← hj] at hi
      exact absurd hi (hno i)
    · exact h i j x hi hj

/-- What a push leaves in a ring: the new entry, and every old one but the
one put out. -/
theorem mem_push {r : Ring} (h : r.Distinct) {e x : ExitRef} :
    x ∈ (r.push e).toList ↔ x = e ∨ (x ∈ r.toList ∧ r.evicted? ≠ some x) := by
  simp only [mem_iff_entry, entry_push, evicted?_eq]
  constructor
  · rintro ⟨i, hi⟩
    split at hi
    · exact Or.inl (Option.some.inj hi).symm
    · next hn => exact Or.inr ⟨⟨i, hi⟩, fun hx => hn (h _ _ x hx hi)⟩
  · rintro (rfl | ⟨⟨i, hi⟩, hx⟩)
    · exact ⟨r.next, by simp⟩
    · refine ⟨i, ?_⟩
      have : r.next ≠ i := fun hn => hx (hn ▸ hi)
      simp [this, hi]

theorem Distinct.nodup {r : Ring} (h : r.Distinct) : r.toList.Nodup := by
  rw [toList, List.Nodup, List.pairwise_filterMap, List.pairwise_iff_getElem]
  intro i j hi hj hij b hb b' hb' hbb
  subst hbb
  simp only [Vector.length_toList] at hi hj
  have := h ⟨i, hi⟩ ⟨j, hj⟩ b (by simpa [entry] using hb) (by simpa [entry] using hb')
  simp only [Fin.mk.injEq] at this
  omega

end Ring

end Recompiler
