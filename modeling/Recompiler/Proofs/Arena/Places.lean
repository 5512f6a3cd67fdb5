import Mathlib.Data.List.Rotate
import Recompiler.Proofs.Arena.Ring

/-!
# The places of a ring in turn

Places are used in turn and entries do not move, so read from the place used next
a ring lists what was pushed in order of time.  It holds what the last `ringSize`
pushes put there, and of these only the ones that still stand: a place whose entry
was erased is empty until its turn comes, it is not filled before.
-/

namespace Recompiler

/-- What is written at the place a rotation starts from comes last once that place was passed. -/
theorem rotate_set {α : Type} {l : List α} {n : Nat} (h : n < l.length) (x : α) :
    (l.set n x).rotate ((n + 1) % l.length) = (l.rotate n).tail ++ [x] := by
  have hset : (l.set n x).length = l.length := List.length_set
  rw [← hset, List.rotate_mod, List.rotate_eq_drop_append_take (by omega),
    List.rotate_eq_drop_append_take (by omega), List.drop_set_of_lt (by omega),
    List.drop_eq_getElem_cons h, List.cons_append, List.tail_cons,
    List.take_succ_eq_append_getElem (by omega), List.getElem_set_self,
    List.take_set_of_le (by omega), List.append_assoc]

namespace Ring

/-- The places of a ring, the one used next first. -/
def places (r : Ring) : List (Option ExitRef) := r.entries.toList.rotate r.next.val

@[simp] theorem length_places (r : Ring) : r.places.length = ringSize := by
  rw [places, List.length_rotate, Vector.length_toList]

theorem mem_places {r : Ring} {e : ExitRef} : some e ∈ r.places ↔ e ∈ r.toList := by
  rw [places, List.mem_rotate, Vector.mem_toList_iff, mem_toList]

@[simp] theorem places_empty : empty.places = List.replicate ringSize none := by
  rw [places, empty, Vector.toList_replicate, List.rotate_replicate]

theorem places_eq_cons (r : Ring) : r.places = r.evicted? :: r.places.tail := by
  have hnext : r.next.val < r.entries.toList.length := by
    rw [Vector.length_toList]
    exact r.next.isLt
  rw [places, List.rotate_eq_drop_append_take (Nat.le_of_lt hnext), List.drop_eq_getElem_cons hnext,
    Vector.getElem_toList]
  rfl

/-- **A push takes the first place in turn, and makes it the last.** -/
theorem places_push (r : Ring) (e : ExitRef) :
    (r.push e).places = r.places.tail ++ [some e] := by
  have hlength : r.entries.toList.length = ringSize := Vector.length_toList
  have hnext : r.next.val < r.entries.toList.length := by
    rw [hlength]
    exact r.next.isLt
  have hturn : (r.push e).next.val = (r.next.val + 1) % r.entries.toList.length := by
    rw [hlength]
    exact Fin.val_add r.next 1
  rw [places, hturn, push, Vector.toList_set]
  exact rotate_set hnext (some e)

/-- Erasing empties places, and keeps their turns. -/
theorem places_erase (r : Ring) (test : ExitRef → Bool) :
    (r.erase test).places = r.places.map (Option.filter (!test ·)) := by
  rw [places, places, List.map_rotate]
  show ((r.entries.map _).toList).rotate _ = _
  rw [Vector.toList_map]
  congr 2
  funext e
  cases e with
  | none => rfl
  | some e => cases ht : test e <;> simp [Option.filter, ht]

/-- A ring that names no exit twice names the one put out next in no other place. -/
theorem Distinct.not_mem_tail {r : Ring} (h : r.Distinct) {e : ExitRef}
    (he : r.evicted? = some e) : some e ∉ r.places.tail := by
  have hperm : (r.places.filterMap id).Perm r.toList := (List.rotate_perm ..).filterMap _
  have hnodup := hperm.nodup_iff.mpr h.nodup
  rw [places_eq_cons, he] at hnodup
  have hnot : e ∉ r.places.tail.filterMap id := (List.nodup_cons.mp hnodup).1
  exact fun hm => hnot (List.mem_filterMap.mpr ⟨some e, hm, rfl⟩)

theorem evicted?_of_full {r : Ring} (h : r.toList.length = ringSize) :
    ∃ e, r.evicted? = some e := by
  have hperm : (r.places.filterMap id).Perm r.toList := (List.rotate_perm ..).filterMap _
  cases he : r.evicted? with
  | some e => exact ⟨e, rfl⟩
  | none =>
      have hplaces := r.places_eq_cons
      have hlength := congrArg List.length hplaces
      rw [length_places, List.length_cons] at hlength
      have hfew := List.length_filterMap_le id r.places.tail
      rw [← hperm.length_eq, hplaces, he, List.filterMap_cons_none rfl] at h
      omega

end Ring

/-! ## What still stands of what was pushed -/

/-- The entries pushed, with those left out that do not stand any more: those that fail a test,
and those pushed again later. -/
def standing (test : ExitRef → Bool) : List ExitRef → List (Option ExitRef)
  | [] => []
  | e :: later => (if test e ∧ e ∉ later then some e else none) :: standing test later

section Standing

variable (test : ExitRef → Bool) (pushed : List ExitRef)

@[simp] theorem length_standing : (standing test pushed).length = pushed.length := by
  induction pushed with
  | nil => rfl
  | cons e later ih => rw [standing, List.length_cons, List.length_cons, ih]

/-- What is pushed again stands in its last place only. -/
theorem standing_concat (e : ExitRef) :
    standing test (pushed ++ [e]) =
      standing (fun x => test x && x ≠ e) pushed ++ [if test e then some e else none] := by
  induction pushed with
  | nil => simp [standing]
  | cons x later ih =>
      rw [List.cons_append, standing, standing, ih, List.cons_append]
      congr 1
      by_cases hx : x = e
      · simp [hx]
      · simp [hx]

theorem standing_and (other : ExitRef → Bool) :
    standing (fun x => test x && other x) pushed =
      (standing test pushed).map (Option.filter other) := by
  induction pushed with
  | nil => rfl
  | cons x later ih =>
      rw [standing, standing, List.map_cons, ih]
      congr 1
      cases hother : other x <;> by_cases hx : x ∈ later <;> cases ht : test x <;>
        simp [hx, hother, Option.filter]

variable {test pushed}

theorem standing_congr {other : ExitRef → Bool} (h : ∀ e ∈ pushed, test e = other e) :
    standing test pushed = standing other pushed := by
  induction pushed with
  | nil => rfl
  | cons x later ih =>
      rw [standing, standing, h x List.mem_cons_self,
        ih fun e he => h e (List.mem_cons_of_mem _ he)]

theorem getElem?_standing {i : Nat} {e : ExitRef} :
    (standing test pushed)[i]? = some (some e) ↔
      pushed[i]? = some e ∧ test e = true ∧ e ∉ pushed.drop (i + 1) := by
  induction pushed generalizing i with
  | nil => simp [standing]
  | cons x later ih =>
      cases i with
      | zero =>
          simp only [standing, List.getElem?_cons_zero, Option.some.injEq, List.drop_succ_cons,
            List.drop_zero]
          constructor
          · intro h
            split at h
            · next hx =>
                cases h
                exact ⟨rfl, hx⟩
            · cases h
          · rintro ⟨rfl, hx⟩
            rw [if_pos hx]
      | succ i =>
          rw [standing, List.getElem?_cons_succ, List.getElem?_cons_succ, List.drop_succ_cons]
          exact ih

end Standing

namespace Ring

/-! ## A ring and its pushes -/

/-- A ring holds, in turn, what its last `ringSize` pushes put there, but for what it does not
name any more. -/
def Holds (r : Ring) (pushed : List ExitRef) : Prop :=
  r.places =
    (List.replicate ringSize none ++ standing (· ∈ r.toList) pushed).drop pushed.length

namespace Holds

theorem empty (pushed : List ExitRef) : Ring.empty.Holds pushed := by
  have hnone : standing (· ∈ Ring.empty.toList) pushed = List.replicate pushed.length none := by
    refine List.eq_replicate_iff.mpr ⟨length_standing .., fun e he => ?_⟩
    cases e with
    | none => rfl
    | some e =>
        obtain ⟨i, hi⟩ := List.mem_iff_getElem?.mp he
        have := (getElem?_standing.mp hi).2.1
        simp at this
  rw [Holds, hnone, List.replicate_append_replicate, List.drop_replicate, Nat.add_sub_cancel,
    places_empty]

variable {r : Ring} {pushed : List ExitRef} (h : r.Holds pushed)

include h

theorem erase (test : ExitRef → Bool) : (r.erase test).Holds pushed := by
  have hstanding : standing (· ∈ (r.erase test).toList) pushed =
      (standing (· ∈ r.toList) pushed).map (Option.filter (!test ·)) := by
    rw [← standing_and]
    refine standing_congr fun e _ => ?_
    rw [Bool.eq_iff_iff]
    simp [mem_toList_erase]
  rw [Holds, hstanding, places_erase, h, List.map_drop, List.map_append, List.map_replicate]
  rfl

/-- **What a ring holds after a push,** whether or not an entry is put out. -/
theorem push (hd : r.Distinct) {e : ExitRef} (he : e ∉ r.toList) :
    (r.push e).Holds (pushed ++ [e]) := by
  have hstanding : standing (· ∈ (r.push e).toList) (pushed ++ [e]) =
      (standing (· ∈ r.toList) pushed).map (Option.filter fun x => r.evicted? ≠ some x) ++
        [some e] := by
    have hpushed : e ∈ (r.push e).toList := (mem_push hd).mpr (Or.inl rfl)
    rw [standing_concat, ← standing_and, if_pos (decide_eq_true hpushed)]
    congr 1
    refine standing_congr fun x _ => ?_
    rw [Bool.eq_iff_iff]
    simp only [Bool.and_eq_true, decide_eq_true_eq, mem_push hd]
    constructor
    · rintro ⟨rfl | hx, hne⟩
      · exact absurd rfl hne
      · exact hx
    · rintro ⟨hx, hout⟩
      exact ⟨Or.inr ⟨hx, hout⟩, fun hxe => he (hxe ▸ hx)⟩
  have htail : r.places.tail.map (Option.filter fun x => r.evicted? ≠ some x) =
      r.places.tail := by
    refine (List.map_congr_left fun p hp => ?_).trans (List.map_id _)
    cases p with
    | none => rfl
    | some x =>
        have hx : r.evicted? ≠ some x := fun hx => hd.not_mem_tail hx hp
        simp [Option.filter, hx]
  have hnone : List.replicate ringSize none =
      (List.replicate ringSize none).map (Option.filter fun x => r.evicted? ≠ some x) := by
    rw [List.map_replicate]
    rfl
  rw [Holds, hstanding, List.length_append, List.length_singleton, ← List.append_assoc, hnone,
    ← List.map_append, List.drop_append_of_le_length, ← List.map_drop, ← List.drop_drop, ← h,
    List.drop_one, htail, places_push]
  rw [List.length_map, List.length_append, List.length_replicate, length_standing, ringSize]
  omega

/-- **Who is put out next** is whom the push before the last `ringSize - 1` put there, if that
still stands. -/
theorem evicted?_eq_some_iff {e : ExitRef} :
    r.evicted? = some e ↔
      ringSize ≤ pushed.length ∧ pushed[pushed.length - ringSize]? = some e ∧ e ∈ r.toList ∧
        e ∉ pushed.drop (pushed.length - ringSize + 1) := by
  have hfirst : r.places[0]? = some r.evicted? := by
    rw [places_eq_cons]
    rfl
  rw [h, List.getElem?_drop, Nat.add_zero] at hfirst
  by_cases hle : ringSize ≤ pushed.length
  · rw [List.getElem?_append_right (by rwa [List.length_replicate]), List.length_replicate]
      at hfirst
    constructor
    · intro he
      rw [he] at hfirst
      obtain ⟨hat, hin, hlater⟩ := getElem?_standing.mp hfirst
      exact ⟨hle, hat, of_decide_eq_true hin, hlater⟩
    · rintro ⟨_, hat, hin, hlater⟩
      have hstands : (standing (· ∈ r.toList) pushed)[pushed.length - ringSize]? = some (some e) :=
        getElem?_standing.mpr ⟨hat, decide_eq_true hin, hlater⟩
      rw [hfirst] at hstands
      exact Option.some.inj hstands
  · have hlt : pushed.length < ringSize := Nat.lt_of_not_le hle
    rw [List.getElem?_append_left (by rwa [List.length_replicate]), List.getElem?_replicate,
      if_pos hlt, Option.some.injEq] at hfirst
    rw [← hfirst]
    constructor
    · intro he
      cases he
    · exact fun he => absurd he.1 hle

/-- Whatever a ring names was put there by one of its last `ringSize` pushes. -/
theorem mem_drop {e : ExitRef} (he : e ∈ r.toList) :
    e ∈ pushed.drop (pushed.length - ringSize) := by
  have hmem := mem_places.mpr he
  rw [h, List.drop_append, List.length_replicate, List.mem_append] at hmem
  rcases hmem with hmem | hmem
  · cases List.eq_of_mem_replicate (List.mem_of_mem_drop hmem)
  · obtain ⟨i, hi⟩ := List.mem_iff_getElem?.mp hmem
    rw [List.getElem?_drop] at hi
    refine List.mem_iff_getElem?.mpr ⟨i, ?_⟩
    rw [List.getElem?_drop]
    exact (getElem?_standing.mp hi).1

end Holds

end Ring

end Recompiler
