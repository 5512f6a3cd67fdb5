import Recompiler.Proofs.Arena.Links

/-!
# Forgetting links

What is left of an arena when no exit is linked, no ring records anything, and
what linking counts is not counted.  Links have no part in where regions lie and
what is compiled in them: every operation on what is left does what it does to
the whole, and linking does nothing.
-/

namespace Recompiler

/-- The counters but for those that tell of links, and of look-ups that links
spare. -/
def Counters.forget (c : Counters) : Counters := { c with hits := 0, links := 0, displaced := 0 }

namespace Arena

def cut (a : Arena) : Arena := { a with pool := a.pool.map Descriptor.core }

/-- What is left of an arena when links are forgotten. -/
def forget (a : Arena) : Arena := a.cut.count Counters.forget

@[simp] theorem block_cut (a : Arena) (id : BlockId) : a.cut.block id = (a.block id).core := by
  simp only [block, cut, Array.getD_eq_getD_getElem?, Array.getElem?_map]
  cases a.pool[id.number]? <;> rfl

@[simp] theorem block_forget (a : Arena) (id : BlockId) :
    a.forget.block id = (a.block id).core := block_cut a id

@[simp] theorem capacity_forget (a : Arena) : a.forget.capacity = a.capacity := Array.size_map

@[simp] theorem isLive_forget (a : Arena) (id : BlockId) : a.forget.isLive id = a.isLive id := by
  rw [isLive, block_forget]
  rfl

theorem alike_cut (a : Arena) : a.Alike a.cut := by
  have hsize : a.cut.capacity = a.capacity := Array.size_map
  exact ⟨by rw [outline, outline, hsize]; rfl,
    fun id => (congrArg Descriptor.core (block_cut a id)).symm⟩

theorem Linked.cut {a : Arena} (h : a.Linked) : a.cut.Linked := by
  refine .of_unlinked (fun s => ?_) (fun d => ?_) fun d => ?_
  · rw [block_cut, h.stub]
    rfl
  · rw [block_cut]
    rfl
  · rw [block_cut]
    rfl

/-- A change that does not look at links happens to what is left alike. -/
theorem forget_modify (a : Arena) (id : BlockId) {f : Descriptor → Descriptor}
    (hf : ∀ d, (f d).core = f d.core) : (a.modify id f).forget = a.forget.modify id f := by
  have hpool : (a.pool.modify id.number f).map Descriptor.core =
      (a.pool.map Descriptor.core).modify id.number f := by
    refine Array.ext_getElem? fun i => ?_
    rw [Array.getElem?_map, Array.getElem?_modify, Array.getElem?_modify, Array.getElem?_map]
    split
    · cases a.pool[i]? with
      | none => rfl
      | some d => exact congrArg some (hf d)
    · rfl
  simp only [forget, cut, modify, count, hpool]

theorem forget_count (a : Arena) {f : Counters → Counters} (hf : ∀ c, (f c).forget = f c.forget) :
    (a.count f).forget = a.forget.count f := by
  simp only [forget, cut, count, hf]

/-- Arenas that differ in links, rings and what linking counts. -/
theorem Alike.forget_eq {a b : Arena} (h : a.Alike b) (hc : a.counters.forget = b.counters.forget) :
    a.forget = b.forget := by
  have hsize : a.pool.size = b.pool.size := capacity_of_frame (frame_of_outline h.outline)
  have hpool : a.pool.map Descriptor.core = b.pool.map Descriptor.core := by
    refine Array.ext (by rw [Array.size_map, Array.size_map, hsize]) fun i ha hb => ?_
    rw [Array.size_map] at ha hb
    have hcore := h.core ⟨i⟩
    simp only [block, Array.getD, ha, hb, dite_true] at hcore
    rw [Array.getElem_map, Array.getElem_map]
    exact hcore
  show { a.outline with pool := a.pool.map Descriptor.core, counters := a.counters.forget } =
    { b.outline with pool := b.pool.map Descriptor.core, counters := b.counters.forget }
  rw [h.outline, hpool, hc]

/-! ## Linking and unlinking -/

theorem counters_recordLink (a : Arena) (e : ExitRef) (target : BlockId) :
    (a.recordLink e target).counters.forget = a.counters.forget := by
  unfold recordLink
  cases (a.block target).ring.evicted? with
  | none => rfl
  | some old =>
      simp only
      split
      · rfl
      · rfl

theorem forget_link {a a' : Arena} {source target : BlockId} {slot : Slot}
    (h : a.link source slot target = .ok a') : a'.forget = a.forget := by
  refine ((Alike.link h).forget_eq ?_).symm
  unfold link at h
  split at h
  · cases h
  split at h
  · cases h
  simp only at h
  split at h
  · cases h
    rfl
  · cases h
    show a.counters.forget = Counters.forget (Arena.counters (if _ then _ else _))
    split
    · split
      · rfl
      · rfl
    · rw [counters_recordLink]
      split
      · rfl
      · rfl

theorem counters_vacate (a : Arena) (id : BlockId) : (a.vacate id).counters = a.counters := by
  have fold : ∀ {α : Type} (f : Arena → α → Arena), (∀ a x, (f a x).counters = a.counters) →
      ∀ (l : List α) (a : Arena), (l.foldl f a).counters = a.counters := by
    intro α f hf l
    induction l with
    | nil => exact fun _ => rfl
    | cons x rest ih => exact fun a => (ih _).trans (hf a x)
  unfold vacate
  refine (fold _ (fun a e => fold _ (fun a s => ?_) _ a) _ _).trans
    ((fold _ (fun a s => ?_) _ _).trans rfl)
  · split
    · rfl
    · rfl
  · simp only
    split
    · rfl
    · rfl

/-- Where there are no links, tearing a block down concerns its record only. -/
theorem vacate_forget (a : Arena) (id : BlockId) :
    a.forget.vacate id = a.forget.modify id Descriptor.vacated := by
  unfold vacate
  simp only [block_forget]
  rfl

theorem forget_vacate (a : Arena) (id : BlockId) : (a.vacate id).forget = a.forget.vacate id := by
  rw [vacate_forget, ← forget_modify a id (f := Descriptor.vacated) fun _ => rfl]
  exact ((Alike.vacate a id).forget_eq (by rw [counters_vacate]; rfl)).symm

/-! ## Opening and closing -/

theorem forget_take (a : Arena) : a.take.map (Prod.map id forget) = a.forget.take := by
  unfold take
  rw [capacity_forget, show a.forget.free = a.free from rfl]
  cases a.free with
  | nil => rfl
  | cons id rest => rfl

theorem forget_recycle (a : Arena) (id : BlockId) :
    (a.recycle id).forget = a.forget.recycle id := by
  refine congrArg (fun b : Arena => { b with free := id :: a.free }) (forget_modify a id ?_)
  exact fun _ => rfl

theorem forget_trim (a : Arena) (id : BlockId) (written : Nat) :
    (a.trim id written).map forget = a.forget.trim id written := by
  unfold trim
  simp only [block_forget, Descriptor.size_core, Descriptor.start_core]
  refine (apply_ite (Except.map forget) ..).trans (if_congr Iff.rfl ?_ ?_)
  · refine (apply_ite (Except.map forget) ..).trans (if_congr Iff.rfl rfl ?_)
    refine congrArg Except.ok (forget_modify a id ?_)
    exact fun _ => rfl
  · refine (apply_ite (Except.map forget) ..).trans (if_congr Iff.rfl ?_ rfl)
    rw [← forget_take]
    refine map_bind_eq (fun r => ?_) _
    obtain ⟨rest, b⟩ := r
    refine congrArg (fun b : Arena => Except.ok { b with
      regions := (a.around id).1 ++ id :: rest :: (a.around id).2 }) ((forget_modify _ _ ?_).trans
        (congrArg (modify · id _) (forget_modify b rest ?_)))
    · exact fun _ => rfl
    · exact fun _ => rfl

theorem forget_advance (a : Arena) (id : BlockId) : (a.advance id).forget = a.forget.advance id := by
  have hwrap : (advance.wrap a).forget = advance.wrap a.forget :=
    forget_count { a with active := firstRegion } fun _ => rfl
  unfold advance
  rw [show a.forget.around id = a.around id from rfl]
  cases (a.around id).2 with
  | nil => exact hwrap
  | cons next rest =>
      simp only [block_forget, Descriptor.start_core]
      exact (apply_ite forget ..).trans (if_congr Iff.rfl rfl hwrap)

theorem forget_close (a : Arena) (kind : BlockKind) (program : List Operation) :
    (a.close kind program).map (Prod.map id forget) = a.forget.close kind program := by
  unfold close
  rw [show a.forget.opened = a.opened from rfl]
  cases a.opened with
  | none => rfl
  | some id =>
      simp only [block_forget, Descriptor.start_core]
      let f : Descriptor → Descriptor := fun d =>
        { d with
          kind, program
          links := .unlinked
          ring := .empty
          generation := d.generation + 1 }
      have htrim := forget_trim ({ a with opened := none }.modify id f) id
        (a.pen.cursor - (a.block id).start)
      rw [forget_modify _ id (f := f) fun _ => rfl] at htrim
      refine (map_bind_eq (fun b => ?_) _).trans (congrArg (· >>= _) htrim)
      refine congrArg (fun b => Except.ok (id, b)) ((forget_count _ ?_).trans ?_)
      · exact fun _ => rfl
      · rw [forget_advance]

/-! ## Writing code -/

theorem forget_checked (a : Arena) (pen : Pen) :
    (a.checked pen).map forget = a.forget.checked pen := by
  unfold checked
  refine (apply_ite (Except.map forget) ..).trans (if_congr Iff.rfl ?_ rfl)
  refine congrArg Except.error ?_
  unfold overrunFault
  simp only [block_forget, Descriptor.start_core, Descriptor.size_core]
  rfl

theorem forget_emitProgram (a : Arena) (ops : List Operation) :
    (a.emitProgram ops).map forget = a.forget.emitProgram ops :=
  a.forget_checked _

end Arena

end Recompiler
