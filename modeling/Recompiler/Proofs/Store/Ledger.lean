import Recompiler.Proofs.Arena.Ledger
import Recompiler.Proofs.Store.Overwritten

/-!
# What compiling and invalidating enter

Opening a region evicts the live blocks that lie where it will, one by one, and closing
it compiles the new block.  Invalidating a range ends the blocks that it meets; they are
counted together.
-/

namespace Recompiler

namespace Counters

def Invalidates (c : Counters) (n : Nat) (c' : Counters) : Prop :=
  ∀ change, c'.tally change = c.tally change + if .invalidated = change then n else 0

namespace Invalidates

variable {c c' c'' : Counters} {m n : Nat}

theorem refl (c : Counters) : c.Invalidates 0 c := fun _ => by rw [ite_self, Nat.add_zero]

theorem trans (h : c.Invalidates m c') (h' : c'.Invalidates n c'') : c.Invalidates (m + n) c'' := by
  intro change
  rw [h', h, Nat.add_assoc]
  split
  · rfl
  · rfl

end Invalidates

end Counters

namespace Arena

theorem Arranged.nodup_compiledBlocks {a : Arena} (h : a.Arranged) : a.compiledBlocks.Nodup :=
  (List.Nodup.of_append_left h.nodup).filter _

theorem Arranged.mem_compiledBlocks {a : Arena} (h : a.Arranged) (hl : a.Linked) {b : BlockId} :
    b ∈ a.compiledBlocks ↔ a.isLive b = true :=
  List.mem_filter.trans (and_iff_right_of_imp (h.mem_regions_of_isLive hl))

def evictions (a : Arena) (ids : List BlockId) : List Entry :=
  (ids.filter a.isLive).map (Entry.mk .evicted)

theorem evictions_cons (a : Arena) (id : BlockId) (rest : List BlockId) :
    a.evictions (id :: rest) = a.evictions [id] ++ a.evictions rest := by
  rw [evictions, evictions, evictions, ← List.map_append, ← List.filter_append]
  rfl

theorem evictions_congr {a b : Arena} {ids : List BlockId}
    (h : ∀ x ∈ ids, b.isLive x = a.isLive x) : b.evictions ids = a.evictions ids :=
  congrArg (List.map _) (List.filter_congr h)

end Arena

namespace CodeStore

/-! ## Opening -/

theorem books_evict {s s' : CodeStore} {id : BlockId} (hid : id.isTrampoline = false)
    (h : s.evict id = .ok s') : s.arena.Books (s.arena.evictions [id]) s'.arena := by
  have hlive := isLive_evict hid h
  rcases of_evict_ok h with ⟨hl, rfl⟩ | ⟨hl, s₁, hd, rfl⟩
  · have hnone : s'.arena.evictions [id] = [] := by
      rw [Arena.evictions, List.filter_singleton, hl]
      rfl
    rw [hnone]
    exact .refl s'.arena
  · have hone : s.arena.evictions [id] = [⟨.evicted, id⟩] := by
      rw [Arena.evictions, List.filter_singleton, hl]
      rfl
    rw [hone]
    refine .enter hl hlive (fun change => ?_) fun b => ?_
    · show (Counters.tally { s₁.arena.counters with evictions := _ } change) = _
      rw [arena_discard hid hd, Arena.counters_vacate]
      cases change with
      | compiled | evicted | invalidated => rfl
    · have hother : (⟨.evicted, id⟩ : Entry) ≠ ⟨.compiled, b⟩ := fun he => by cases he
      rw [if_neg hother, UInt32.add_zero, Arena.block_count, arena_discard hid hd,
        ← Descriptor.generation_core, Arena.core_vacate]
      split
      · rfl
      · rfl

theorem books_absorb {s s' : CodeStore} {size size' : Nat} {ids rest : List BlockId}
    (hnodup : ids.Nodup) (hids : ∀ id ∈ ids, id.isTrampoline = false)
    (h : s.absorb size ids = .ok (s', size', rest)) :
    ∃ taken, ids = taken ++ rest ∧ s.arena.Books (s.arena.evictions taken) s'.arena := by
  induction ids generalizing s size with
  | nil =>
      cases h
      exact ⟨[], rfl, .refl _⟩
  | cons id ids ih =>
      have hid := hids id List.mem_cons_self
      obtain ⟨hnot, hnodup⟩ := List.nodup_cons.mp hnodup
      unfold absorb at h
      split at h
      · obtain ⟨s₁, he, h⟩ := bind_eq_ok_iff.mp h
        have hdead : s₁.arena.isLive id = false := by rw [isLive_evict hid he, if_pos rfl]
        obtain ⟨taken, hsplit, hbooks⟩ :=
          ih hnodup (fun x hx => hids x (List.mem_cons_of_mem _ hx)) h
        have hsame : (s₁.arena.recycle id).evictions taken = s.arena.evictions taken := by
          refine Arena.evictions_congr fun x hx => ?_
          have hne : x ≠ id := fun he => hnot (hsplit ▸ List.mem_append_left _ (he ▸ hx))
          rw [Arena.isLive_recycle hdead, isLive_evict hid he, if_neg hne]
        rw [hsame] at hbooks
        refine ⟨id :: taken, congrArg (id :: ·) hsplit, ?_⟩
        rw [Arena.evictions_cons]
        exact (books_evict hid he).trans (Arena.Books.trans (.recycle hdead) hbooks)
      · cases h
        exact ⟨[], rfl, .refl _⟩

/-- **Opening evicts what is live in the regions that it takes.** -/
theorem books_openRegion {s s' : CodeStore} {id : BlockId} (ha : s.arena.Arranged)
    (h : s.openRegion = .ok (id, s')) :
    s.arena.Books (s.arena.evictions s.arena.overwritten) s'.arena := by
  obtain ⟨_, hact, taken, rest, hre⟩ := reopened_of_ok ha h
  have hover := hre.eq_overwritten ha h
  obtain ⟨_, _, s₁, s₂, size, left, he, hab, rfl⟩ := of_openRegion_ok h
  have hmem : id ∈ s.arena.regions := hact ▸ ha.active
  have hid := ha.not_trampoline_of_region hmem
  obtain ⟨taken', hsplit, hbooks⟩ := books_absorb (ha.nodup_after hmem)
    (fun x hx => (ha.bounds_of_mem_after hmem hx).1) hab
  have hleft : rest = left := by
    have hregions : (s.arena.around id).1 ++ id :: left = (s.arena.around id).1 ++ id :: rest :=
      hre.regions
    exact (List.cons.inj (List.append_cancel_left hregions)).2.symm
  obtain rfl : taken' = taken :=
    List.append_cancel_right (hsplit.symm.trans (hleft ▸ hre.after))
  have hsame : s₁.arena.evictions taken' = s.arena.evictions taken' := by
    refine Arena.evictions_congr fun x hx => ?_
    have hne : x ≠ id := by
      rintro rfl
      exact ha.not_mem_around hmem (List.mem_append_right _ (hsplit ▸ List.mem_append_left _ hx))
    rw [isLive_evict hid he, if_neg hne]
  rw [hsame] at hbooks
  rw [hover, Arena.evictions_cons]
  refine (books_evict hid he).trans
    (hbooks.extend (.of_same (fun b => ?_) (fun _ => rfl) fun b => ?_))
  · exact Arena.isLive_resize s₂.arena id size b
  · exact Arena.field_modify s₂.arena id b Descriptor.generation fun _ => rfl

/-! ## Compiling -/

/-- **Compiling enters what it overwrites, and then the new block.** -/
theorem Coherent.books_compile {l : Limits} {s s' : CodeStore} (h : s.Coherent l)
    {watch : WatchId} {page : Vector UInt8 pageSize} {eip : UInt32} {id : BlockId}
    (hc : s.compile l watch page eip = .ok (id, s')) :
    s.arena.Books (s.arena.evictions s.arena.overwritten ++ [⟨.compiled, s.arena.active⟩])
      s'.arena := by
  obtain ⟨code, a₁, a₂, ho, he, hcl, rfl⟩ := of_compile_ok hc
  have hopened := books_openRegion h.arranged ho
  have hsound := sound_emitProgram h ho he
  obtain ⟨_, rfl, _⟩ := of_openRegion_ok ho
  have hwritten : code.arena.Books [] a₁ := by
    rw [Arena.of_checked_ok he]
    exact .of_core (fun _ => rfl) fun _ => rfl
  have hclosed := Arena.Books.close hsound.arranged (isLive_of_exit _) hcl
  refine hopened.trans
    ((hwritten.trans hclosed).extend (.of_same (fun b => ?_) (fun _ => rfl) fun b => ?_))
  · exact Arena.field_modify a₂ _ b Descriptor.isLive fun _ => rfl
  · exact Arena.field_modify a₂ _ b Descriptor.generation fun _ => rfl

/-! ## Invalidating -/

/-- What freeing blocks enters, once they are counted; in which order does not matter. -/
theorem Frees.books {s s' : CodeStore} {freed ids : List BlockId} (h : s.Frees freed s')
    (hfreed : freed.Nodup) (hids : ids.Nodup) (hsame : ∀ b, b ∈ ids ↔ b ∈ freed)
    (hlive : ∀ b ∈ ids, s.arena.isLive b = true)
    (hcounted : s.arena.counters.Invalidates freed.length s'.arena.counters) :
    s.arena.Books (ids.map (Entry.mk .invalidated)) s'.arena := by
  have hlength : ids.length = freed.length :=
    ((List.perm_ext_iff_of_nodup hids hfreed).mpr hsame).length_eq
  refine .leaving (fun he => by cases he) hids hlive (fun b => ?_) (hlength ▸ hcounted) fun b => ?_
  · exact (h.isLive b).trans (if_congr (hsame b).symm rfl rfl)
  · rw [← Descriptor.generation_core, h.core]
    split
    · rfl
    · rfl

section Sweep

variable (first last : Offset) (running : Option BlockId)

theorem counters_bucket (w : Sweep) (k : Bucket) :
    (w.bucket first last running k).arena.counters = w.arena.counters := by
  have hfold : ∀ (ids : List BlockId) (w : Sweep),
      (ids.foldl (Sweep.free running) w).arena.counters = w.arena.counters := by
    intro ids
    induction ids with
    | nil => exact fun _ => rfl
    | cons b rest ih => exact fun w => (ih _).trans (Arena.counters_vacate w.arena b)
  unfold Sweep.bucket
  simp only
  split
  · rfl
  · exact hfold _ _

theorem counters_below (n : Nat) (w : Sweep) :
    (Sweep.below first last running n w).arena.counters = w.arena.counters := by
  induction n generalizing w with
  | zero => rfl
  | succ n ih =>
      unfold Sweep.below
      split
      · rfl
      · rw [ih]
        split
        · exact counters_bucket first last running w _
        · rfl

/-- **The blocks that were found are counted** once it is over. -/
theorem invalidates_invalidate (s : CodeStore) (id : WatchId) :
    s.arena.counters.Invalidates (s.invalidate id first last running).1
      (s.invalidate id first last running).2.2.arena.counters := by
  have hbelow := counters_below first last running ((bucketOf last).val + 1)
    ⟨s.watches.watch id, s.arena, 0, false⟩
  intro change
  unfold invalidate Watch.invalidate
  simp only [Arena.count, hbelow]
  cases change with
  | compiled | evicted | invalidated => rfl

end Sweep

end CodeStore

end Recompiler
