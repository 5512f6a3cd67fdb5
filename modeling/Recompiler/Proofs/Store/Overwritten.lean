import Recompiler.Proofs.Store.Compile
import Recompiler.Proofs.Store.Freed

/-!
# What compiling overwrites

Opening a region takes the active region, and of those after it as many as are
needed for the scratch space of a block, and no more.  The blocks of these regions
are overwritten.  Every other block is what it was once the new one is closed: its
record, but for links, and every byte of its code.
-/

namespace Recompiler

namespace Arena

/-- The regions that are joined to one of `size` bytes until there is scratch
space. -/
def joined (a : Arena) (size : Nat) : List BlockId → List BlockId
  | [] => []
  | id :: rest =>
      if size < a.blockBytes then id :: a.joined (size + (a.block id).size) rest else []

/-- The regions that the next block to be compiled takes. -/
def overwritten (a : Arena) : List BlockId :=
  a.active :: a.joined (a.block a.active).size (a.around a.active).2

theorem joined_congr {a b : Arena} {ids : List BlockId} (hbytes : b.blockBytes = a.blockBytes)
    (hsize : ∀ x ∈ ids, (b.block x).size = (a.block x).size) (size : Nat) :
    b.joined size ids = a.joined size ids := by
  induction ids generalizing size with
  | nil => rfl
  | cons x rest ih =>
      rw [joined, joined, hbytes, hsize x List.mem_cons_self,
        ih fun y hy => hsize y (List.mem_cons_of_mem _ hy)]

theorem overwritten_congr {a b : Arena} (hframe : b.frame = a.frame)
    (hsize : ∀ x, (b.block x).size = (a.block x).size) : b.overwritten = a.overwritten := by
  rw [overwritten, overwritten, active_of_frame hframe, around, around, regions_of_frame hframe,
    hsize, joined_congr (blockBytes_of_frame hframe) fun x _ => hsize x]

end Arena

namespace CodeStore

theorem Frees.overwritten {s s' : CodeStore} {ids : List BlockId} (h : s.Frees ids s') :
    s'.arena.overwritten = s.arena.overwritten := by
  refine Arena.overwritten_congr (Arena.frame_of_outline h.outline) fun b => ?_
  rw [← Descriptor.size_core, h.core]
  split
  · rfl
  · rfl

/-! ## Opening -/

theorem size_evict {s s' : CodeStore} {id : BlockId} (hid : id.isTrampoline = false)
    (h : s.evict id = .ok s') (b : BlockId) : (s'.arena.block b).size = (s.arena.block b).size := by
  rw [← Descriptor.size_core, core_evict hid h]
  split
  · next hb => rw [hb, Descriptor.size_cleared]
  · exact Descriptor.size_core _

/-- Regions are joined as far as they are needed. -/
theorem absorb_joined {s s' : CodeStore} {size size' : Nat} {ids rest : List BlockId}
    (hnodup : ids.Nodup)
    (hids : ∀ id ∈ ids, id.isTrampoline = false ∧ id.number < s.arena.capacity)
    (h : s.absorb size ids = .ok (s', size', rest)) : ids = s.arena.joined size ids ++ rest := by
  induction ids generalizing s size with
  | nil =>
      cases h
      rfl
  | cons id ids ih =>
      obtain ⟨hid, hlt⟩ := hids id List.mem_cons_self
      obtain ⟨hnot, hnodup⟩ := List.nodup_cons.mp hnodup
      unfold absorb at h
      rw [Arena.joined]
      split at h
      · next hshort =>
          obtain ⟨s₁, he, h⟩ := bind_eq_ok_iff.mp h
          have hframe := Arena.frame_of_outline (outline_evict hid he)
          have hcap : s₁.arena.capacity = s.arena.capacity := Arena.capacity_of_frame hframe
          have hrest := ih hnodup (fun x hx => by
            rw [show (s₁.arena.recycle id).capacity = s₁.arena.capacity from
              Arena.capacity_modify .., hcap]
            exact hids x (List.mem_cons_of_mem _ hx)) h
          have hbytes : s₁.arena.blockBytes = s.arena.blockBytes :=
            Arena.blockBytes_of_frame hframe
          have hlengths : ∀ x ∈ ids,
              ((s₁.arena.recycle id).block x).size = (s.arena.block x).size := fun x hx => by
            have hne : x ≠ id := fun he => hnot (he ▸ hx)
            rw [Arena.block_recycle (hcap ▸ hlt), if_neg hne, size_evict hid he]
          rw [Arena.joined_congr (b := s₁.arena.recycle id) hbytes hlengths] at hrest
          rw [if_pos hshort, List.cons_append, ← hrest]
      · next hlong =>
          cases h
          rw [if_neg hlong]
          rfl

theorem Reopened.eq_overwritten {s s' : CodeStore} {id : BlockId} {taken rest : List BlockId}
    (ha : s.arena.Arranged) (h : s.openRegion = .ok (id, s'))
    (hre : Reopened s.arena s'.arena id taken rest) : s.arena.overwritten = id :: taken := by
  obtain ⟨_, rfl, s₁, s₂, size, left, he, hab, rfl⟩ := of_openRegion_ok h
  have hmem := ha.active
  have hid := ha.not_trampoline_of_region hmem
  have hframe := Arena.frame_of_outline (outline_evict hid he)
  have hafter : ∀ x ∈ (s.arena.around s.arena.active).2,
      x.isTrampoline = false ∧ x.number < s₁.arena.capacity := by
    intro x hx
    rw [Arena.capacity_of_frame hframe]
    exact ha.bounds_of_mem_after hmem hx
  have hjoined := absorb_joined (ha.nodup_after hmem) hafter hab
  rw [Arena.joined_congr (Arena.blockBytes_of_frame hframe) fun x _ => size_evict hid he x,
    size_evict hid he] at hjoined
  have hleft : rest = left := by
    have hregions : (s.arena.around s.arena.active).1 ++ s.arena.active :: left =
        (s.arena.around s.arena.active).1 ++ s.arena.active :: rest := hre.regions
    exact (List.cons.inj (List.append_cancel_left hregions)).2.symm
  rw [Arena.overwritten, List.append_cancel_right (hjoined.symm.trans (hleft ▸ hre.after))]

/-! ## Compiling -/

variable {l : Limits} {s s' : CodeStore} (h : s.Coherent l)

include h

/-- **What is not overwritten is not touched.** -/
theorem Coherent.spared_compile (hl : l.Sufficient) {watch : WatchId}
    {page : Vector UInt8 pageSize} {eip : UInt32} {id : BlockId}
    (hc : s.compile l watch page eip = .ok (id, s')) {b : BlockId}
    (hlive : s.arena.isLive b = true) (hb : b ∉ s.arena.overwritten) :
    (s'.arena.block b).core = (s.arena.block b).core ∧ s'.arena.code b = s.arena.code b := by
  obtain ⟨code, a₁, a₂, ho, he, hcl, rfl⟩ := of_compile_ok hc
  obtain ⟨_, _, taken, rest, hre⟩ := reopened_of_ok h.arranged ho
  rw [hre.eq_overwritten h.arranged ho, List.mem_cons, not_or] at hb
  obtain ⟨hne, htaken⟩ := hb
  have hcore : (code.arena.block b).core = (s.arena.block b).core := by
    rw [hre.core, if_neg hne, if_neg htaken]
  have hopen : code.arena.isLive b = true := (Arena.isLive_eq_of_core hcore).trans hlive
  refine ⟨?_, (code_setSource a₂ id _ b).trans ?_⟩
  · rw [← hcore]
    refine congrArg Descriptor.core ?_
    show (a₂.modify id _).block b = _
    rw [Arena.block_modify, if_neg fun h => hne h.1.symm]
    exact block_eq_of_close h ho he hcl hne hopen
  · have hbefore : code.arena.code b = s.arena.code b :=
      Arena.code_eq_of_core hcore (by rw [hre.pen])
    exact (code_of_close h ho he hcl (Sequence.portable_operations _ id)
      (codeLength_operations_le hl page eip id) hne hopen).trans hbefore

end CodeStore

end Recompiler
