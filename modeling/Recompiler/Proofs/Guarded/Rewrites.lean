import Recompiler.Proofs.Guarded.Countdown

/-!
# How often a byte was rewritten

The watch of a page counts the changes of each byte that met code, and code that
starts at a byte is compiled no more once these are many.  A write adds at most one
to the count of each byte that it changes.  No count grows when blocks come or go,
and a page that comes under a watch starts with none.
-/

namespace Recompiler

namespace Watch

theorem changesAt_noteChanges_le (w : Watch) (first last o : Offset) :
    ((w.noteChanges first last).changesAt o).toNat ≤
      (w.changesAt o).toNat + if first ≤ o ∧ o ≤ last then 1 else 0 := by
  have hstart : getElem (w.changes.getD (Vector.replicate pageSize 0)) o.val o.isLt =
      w.changesAt o := by
    unfold changesAt
    cases w.changes with
    | none => exact Vector.getElem_replicate ..
    | some _ => rfl
  have hcount : (w.noteChanges first last).changesAt o = _ :=
    getElem_foldl_range' (fun n : UInt8 => if n = 255 then n else n + 1) 0 first.val
      (last.val + 1 - first.val) (w.changes.getD (Vector.replicate pageSize 0)) o.isLt
  rw [hcount, hstart]
  by_cases hin : first ≤ o ∧ o ≤ last
  · rw [if_pos hin]
    split
    · split
      · exact Nat.le_succ _
      · rw [UInt8.toNat_add]
        exact Nat.mod_le ..
    · exact Nat.le_succ _
  · have hout : ¬(first.val ≤ o.val ∧ o.val < first.val + (last.val + 1 - first.val)) := by
      rw [Fin.le_def, Fin.le_def] at hin
      omega
    rw [if_neg hout]
    exact Nat.le_add_right ..

end Watch

namespace GuardedMemory

def rewrites (g : GuardedMemory) (a : UInt32) : Nat :=
  (g.memory.watch? (pageOf a)).elim 0 fun id =>
    ((g.code.watches.watch id).changesAt (offsetOf a)).toNat

theorem rewrites_of_watch? {g : GuardedMemory} {a : UInt32} {id : WatchId}
    (hid : g.memory.watch? (pageOf a) = some id) :
    g.rewrites a = ((g.code.watches.watch id).changesAt (offsetOf a)).toNat := by
  unfold rewrites
  rw [hid]
  rfl

theorem rewrites_of_unwatched {g : GuardedMemory} {a : UInt32}
    (hid : g.memory.watch? (pageOf a) = none) : g.rewrites a = 0 := by
  unfold rewrites
  rw [hid]
  rfl

variable {g g' : GuardedMemory}

/-- The count of a byte grows no more than that of its page's watch. -/
theorem rewrites_le {a : UInt32} {n : Nat}
    (h : ∀ id, g'.memory.watch? (pageOf a) = some id → g.memory.watch? (pageOf a) = some id ∧
      ((g'.code.watches.watch id).changesAt (offsetOf a)).toNat ≤
        ((g.code.watches.watch id).changesAt (offsetOf a)).toNat + n) :
    g'.rewrites a ≤ g.rewrites a + n := by
  cases hid : g'.memory.watch? (pageOf a) with
  | none =>
      rw [rewrites_of_unwatched hid]
      exact Nat.zero_le _
  | some id =>
      obtain ⟨hwas, hle⟩ := h id hid
      rw [rewrites_of_watch? hid, rewrites_of_watch? hwas]
      exact hle

theorem rewrites_congr {a : UInt32}
    (hm : ∀ page, g'.memory.watch? page = g.memory.watch? page)
    (hc : ∀ id, (g'.code.watches.watch id).changes = (g.code.watches.watch id).changes) :
    g'.rewrites a = g.rewrites a := by
  unfold rewrites Watch.changesAt
  simp only [hm, hc]

/-- Where one watch is exchanged for another, and pages go from under it at most, only
the counts of its page may grow. -/
theorem rewrites_set {w : WatchId} (hlt : w.number < g.code.watches.capacity) {v : Watch}
    (hw : ∀ id, g'.code.watches.watch id = (g.code.watches.set w v).watch id)
    (hm : ∀ page id, g'.memory.watch? page = some id → g.memory.watch? page = some id)
    {a : UInt32} {n : Nat}
    (hv : g.memory.watch? (pageOf a) = some w → (v.changesAt (offsetOf a)).toNat ≤
      ((g.code.watches.watch w).changesAt (offsetOf a)).toNat + n) :
    g'.rewrites a ≤ g.rewrites a + n := by
  refine rewrites_le fun id hid => ⟨hm _ id hid, ?_⟩
  rw [hw, Watches.watch_set _ _ _ _ hlt]
  split
  · next he =>
      subst he
      exact hv (hm _ w hid)
  · exact Nat.le_add_right ..

theorem rewrites_releaseWatch {id : WatchId} (hlt : id.number < g.code.watches.capacity)
    {a : UInt32} : (g.releaseWatch id).rewrites a ≤ g.rewrites a := by
  refine rewrites_set (n := 0) hlt (v := .fresh 0 (g.code.watches.watch id).delay) (fun _ => rfl)
    (fun page x hpage => ?_) fun _ => Nat.zero_le _
  have hpage : (g.memory.setWatch _ none).watch? page = some x := hpage
  rw [Memory.watch?_setWatch] at hpage
  split at hpage
  · cases hpage
  · exact hpage

namespace Coherent

variable {l : Limits} (h : g.Coherent l)

include h

/-! ## Writes -/

/-- **A change of a watched page adds at most one to the count of each byte
written.** -/
theorem rewrites_writeWatched {width : Width} {addr : UInt32}
    (hc : crossesPage width addr = false) {w : WatchId}
    (hid : g.memory.watch? (pageOf addr) = some w) (value : UInt32) (running : Option BlockId)
    (a : UInt32) :
    (g.writeWatched w width addr value running).2.rewrites a ≤
      g.rewrites a + (span width addr).count a := by
  have hmarks := (Memory.patched_storeWidth hc g.memory value).marks.watch
  have hstays : ∀ page id, (g.memory.storeWidth width addr value).watch? page = some id →
      g.memory.watch? page = some id := fun page id hpage => (hmarks page).symm.trans hpage
  have hused := ((h.mapped _ _).mp hid).1
  have hlt := h.lt_capacity hused
  rcases h.writeWatched_cases hused width addr value running with
    ⟨_, outcome, code, hstrips, heq⟩ | ⟨_, heq⟩ | ⟨_, heq⟩
  · set noted := (g.code.watches.watch w).noteChanges (offsetOf addr)
      (lastOf (offsetOf addr) width) with hnoted
    rw [heq]
    refine Nat.le_trans (Nat.le_of_eq (m := rewrites
      ⟨{ g.code with watches := g.code.watches.set w noted }, g.memory.storeWidth width addr value⟩
      a) ?_) (rewrites_set hlt (v := noted) (fun _ => rfl) hstays fun hwatch => ?_)
    · exact rewrites_congr (fun _ => rfl) hstrips.changes
    refine Nat.le_trans (Watch.changesAt_noteChanges_le ..) (Nat.add_le_add_left ?_ _)
    split
    · next hbetween =>
        have hpage := ((h.mapped _ _).mp hwatch).2.symm.trans ((h.mapped _ _).mp hid).2
        exact List.one_le_count_iff.mpr (mem_span_of_between hpage hbetween.1 hbetween.2)
    · exact Nat.zero_le _
  · rw [heq]
    refine Nat.le_trans (Nat.le_of_eq ?_) (Nat.le_add_right ..)
    exact rewrites_congr hmarks fun _ => rfl
  · have hle : (g.counted w (g.memory.storeWidth width addr value)).rewrites a ≤
        g.rewrites a + (span width addr).count a :=
      rewrites_set hlt (v := { g.code.watches.watch w with
        countdown := (g.code.watches.watch w).countdown - 1 }) (fun _ => rfl) hstays
        fun _ => Nat.le_add_right ..
    rw [heq]
    split
    · refine Nat.le_trans (rewrites_releaseWatch ?_) hle
      rw [counted, Watches.capacity_set]
      exact hlt
    · exact hle

/-- **A write within a page adds at most one to the count of a byte that it changes,**
and nothing to that of another. -/
theorem rewrites_writeWithin {width : Width} {addr : UInt32}
    (hc : crossesPage width addr = false) (value : UInt32) (running : Option BlockId)
    (a : UInt32) :
    (g.writeWithin width addr value running).2.rewrites a ≤
      g.rewrites a + (g.memory.changedBy width addr value).count a := by
  by_cases hstored : (g.memory.accepts addr &&
      g.memory.readWidth width addr ≠ width.truncate value) = true
  · cases hid : g.memory.watch? (pageOf addr) with
    | none =>
        have hmarks := (Memory.patched_storeWidth hc g.memory (width.truncate value)).marks.watch
        rw [writeWithin_of_unwatched hstored running hid]
        refine Nat.le_trans (Nat.le_of_eq ?_) (Nat.le_add_right ..)
        exact rewrites_congr hmarks fun _ => rfl
    | some w =>
        rw [writeWithin_of_watched hstored running hid, Memory.changedBy_of_within hc,
          if_pos hstored]
        exact h.rewrites_writeWatched hc hid _ running a
  · rcases writeWithin_of_same running hstored with hsame | hsame
    · rw [hsame]
      exact Nat.le_add_right ..
    · rw [hsame]
      exact Nat.le_add_right ..

theorem rewrites_writeBytes (addr value : UInt32) (running : Option BlockId) {n : Nat}
    (hn : n ≤ 4) (a : UInt32) :
    (g.writeBytes addr value running n).2.rewrites a ≤
      g.rewrites a + (g.memory.changedBytes addr value n).count a := by
  induction n with
  | zero => exact Nat.le_add_right ..
  | succ n ih =>
      have hfirst := ih (Nat.le_of_succ_le hn)
      obtain ⟨hc, freed, hfreed⟩ := h.freed_writeBytes addr value running (Nat.le_of_succ_le hn)
      have hbyte := hc.rewrites_writeWithin (crossesPage_byte (addr + n.toUInt32))
        (byteAt value n).toUInt32 running a
      rw [Memory.changedBy_byte, hfreed.accepts,
        hfreed.read _ (g.memory.add_not_mem_changedBytes addr value hn)] at hbyte
      rw [writeBytes_succ, Memory.changedBytes_succ, List.count_append]
      exact Nat.le_trans hbyte (by omega)

/-- **A write adds at most one to the count of a byte for each time that it changes
it.** -/
theorem rewrites_write (width : Width) (addr value : UInt32) (running : Option BlockId)
    (a : UInt32) :
    (g.write width addr value running).2.rewrites a ≤
      g.rewrites a + (g.memory.changedBy width addr value).count a := by
  cases hc : crossesPage width addr with
  | false =>
      rw [write_of_within g hc]
      exact h.rewrites_writeWithin hc value running a
  | true =>
      rw [write_of_crosses g hc, Memory.changedBy, if_pos hc]
      exact h.rewrites_writeBytes addr value running width.bytes_le a

/-! ## All else -/

theorem rewrites_invalidateRange (start stop : UInt32) (running : Option BlockId) (a : UInt32) :
    (g.invalidate start stop running).2.2.rewrites a = g.rewrites a :=
  rewrites_congr (fun _ => by rw [g.memory_invalidate])
    (h.strips_invalidateRange start stop running).changes

theorem rewrites_discard {code : CodeStore} {b : BlockId} (hd : g.code.discard b = .ok code)
    (a : UInt32) : ({ g with code } : GuardedMemory).rewrites a = g.rewrites a :=
  rewrites_congr (fun _ => rfl) (h.store.indexed.filed.strips_discard hd).changes

theorem rewrites_install {id : WatchId} (hid : id ∈ g.code.watches.free) (page : Nat)
    (a : UInt32) : (g.installWatch id page).rewrites a ≤ g.rewrites a := by
  have hlt := (h.store.indexed.pooled id).mp (List.mem_append_left _ hid)
  cases hw : (g.installWatch id page).memory.watch? (pageOf a) with
  | none =>
      rw [rewrites_of_unwatched hw]
      exact Nat.zero_le _
  | some x =>
      have hwatch : (g.installWatch id page).code.watches.watch x =
          if id = x then .fresh page (g.code.watches.watch id).delay else g.code.watches.watch x :=
        Watches.watch_set _ _ _ _ hlt
      rw [rewrites_of_watch? hw, hwatch]
      split
      · exact Nat.zero_le _
      · next hne =>
          have hwas : (g.memory.setWatch page (some id)).watch? (pageOf a) = some x := hw
          rw [Memory.watch?_setWatch] at hwas
          split at hwas
          · exact absurd (Option.some.inj hwas) hne
          · exact Nat.le_of_eq (rewrites_of_watch? hwas).symm

theorem rewrites_clearWatch {id : WatchId} (hid : id ∈ g.code.watches.used) (a : UInt32) :
    (g.clearWatch id).rewrites a ≤ g.rewrites a := by
  rw [clearWatch_of_lt (h.lt_capacity hid)]
  exact rewrites_releaseWatch (g := g) (h.lt_capacity hid)

theorem rewrites_watchPage {page : Nat} {id : WatchId} {g' : GuardedMemory}
    (hw : g.watchPage page = .ok (some id, g')) (a : UInt32) : g'.rewrites a ≤ g.rewrites a := by
  rcases h.watchPage_cases hw with
    ⟨_, rfl⟩ | ⟨_, ⟨rest, hfree⟩, rfl⟩ | ⟨_, _, ⟨rest, hused⟩, rfl⟩
  · exact Nat.le_refl _
  · exact h.rewrites_install (hfree ▸ List.mem_cons_self) page a
  · have hin : id ∈ g.code.watches.used := hused ▸ List.mem_cons_self
    exact Nat.le_trans ((h.clearWatch hin).rewrites_install List.mem_cons_self page a)
      (h.rewrites_clearWatch hin a)

end Coherent

end GuardedMemory

end Recompiler
