import Recompiler.GuardedMemory
import Recompiler.Proofs.Guest.Word

/-!
# Memory, its bytes and its marks

A write within a page changes bytes of that page only, from the first byte
written to the last; the marks of a page, that is whether it is ROM, barred from
compilation, or under a watch, are changed by no write.  Memory under no watch
is *bare*.
-/

namespace Recompiler

/-! ## Addresses of one page -/

theorem toNat_add_of_lt {addr : UInt32} {i : Nat} (h : (offsetOf addr).val + i < pageSize) :
    (addr + i.toUInt32).toNat = addr.toNat + i := by
  have hlt := pageOf_lt addr
  have heq := pageOf_mul_add_offsetOf addr
  simp only [pageSize, pageLimit] at *
  rw [UInt32.toNat_add, Nat.toUInt32, UInt32.toNat_ofNat', Nat.mod_eq_of_lt (a := i) (by omega)]
  exact Nat.mod_eq_of_lt (by omega)

theorem pageOf_add_of_lt {addr : UInt32} {i : Nat} (h : (offsetOf addr).val + i < pageSize) :
    pageOf (addr + i.toUInt32) = pageOf addr := by
  have heq := pageOf_mul_add_offsetOf addr
  rw [pageOf, toNat_add_of_lt h]
  simp only [pageSize] at *
  omega

theorem offsetOf_add_of_lt {addr : UInt32} {i : Nat} (h : (offsetOf addr).val + i < pageSize) :
    (offsetOf (addr + i.toUInt32)).val = (offsetOf addr).val + i := by
  have heq := pageOf_mul_add_offsetOf addr
  show (addr + i.toUInt32).toNat % pageSize = _
  rw [toNat_add_of_lt h]
  simp only [pageSize] at *
  omega

theorem offsetOf_le {start stop : UInt32} (h : ¬stop < start) (hp : pageOf start = pageOf stop) :
    offsetOf start ≤ offsetOf stop := by
  have h1 := pageOf_mul_add_offsetOf start
  have h2 := pageOf_mul_add_offsetOf stop
  have h3 : start.toNat ≤ stop.toNat := Nat.le_of_not_lt h
  rw [Fin.le_def]
  rw [hp] at h1
  omega

def Page.bare (p : Page) : Page := { p with watch := none, hasCode := false }

namespace Memory

/-! ## Marks -/

/-- A memory whose pages carry the same marks. -/
structure SameMarks (m m' : Memory) : Prop where
  pageCount : m'.pageCount = m.pageCount
  rom : ∀ page, m'.isRom page = m.isRom page
  noCode : ∀ page, m'.isNoCode page = m.isNoCode page
  watch : ∀ page, m'.watch? page = m.watch? page
  hasCode : ∀ page, m'.hasCode page = m.hasCode page

namespace SameMarks

theorem refl (m : Memory) : m.SameMarks m :=
  ⟨rfl, fun _ => rfl, fun _ => rfl, fun _ => rfl, fun _ => rfl⟩

theorem trans {a b c : Memory} (h : a.SameMarks b) (h' : b.SameMarks c) : a.SameMarks c :=
  ⟨h'.pageCount.trans h.pageCount, fun p => (h'.rom p).trans (h.rom p),
    fun p => (h'.noCode p).trans (h.noCode p), fun p => (h'.watch p).trans (h.watch p),
    fun p => (h'.hasCode p).trans (h.hasCode p)⟩

theorem store (m : Memory) (addr : UInt32) (v : UInt8) : m.SameMarks (m.store addr v) := by
  refine ⟨pageCount_modifyPage .., fun n => ?_, fun n => ?_, fun n => ?_, fun n => ?_⟩
  · rw [isRom, isRom, Memory.store, getElem?_modifyPage]
    split <;> cases m.pages[n]? <;> rfl
  · rw [isNoCode, isNoCode, Memory.store, getElem?_modifyPage]
    split <;> cases m.pages[n]? <;> rfl
  · rw [watch?, watch?, Memory.store, getElem?_modifyPage]
    split <;> cases m.pages[n]? <;> rfl
  · rw [Memory.hasCode, Memory.hasCode, Memory.store, getElem?_modifyPage]
    split <;> cases m.pages[n]? <;> rfl

end SameMarks

/-! ## Bytes -/

/-- A memory that differs at most in bytes of one page, from `first` to
`last`. -/
structure Patched (m : Memory) (page : Nat) (first last : Offset) (m' : Memory) : Prop where
  marks : m.SameMarks m'
  bytes : ∀ n p, m.bytes? n = some p → ∃ q, m'.bytes? n = some q ∧
    ∀ i, ¬(n = page ∧ first.val ≤ i ∧ i ≤ last.val) → q[i]? = p[i]?

namespace Patched

variable {page : Nat} {first last : Offset}

theorem refl (m : Memory) : m.Patched page first last m :=
  ⟨.refl m, fun _ p hp => ⟨p, hp, fun _ _ => rfl⟩⟩

theorem trans {a b c : Memory} (h : a.Patched page first last b)
    (h' : b.Patched page first last c) : a.Patched page first last c := by
  refine ⟨h.marks.trans h'.marks, fun n p hp => ?_⟩
  obtain ⟨q, hq, hpq⟩ := h.bytes n p hp
  obtain ⟨r, hr, hqr⟩ := h'.bytes n q hq
  exact ⟨r, hr, fun i hi => (hqr i hi).trans (hpq i hi)⟩

theorem store (m : Memory) {addr : UInt32} (v : UInt8) (hp : pageOf addr = page)
    (h1 : first ≤ offsetOf addr) (h2 : offsetOf addr ≤ last) :
    m.Patched page first last (m.store addr v) := by
  refine ⟨.store m addr v, fun n p hn => ?_⟩
  rw [bytes?, Memory.store, getElem?_modifyPage]
  split
  · next he =>
      obtain ⟨q, hq, rfl⟩ := Option.map_eq_some_iff.mp hn
      rw [hq]
      refine ⟨_, rfl, fun i hi => Vector.getElem?_set_ne (offsetOf addr).isLt fun heq =>
        hi ⟨he.symm.trans hp, ?_, ?_⟩⟩
      · rw [← heq]
        exact h1
      · rw [← heq]
        exact h2
  · exact ⟨p, hn, fun _ _ => rfl⟩

theorem foldl {α : Type} {f : Memory → α → Memory} {xs : List α}
    (hf : ∀ m : Memory, ∀ x ∈ xs, m.Patched page first last (f m x)) (m : Memory) :
    m.Patched page first last (xs.foldl f m) := by
  induction xs generalizing m with
  | nil => exact refl m
  | cons x rest ih =>
      exact (hf m x List.mem_cons_self).trans
        (ih (fun m y hy => hf m y (List.mem_cons_of_mem _ hy)) _)

end Patched

/-- **A write that stays within a page changes that page only,** and only the
bytes written. -/
theorem patched_storeWidth {width : Width} {addr : UInt32}
    (h : GuardedMemory.crossesPage width addr = false) (m : Memory) (value : UInt32) :
    m.Patched (pageOf addr) (offsetOf addr) (GuardedMemory.lastOf (offsetOf addr) width)
      (m.storeWidth width addr value) := by
  rw [GuardedMemory.crossesPage, decide_eq_false_iff_not, Nat.not_lt] at h
  refine Patched.foldl (fun m i hi => ?_) m
  rw [List.mem_range] at hi
  have hlt : (offsetOf addr).val + i < pageSize := by omega
  have hoff := offsetOf_add_of_lt hlt
  refine Patched.store m _ (pageOf_add_of_lt hlt) ?_ ?_
  · rw [Fin.le_def, hoff]
    exact Nat.le_add_right ..
  · rw [Fin.le_def, hoff, GuardedMemory.lastOf]
    simp only
    omega

/-! ## Watches -/

theorem watch?_setWatch (m : Memory) (page : Nat) (w : Option WatchId) (n : Nat) :
    (m.setWatch page w).watch? n = if page = n ∧ n < m.pageCount then w else m.watch? n := by
  rw [watch?, watch?, setWatch, getElem?_modifyPage, pageCount]
  by_cases hp : page = n
  · by_cases hn : n < m.pages.size
    · simp [hp, hn]
    · simp [hp, hn]
  · simp [hp]

theorem hasCode_setWatch (m : Memory) (page : Nat) (w : Option WatchId) (n : Nat) :
    (m.setWatch page w).hasCode n =
      if page = n ∧ n < m.pageCount then w.isSome else m.hasCode n := by
  rw [hasCode, hasCode, setWatch, getElem?_modifyPage, pageCount]
  by_cases hp : page = n
  · by_cases hn : n < m.pages.size
    · simp [hp, hn]
    · simp [hp, hn]
  · simp [hp]

@[simp] theorem bytes?_setWatch (m : Memory) (page : Nat) (w : Option WatchId) (n : Nat) :
    (m.setWatch page w).bytes? n = m.bytes? n := by
  rw [bytes?, bytes?, setWatch, getElem?_modifyPage]
  split
  · cases m.pages[n]? <;> rfl
  · rfl

@[simp] theorem isNoCode_setWatch (m : Memory) (page : Nat) (w : Option WatchId) (n : Nat) :
    (m.setWatch page w).isNoCode n = m.isNoCode n := by
  rw [isNoCode, isNoCode, setWatch, getElem?_modifyPage]
  split
  · cases m.pages[n]? <;> rfl
  · rfl

theorem lt_pageCount_of_watch? {m : Memory} {page : Nat} {id : WatchId}
    (h : m.watch? page = some id) : page < m.pageCount := by
  rw [watch?, Option.bind_eq_some_iff] at h
  obtain ⟨p, hp, _⟩ := h
  exact (Array.getElem?_eq_some_iff.mp hp).1

theorem bytes?_eq_some_of_lt {m : Memory} {page : Nat} (h : page < m.pageCount) :
    ∃ p, m.bytes? page = some p := by
  rw [bytes?, Array.getElem?_eq_getElem h]
  exact ⟨_, rfl⟩

theorem bytes?_eq_none_of_not_contains {m : Memory} {addr : UInt32}
    (h : m.contains addr = false) : m.bytes? (pageOf addr) = none := by
  have hle : m.pageCount ≤ pageOf addr := by
    rw [← Nat.not_lt, ← contains_iff, h]
    exact Bool.false_ne_true
  rw [bytes?, Array.getElem?_eq_none hle]
  rfl

/-! ## Bare memory -/

/-- A memory of which no page is under a watch or marked as under one. -/
structure Unwatched (m : Memory) : Prop where
  watch : ∀ page, m.watch? page = none
  hasCode : ∀ page, m.hasCode page = false

def bare (m : Memory) : Memory := ⟨m.pages.map Page.bare⟩

theorem getElem?_bare (m : Memory) (n : Nat) :
    m.bare.pages[n]? = (m.pages[n]?).map Page.bare :=
  Array.getElem?_map

@[simp] theorem bytes?_bare (m : Memory) (n : Nat) : m.bare.bytes? n = m.bytes? n := by
  rw [bytes?, bytes?, getElem?_bare]
  cases m.pages[n]? <;> rfl

@[simp] theorem isRom_bare (m : Memory) (n : Nat) : m.bare.isRom n = m.isRom n := by
  rw [isRom, isRom, getElem?_bare]
  cases m.pages[n]? <;> rfl

@[simp] theorem isNoCode_bare (m : Memory) (n : Nat) : m.bare.isNoCode n = m.isNoCode n := by
  rw [isNoCode, isNoCode, getElem?_bare]
  cases m.pages[n]? <;> rfl

@[simp] theorem pageCount_bare (m : Memory) : m.bare.pageCount = m.pageCount :=
  Array.size_map

@[simp] theorem read_bare (m : Memory) (addr : UInt32) : m.bare.read addr = m.read addr := by
  rw [read, read, getElem?_bare]
  cases m.pages[pageOf addr]? <;> rfl

@[simp] theorem readWidth_bare (m : Memory) (width : Width) (addr : UInt32) :
    m.bare.readWidth width addr = m.readWidth width addr := by
  simp only [readWidth, read_bare]

theorem bare_modifyPage (m : Memory) (page : Nat) {f g : Page → Page}
    (h : ∀ p, (f p).bare = g p.bare) :
    (m.modifyPage page f).bare = m.bare.modifyPage page g := by
  rw [bare, bare, modifyPage, modifyPage]
  congr 1
  refine Array.ext_getElem? fun i => ?_
  simp only [Array.getElem?_map, Array.getElem?_modify]
  split
  · cases m.pages[i]? with
    | none => rfl
    | some p => exact congrArg some (h p)
  · rfl

@[simp] theorem bare_store (m : Memory) (addr : UInt32) (v : UInt8) :
    (m.store addr v).bare = m.bare.store addr v :=
  bare_modifyPage m _ fun _ => rfl

@[simp] theorem bare_setWatch (m : Memory) (page : Nat) (w : Option WatchId) :
    (m.setWatch page w).bare = m.bare := by
  have hbare : (m.setWatch page w).bare = m.bare.modifyPage page id :=
    bare_modifyPage m page fun _ => rfl
  refine hbare.trans ?_
  rw [modifyPage]
  congr 1
  refine Array.ext_getElem? fun i => ?_
  rw [Array.getElem?_modify]
  split
  · exact congrFun Option.map_id _
  · rfl

theorem bare_foldl {α : Type} {f : Memory → α → Memory}
    (hf : ∀ m x, (f m x).bare = f m.bare x) (xs : List α) (m : Memory) :
    (xs.foldl f m).bare = xs.foldl f m.bare := by
  induction xs generalizing m with
  | nil => rfl
  | cons x rest ih => rw [List.foldl_cons, List.foldl_cons, ih, hf]

@[simp] theorem bare_storeWidth (m : Memory) (width : Width) (addr value : UInt32) :
    (m.storeWidth width addr value).bare = m.bare.storeWidth width addr value := by
  rw [storeWidth, storeWidth]
  exact bare_foldl (fun m i => bare_store m (addr + i.toUInt32) (byteAt value i)) _ m

/-! ## Writes within a page -/

theorem store_read (m : Memory) (addr : UInt32) : m.store addr (m.read addr) = m := by
  rw [store, modifyPage]
  congr 1
  refine Array.ext_getElem? fun i => ?_
  rw [Array.getElem?_modify]
  split
  · next he =>
      rw [read, he]
      cases hp : m.pages[i]? with
      | none => rfl
      | some p => simp
  · rfl

theorem store_of_not_contains {m : Memory} {addr : UInt32} (h : m.contains addr = false)
    (v : UInt8) : m.store addr v = m := by
  have : m.pages.size ≤ pageOf addr := Nat.le_of_not_lt fun hlt => by
    rw [(contains_iff m addr).mpr hlt] at h
    cases h
  rw [store, modifyPage]
  congr 1
  refine Array.ext_getElem? fun i => ?_
  rw [Array.getElem?_modify]
  split
  · next he => rw [← he, Array.getElem?_eq_none this]; rfl
  · rfl

theorem foldl_eq_self {α : Type} {f : Memory → α → Memory} {xs : List α} {m : Memory}
    (h : ∀ x ∈ xs, f m x = m) : xs.foldl f m = m := by
  induction xs with
  | nil => rfl
  | cons x rest ih =>
      rw [List.foldl_cons, h x List.mem_cons_self]
      exact ih fun y hy => h y (List.mem_cons_of_mem _ hy)

theorem foldl_congr {α : Type} {f g : Memory → α → Memory} {xs : List α}
    (h : ∀ x ∈ xs, ∀ m, f m x = g m x) (m : Memory) : xs.foldl f m = xs.foldl g m := by
  induction xs generalizing m with
  | nil => rfl
  | cons x rest ih =>
      rw [List.foldl_cons, List.foldl_cons, h x List.mem_cons_self]
      exact ih (fun y hy => h y (List.mem_cons_of_mem _ hy)) _

theorem storeWidth_truncate (m : Memory) (width : Width) (addr value : UInt32) :
    m.storeWidth width addr (width.truncate value) = m.storeWidth width addr value := by
  refine foldl_congr (fun i hi m => ?_) m
  rw [byteAt_truncate width value (List.mem_range.mp hi)]

theorem writeWidth_truncate (m : Memory) (width : Width) (addr value : UInt32) :
    m.writeWidth width addr (width.truncate value) = m.writeWidth width addr value := by
  refine foldl_congr (fun i hi m => ?_) m
  rw [byteAt_truncate width value (List.mem_range.mp hi)]

theorem storeWidth_readWidth (m : Memory) (width : Width) (addr : UInt32) :
    m.storeWidth width addr (m.readWidth width addr) = m := by
  refine foldl_eq_self fun i hi => ?_
  rw [List.mem_range] at hi
  rw [readWidth, byteAt_ofBytes (by simpa using width.bytes_le) (by simpa using hi)]
  simp only [List.getElem_map, List.getElem_range]
  exact store_read m _

section Within

variable {width : Width} {addr : UInt32}
  (h : GuardedMemory.crossesPage width addr = false)

include h

theorem lt_of_not_crosses {i : Nat} (hi : i ∈ List.range width.bytes) :
    (offsetOf addr).val + i < pageSize := by
  rw [GuardedMemory.crossesPage, decide_eq_false_iff_not, Nat.not_lt] at h
  rw [List.mem_range] at hi
  omega

/-- Writing within a page is storing, unless the page is ROM. -/
theorem writeWidth_of_within (m : Memory) (value : UInt32) :
    m.writeWidth width addr value =
      if m.isRom (pageOf addr) then m else m.storeWidth width addr value := by
  have hpage : ∀ i ∈ List.range width.bytes, pageOf (addr + i.toUInt32) = pageOf addr :=
    fun i hi => pageOf_add_of_lt (lt_of_not_crosses h hi)
  rw [writeWidth, storeWidth]
  split
  · next hrom =>
      refine foldl_eq_self fun i hi => ?_
      rw [write, hpage i hi, if_pos hrom]
  · next hrom =>
      generalize List.range width.bytes = is at hpage
      induction is generalizing m with
      | nil => rfl
      | cons i rest ih =>
          rw [List.foldl_cons, List.foldl_cons, write, hpage i List.mem_cons_self, if_neg hrom]
          refine ih _ ?_ fun j hj => hpage j (List.mem_cons_of_mem _ hj)
          rw [(SameMarks.store m _ _).rom]
          exact hrom

theorem storeWidth_of_not_contains {m : Memory} (hm : m.contains addr = false) (value : UInt32) :
    m.storeWidth width addr value = m := by
  refine foldl_eq_self fun i hi => store_of_not_contains ?_ _
  rw [← Bool.not_eq_true, contains_iff] at hm ⊢
  rw [pageOf_add_of_lt (lt_of_not_crosses h hi)]
  exact hm

end Within

end Memory

end Recompiler
