import Recompiler.Host.Machine

/-!
# What a run depends on

Operations see the world through helpers only, and a list of operations that
reads no register before it has set it does not care what registers held before.
So two runs of such a list from the same context, in worlds whose helpers answer
alike, end alike.  And a list that sets the handle before each call, from a
context that holds it, breaks nothing.
-/

namespace Recompiler

/-! ## Registers set before they are read -/

/-- What the host holds besides context and world. -/
inductive Part where
  | role (r : Role)
  | flags
  | param (p : Fin 4)
  | handle
  deriving DecidableEq

theorem Part.param_lt (p : Fin 4) : p.val < 4 := p.isLt

theorem Part.address_lt : 1 < 4 := by decide

theorem Part.value_lt : 2 < 4 := by decide

namespace Operation

/-- The parts an operation reads.  A helper finds the handle in the first
parameter, the address it is called with in the second, the value in the
third. -/
def needs : Operation → List Part
  | move _ src | storeContext src _ _ | paramRole _ src => [.role src]
  | alu _ dst src => [.role dst, .role src]
  | aluImm _ r _ | shlImm r _ => [.role r]
  | unary _ r => [.flags, .role r]
  | saveFlags _ => [.flags]
  | call (.helper .read32) => [.handle, .param ⟨1, Part.address_lt⟩]
  | call (.helper (.write _)) =>
      [.handle, .param ⟨1, Part.address_lt⟩, .param ⟨2, Part.value_lt⟩]
  | branch (.nonZero r) _ | branch (.lessOrEqualZero r) _ => [.role r]
  | branch (.guest _) _ => [.flags]
  | _ => []

/-- The parts an operation sets, whatever they were. -/
def gives : Operation → List Part
  | move dst _ | moveImm dst _ | loadContext dst _ _ => [.role dst]
  | alu _ _ _ | aluImm _ _ _ | loadFlags _ => [.flags]
  | paramRole p _ | paramImm p _ => [.param p]
  | paramPointer p offset => if p.val = 0 ∧ offset = Field.owner then [.handle] else []
  | call (.helper _) => [.role .ret]
  | _ => []

/-- Whether an operation puts something else where the handle goes. -/
def spoils : Operation → Bool
  | paramRole p _ | paramImm p _ => p.val = 0
  | paramPointer p offset => p.val = 0 ∧ offset ≠ Field.owner
  | call (.helper _) => true
  | _ => false

/-- What is known after an operation.  Nothing is known at a label: a branch may
have led there. -/
def known (op : Operation) (before : List Part) : List Part :=
  match op with
  | place _ => []
  | op => op.gives ++ if op.spoils then before.filter (· ≠ .handle) else before

theorem known_subset (op : Operation) (before : List Part) :
    op.known before ⊆ op.gives ++ before := by
  have hrest : op.gives ++ (if op.spoils then before.filter (· ≠ .handle) else before) ⊆
      op.gives ++ before := by
    refine List.append_subset.mpr ⟨List.subset_append_left .., fun p hp => ?_⟩
    refine List.mem_append_right _ ?_
    split at hp
    · exact (List.mem_filter.mp hp).1
    · exact hp
  cases op with
  | place _ => exact List.nil_subset _
  | _ => exact hrest

theorem known_mono (op : Operation) {before before' : List Part} (h : before ⊆ before') :
    op.known before ⊆ op.known before' := by
  have hrest : op.gives ++ (if op.spoils then before.filter (· ≠ .handle) else before) ⊆
      op.gives ++ if op.spoils then before'.filter (· ≠ .handle) else before' := by
    refine List.append_subset.mpr ⟨List.subset_append_left .., fun p hp => ?_⟩
    refine List.mem_append_right _ ?_
    split at hp
    · next hs =>
        rw [if_pos hs]
        exact List.mem_filter.mpr ⟨h (List.mem_filter.mp hp).1, (List.mem_filter.mp hp).2⟩
    · next hs =>
        rw [if_neg hs]
        exact h hp
  cases op with
  | place _ => exact List.nil_subset _
  | _ => exact hrest

end Operation

/-- Whether operations read no part that is neither known nor set before. -/
def settled : List Part → List Operation → Bool
  | _, [] => true
  | before, op :: rest => op.needs.all (· ∈ before) && settled (op.known before) rest

theorem settled_mono {before before' : List Part} {ops : List Operation}
    (hs : settled before ops = true) (hsub : before ⊆ before') : settled before' ops = true := by
  induction ops generalizing before before' with
  | nil => rfl
  | cons op rest ih =>
      rw [settled, Bool.and_eq_true, List.all_eq_true] at hs ⊢
      exact ⟨fun p hp => decide_eq_true (hsub (of_decide_eq_true (hs.1 p hp))),
        ih hs.2 (op.known_mono hsub)⟩

theorem settled_append {before : List Part} {xs ys : List Operation}
    (hx : settled before xs = true) (hy : settled [] ys = true) :
    settled before (xs ++ ys) = true := by
  induction xs generalizing before with
  | nil => exact settled_mono hy (List.nil_subset _)
  | cons op rest ih =>
      rw [settled, Bool.and_eq_true] at hx
      rw [List.cons_append, settled, Bool.and_eq_true]
      exact ⟨hx.1, ih hx.2⟩

variable {σ τ : Type}

/-! ## States that are alike -/

/-- Helpers that answer alike in related worlds, and leave them related. -/
structure Helpers.Alike (h : Helpers σ) (k : Helpers τ) (R : σ → τ → Prop) : Prop where
  read : ∀ w v addr, R w v → h.read w addr = k.read v addr
  write : ∀ w v running width addr value, R w v →
    R (h.write w running width addr value).1 (k.write v running width addr value).1 ∧
      (h.write w running width addr value).2 = (k.write v running width addr value).2
  clobber : ∀ w v, R w v → h.clobber w = k.clobber v

def HostState.Agree (s : HostState σ) (t : HostState τ) : Part → Prop
  | .role r => s.roles.get r = t.roles.get r
  | .flags => s.flags = t.flags
  | .param p => getElem s.params p (Part.param_lt p) = getElem t.params p (Part.param_lt p)
  | .handle => s.handle = t.handle

/-- States of one context in related worlds that have the known parts in
common. -/
structure HostState.Alike (R : σ → τ → Prop) (known : List Part) (s : HostState σ)
    (t : HostState τ) : Prop where
  parts : ∀ p ∈ known, s.Agree t p
  context : s.context = t.context
  world : R s.world t.world
  broken : s.broken = t.broken

/-- Outcomes of the same kind, of one context and in related worlds. -/
def Outcome.Alike (R : σ → τ → Prop) : Outcome σ → Outcome τ → Prop
  | .returned c s, .returned d t => c = d ∧ s.Alike R [] t
  | .jumped a s, .jumped b t => a = b ∧ s.Alike R [] t
  | .lost, .lost => True
  | _, _ => False

theorem Outcome.Alike.returned {R : σ → τ → Prop} {code : UInt32} {s : HostState σ}
    {o : Outcome τ} (h : (Outcome.returned code s).Alike R o) :
    ∃ t, o = .returned code t ∧ s.Alike R [] t := by
  cases o with
  | returned d t => exact ⟨t, by rw [h.1], h.2⟩
  | jumped _ _ | lost => cases h

theorem Outcome.Alike.jumped {R : σ → τ → Prop} {slot : HostAddress} {s : HostState σ}
    {o : Outcome τ} (h : (Outcome.jumped slot s).Alike R o) :
    ∃ t, o = .jumped slot t ∧ s.Alike R [] t := by
  cases o with
  | jumped b t => exact ⟨t, by rw [h.1], h.2⟩
  | returned _ _ | lost => cases h

namespace HostState.Alike

variable {R : σ → τ → Prop} {known : List Part} {s : HostState σ} {t : HostState τ}
  (h : s.Alike R known t)

include h

theorem mono {known' : List Part} (hk : known' ⊆ known) : s.Alike R known' t :=
  ⟨fun p hp => h.parts p (hk hp), h.context, h.world, h.broken⟩

theorem role {r : Role} (hr : .role r ∈ known) : s.roles.get r = t.roles.get r := h.parts _ hr

theorem setRole (r : Role) (v : UInt32) :
    (s.setRole r v).Alike R (.role r :: known) (t.setRole r v) := by
  refine ⟨fun p hp => ?_, h.context, h.world, h.broken⟩
  have hrest : p ∈ known → (s.setRole r v).Agree (t.setRole r v) p := fun hp => by
    have := h.parts p hp
    cases p with
    | role q =>
        show (s.roles.set v r).get q = (t.roles.set v r).get q
        rw [Roles.get_set, Roles.get_set, show s.roles.get q = t.roles.get q from this]
    | flags | param _ | handle => exact this
  rcases List.mem_cons.mp hp with rfl | hp
  · show (s.roles.set v r).get r = (t.roles.set v r).get r
    rw [Roles.get_set, Roles.get_set, if_pos rfl, if_pos rfl]
  · exact hrest hp

theorem setFlags (flags : Flags) :
    ({ s with flags } : HostState σ).Alike R (.flags :: known) { t with flags } := by
  refine ⟨fun p hp => ?_, h.context, h.world, h.broken⟩
  cases p with
  | flags => rfl
  | role _ | param _ | handle => exact h.parts _ ((List.mem_cons.mp hp).resolve_left nofun)

theorem combined (op : AluOp) (dst : Role) (hdst : s.roles.get dst = t.roles.get dst)
    {x y : UInt32} (hxy : x = y) :
    ({ s with
      roles := if op.keepsResult then s.roles.set (op.result (s.roles.get dst) x) dst else s.roles
      flags := op.flags (s.roles.get dst) x } : HostState σ).Alike R (.flags :: known)
    { t with
      roles := if op.keepsResult then t.roles.set (op.result (t.roles.get dst) y) dst else t.roles
      flags := op.flags (t.roles.get dst) y } := by
  rw [hdst, hxy]
  split
  · exact ((h.setFlags (op.flags (t.roles.get dst) y)).setRole dst
      (op.result (t.roles.get dst) y)).mono (List.subset_cons_self ..)
  · exact h.setFlags _

theorem setParam (n : Fin 4) (v : UInt32) :
    (s.setParam n v).Alike R (.param n :: known) (t.setParam n v) := by
  refine ⟨fun p hp => ?_, h.context, h.world, h.broken⟩
  cases p with
  | param m =>
      show (s.params.set n v)[m.val] = (t.params.set n v)[m.val]
      rw [Vector.getElem_set, Vector.getElem_set]
      split
      · rfl
      · next hne =>
          refine h.parts (.param m) ((List.mem_cons.mp hp).resolve_left fun he => hne ?_)
          cases he
          rfl
  | handle =>
      have hh : s.handle = t.handle :=
        h.parts .handle ((List.mem_cons.mp hp).resolve_left fun he => by cases he)
      show (_ && s.handle) = (_ && t.handle)
      rw [hh]
  | role _ | flags => exact h.parts _ ((List.mem_cons.mp hp).resolve_left fun he => by cases he)

/-- A parameter taken from the context is the same for both. -/
theorem setPointer {h' : Helpers σ} {k : Helpers τ} (n : Fin 4) (offset : UInt32) :
    (s.step h' (.paramPointer n offset)).Alike R ((Operation.paramPointer n offset).gives ++ known)
      (t.step k (.paramPointer n offset)) := by
  refine ⟨fun p hp => ?_, h.context, h.world, h.broken⟩
  have hnew : p ∈ (Operation.paramPointer n offset).gives → p = .handle ∧ n.val = 0 := fun hp => by
    have hp : p ∈ if n.val = 0 ∧ offset = Field.owner then [Part.handle] else [] := hp
    split at hp
    · next hn => exact ⟨List.mem_singleton.mp hp, hn.1⟩
    · cases hp
  cases p with
  | handle =>
      show (if n.val = 0 then (offset = Field.owner && s.context.owner : Bool) else s.handle) =
        if n.val = 0 then (offset = Field.owner && t.context.owner : Bool) else t.handle
      rw [h.context]
      split
      · rfl
      · next hn =>
          exact h.parts .handle ((List.mem_append.mp hp).resolve_left fun hp => hn (hnew hp).2)
  | role _ | flags | param _ =>
      refine h.parts _ ((List.mem_append.mp hp).resolve_left fun hp => ?_)
      cases (hnew hp).1

theorem setContext (context : Context) :
    ({ s with context } : HostState σ).Alike R known { t with context } :=
  ⟨h.parts, rfl, h.world, h.broken⟩

theorem brokenByCall (hh : .handle ∈ known) : s.brokenByCall = t.brokenByCall := by
  have hh : s.handle = t.handle := h.parts .handle hh
  unfold HostState.brokenByCall
  rw [hh, h.broken]

omit h in
theorem called (h : s.Alike R known t) (roles : Roles) (flags : Flags) {w : σ} {v : τ} (hw : R w v)
    {b : Option Corruption} :
    ({ s with roles, flags, world := w, handle := false, broken := b } : HostState σ).Alike R
      (.role .ret :: known) { t with roles, flags, world := v, handle := false, broken := b } := by
  refine ⟨fun p hp => ?_, h.context, hw, rfl⟩
  cases p with
  | role _ | flags | handle => rfl
  | param _ => exact h.parts _ ((List.mem_cons.mp hp).resolve_left nofun)

end HostState.Alike

namespace HostState

variable {R : σ → τ → Prop} {h : Helpers σ} {k : Helpers τ}

theorem Alike.call (hk : h.Alike k R) {known : List Part} {s : HostState σ} {t : HostState τ}
    (hst : s.Alike R known t) {f : Helper} (hn : (Operation.call (.helper f)).needs ⊆ known) :
    (s.call h f).Alike R (.role .ret :: known) (t.call k f) := by
  have hparam : ∀ {n}, .param n ∈ (Operation.call (.helper f)).needs → s.params[n] = t.params[n] :=
    fun hp => hst.parts _ (hn hp)
  cases f with
  | read32 =>
      have haddr : s.params[1] = t.params[1] :=
        hparam (n := 1) (List.mem_cons_of_mem _ (List.mem_singleton.mpr rfl))
      have hb := hst.brokenByCall (hn List.mem_cons_self)
      have hr := hk.read s.world t.world t.params[1] hst.world
      have hc := hk.clobber s.world t.world hst.world
      have hcall : s.call h .read32 = { s with
          roles := { (k.clobber t.world).1 with ret := k.read t.world t.params[1] }
          flags := (k.clobber t.world).2
          handle := false
          broken := t.brokenByCall } := by
        rw [← hc, ← hr, ← haddr, ← hb]
        rfl
      rw [hcall]
      exact hst.called _ _ hst.world
  | write width =>
      have haddr : s.params[1] = t.params[1] :=
        hparam (n := 1) (List.mem_cons_of_mem _ List.mem_cons_self)
      have hvalue : s.params[2] = t.params[2] :=
        hparam (n := 2) (List.mem_cons_of_mem _ (List.mem_cons_of_mem _
          (List.mem_singleton.mpr rfl)))
      have hb := hst.brokenByCall (hn List.mem_cons_self)
      obtain ⟨hw, hit⟩ := hk.write s.world t.world t.context.running width t.params[1] t.params[2]
        hst.world
      have hc := hk.clobber _ _ hw
      have hcall : s.call h (.write width) = { s with
          roles := { (k.clobber (k.write t.world t.context.running width t.params[1]
            t.params[2]).1).1 with
              ret := if (k.write t.world t.context.running width t.params[1] t.params[2]).2
                then 1 else 0 }
          flags := (k.clobber (k.write t.world t.context.running width t.params[1] t.params[2]).1).2
          world := (h.write s.world t.context.running width t.params[1] t.params[2]).1
          handle := false
          broken := t.brokenByCall } := by
        rw [← hc, ← hit, ← haddr, ← hvalue, ← hst.context, ← hb]
        rfl
      rw [hcall]
      exact hst.called _ _ hw

theorem Alike.step (hk : h.Alike k R) {known : List Part} {s : HostState σ} {t : HostState τ}
    (hst : s.Alike R known t) {op : Operation} (hn : op.needs ⊆ known) :
    (s.step h op).Alike R (op.gives ++ known) (t.step k op) := by
  have hrole : ∀ {r}, .role r ∈ op.needs → s.roles.get r = t.roles.get r :=
    fun hr => hst.role (hn hr)
  cases op with
  | move dst src =>
      show (s.setRole dst (s.roles.get src)).Alike R _ _
      rw [hrole (List.mem_singleton.mpr rfl)]
      exact hst.setRole dst _
  | moveImm dst imm => exact hst.setRole dst imm
  | loadContext dst offset width =>
      show (s.setRole dst (s.context.load offset width)).Alike R _ _
      rw [hst.context]
      exact hst.setRole dst _
  | storeContext src offset width =>
      show ({ s with context := s.context.store offset width (s.roles.get src) } :
        HostState σ).Alike R _ _
      rw [hst.context, hrole (List.mem_singleton.mpr rfl)]
      exact hst.setContext _
  | storeContextImm offset imm =>
      show ({ s with context := s.context.store offset .long imm } : HostState σ).Alike R _ _
      rw [hst.context]
      exact hst.setContext _
  | subContextImm offset imm =>
      show ({ s with
        context := s.context.store offset .long (s.context.load offset .long - imm) } :
          HostState σ).Alike R _ _
      rw [hst.context]
      exact hst.setContext _
  | alu op dst src =>
      have hdst := hrole (r := dst) List.mem_cons_self
      have hsrc := hrole (r := src) (List.mem_cons_of_mem _ (List.mem_singleton.mpr rfl))
      exact hst.combined op dst hdst hsrc
  | aluImm op dst imm => exact hst.combined op dst (hrole (List.mem_singleton.mpr rfl)) rfl
  | unary op r =>
      have hf : s.flags = t.flags := hst.parts .flags (hn List.mem_cons_self)
      have hr := hrole (r := r) (List.mem_cons_of_mem _ (List.mem_singleton.mpr rfl))
      show (({ s with flags := op.flags s.flags (s.roles.get r) } : HostState σ).setRole r
        (op.result (s.roles.get r))).Alike R _ _
      rw [hf, hr]
      exact ((hst.setFlags _).setRole r _).mono
        fun p hp => List.mem_cons_of_mem _ (List.mem_cons_of_mem _ hp)
  | shlImm r amount =>
      show (s.setRole r (s.roles.get r <<< amount.toUInt32)).Alike R _ _
      rw [hrole (List.mem_singleton.mpr rfl)]
      exact (hst.setRole r _).mono (List.subset_cons_self ..)
  | saveFlags offset =>
      have hf : s.flags = t.flags := hst.parts .flags (hn (List.mem_singleton.mpr rfl))
      have hword : s.flags.into (s.context.load offset .long) =
          t.flags.into (t.context.load offset .long) := by rw [hst.context, hf]
      show ({ s with
        context := s.context.store offset .long (s.flags.into (s.context.load offset .long)) } :
          HostState σ).Alike R _ _
      rw [hword, hst.context]
      exact hst.setContext _
  | loadFlags offset =>
      have hword : Flags.ofWord (s.context.load offset .long) =
          .ofWord (t.context.load offset .long) := by rw [hst.context]
      show ({ s with flags := .ofWord (s.context.load offset .long) } : HostState σ).Alike R _ _
      rw [hword]
      exact hst.setFlags _
  | paramRole n src =>
      show (s.setParam n (s.roles.get src)).Alike R _ _
      rw [hrole (List.mem_singleton.mpr rfl)]
      exact hst.setParam n _
  | paramImm n imm => exact hst.setParam n imm
  | paramPointer n offset => exact hst.setPointer n offset
  | call target =>
      cases target with
      | helper f => exact hst.call hk hn
      | absolute _ | exitSlot _ _ => exact hst
  | _ => exact hst

theorem Alike.takes {known : List Part} {s : HostState σ} {t : HostState τ}
    (hst : s.Alike R known t) {cond : BranchCondition} {label : Nat}
    (hn : (Operation.branch cond label).needs ⊆ known) : s.takes cond = t.takes cond := by
  cases cond with
  | always => rfl
  | nonZero r | lessOrEqualZero r =>
      have hr := hst.role (hn (List.mem_singleton.mpr rfl))
      simp only [HostState.takes, hr]
  | guest cond =>
      have hf : s.flags = t.flags := hst.parts .flags (hn (List.mem_singleton.mpr rfl))
      simp only [HostState.takes, hf]

/-- **A settled run** from states alike ends alike.  While a label is sought
nothing need be known, since nothing is at the label. -/
theorem Alike.run (hk : h.Alike k R) {known : List Part} {s : HostState σ} {t : HostState τ}
    (sought : Option Nat) {ops : List Operation} (hs : settled known ops = true)
    (hst : s.Alike R (if sought.isSome then [] else known) t) :
    (s.run h sought ops).Alike R (t.run k sought ops) := by
  induction ops generalizing s t sought known with
  | nil => trivial
  | cons op rest ih =>
      rw [settled, Bool.and_eq_true, List.all_eq_true] at hs
      obtain ⟨hn, hs⟩ := hs
      have hn : op.needs ⊆ known := fun p hp => of_decide_eq_true (hn p hp)
      cases sought with
      | some label =>
          refine ih _ hs (hst.mono ?_)
          by_cases hop : op = .place label
          · rw [if_pos hop, hop]
            exact List.nil_subset _
          · rw [if_neg hop]
            exact List.nil_subset _
      | none =>
          have hstep := (hst.step hk hn).mono (op.known_subset known)
          cases op with
          | leave code => exact ⟨rfl, (hst.setRole .ret code.word).mono (List.nil_subset _)⟩
          | jumpThrough slot => exact ⟨rfl, hst.mono (List.nil_subset _)⟩
          | branch cond label =>
              show (s.run h (if s.takes cond then some label else none) rest).Alike R
                (t.run k (if t.takes cond then some label else none) rest)
              rw [hst.takes hn]
              cases t.takes cond with
              | true => exact ih (some label) hs (hst.mono (List.nil_subset _))
              | false => exact ih none hs hst
          | enter | literal _ => trivial
          | place label => exact ih none hs (hst.mono (List.nil_subset _))
          | call target =>
              cases target with
              | helper f => exact ih none hs hstep
              | absolute _ | exitSlot _ _ => trivial
          | _ => exact ih none hs hstep

end HostState

/-! ## Calls that pass the handle -/

@[simp] theorem Context.owner_store (c : Context) (offset : UInt32) (width : Width) (v : UInt32) :
    (c.store offset width v).owner = c.owner := by
  unfold Context.store Context.setWord
  simp only
  repeat' split
  all_goals rfl

/-- A state in which nothing is broken: the handle is at hand, and is the first
parameter where that is known. -/
structure HostState.Owned (known : List Part) (s : HostState σ) : Prop where
  owner : s.context.owner = true
  handle : .handle ∈ known → s.handle = true
  broken : s.broken = none

def Outcome.Owned : Outcome σ → Prop
  | .returned _ s | .jumped _ s => s.Owned []
  | .lost => True

namespace HostState.Owned

variable {known : List Part} {s : HostState σ} (hs : s.Owned known)

include hs

theorem mono {known' : List Part} (hk : known' ⊆ known) : s.Owned known' :=
  ⟨hs.owner, fun hp => hs.handle (hk hp), hs.broken⟩

theorem setRole (r : Role) (v : UInt32) : (s.setRole r v).Owned known :=
  ⟨hs.owner, hs.handle, hs.broken⟩

theorem setParam (n : Fin 4) (v : UInt32) :
    (s.setParam n v).Owned
      (.param n :: if decide (n.val = 0) then known.filter (· ≠ .handle) else known) := by
  refine ⟨hs.owner, fun hp => ?_, hs.broken⟩
  show (decide (n.val ≠ 0) && s.handle) = true
  have hp := (List.mem_cons.mp hp).resolve_left nofun
  split at hp
  · exact absurd rfl (of_decide_eq_true (List.mem_filter.mp hp).2)
  · next hn =>
      have hn : n.val ≠ 0 := fun h0 => hn (decide_eq_true h0)
      rw [hs.handle hp, decide_eq_true hn, Bool.and_self]

theorem setPointer {h : Helpers σ} (n : Fin 4) (offset : UInt32) :
    (s.step h (.paramPointer n offset)).Owned ((Operation.paramPointer n offset).known known) := by
  refine ⟨hs.owner, fun hp => ?_, hs.broken⟩
  show (if n.val = 0 then (offset = Field.owner && s.context.owner : Bool) else s.handle) = true
  rw [hs.owner]
  by_cases hn : n.val = 0
  · by_cases ho : offset = Field.owner
    · rw [if_pos hn, decide_eq_true ho, Bool.and_self]
    · simp [Operation.known, Operation.gives, Operation.spoils, hn, ho] at hp
  · rw [if_neg hn]
    simp [Operation.known, Operation.gives, Operation.spoils, hn] at hp
    exact hs.handle hp

theorem call {h : Helpers σ} (hh : .handle ∈ known) (f : Helper) :
    (s.call h f).Owned (.role .ret :: known.filter (· ≠ .handle)) := by
  have hb : s.brokenByCall = none := by rw [brokenByCall, if_pos (hs.handle hh), hs.broken]
  have hgone : Part.handle ∉ Part.role .ret :: known.filter (· ≠ .handle) := by simp
  cases f with
  | read32 | write _ => exact ⟨hs.owner, fun hp => absurd hp hgone, hb⟩

/-- A state that differs in nothing of this, after an operation that does not
install the handle. -/
theorem of_eq {t : HostState σ} {op : Operation} (hg : .handle ∉ op.gives)
    (ho : t.context.owner = s.context.owner) (hh : t.handle = s.handle)
    (hb : t.broken = s.broken) : t.Owned (op.known known) := by
  refine ⟨ho.trans hs.owner, fun hp => ?_, hb.trans hs.broken⟩
  exact hh.trans (hs.handle ((List.mem_append.mp (op.known_subset known hp)).resolve_left hg))

theorem step {h : Helpers σ} {op : Operation} (hn : op.needs ⊆ known) :
    (s.step h op).Owned (op.known known) := by
  cases op with
  | paramRole n src => exact hs.setParam n _
  | paramImm n imm => exact hs.setParam n imm
  | paramPointer n offset => exact hs.setPointer n offset
  | call target =>
      cases target with
      | helper f =>
          have hh : Part.handle ∈ known := hn (by cases f <;> exact List.mem_cons_self)
          exact hs.call hh f
      | absolute _ | exitSlot _ _ => exact hs
  | storeContext _ _ _ | storeContextImm _ _ | subContextImm _ _ | saveFlags _ =>
      exact hs.of_eq nofun (Context.owner_store ..) rfl rfl
  | _ => exact hs.of_eq nofun rfl rfl rfl

end HostState.Owned

/-- **A settled run passes the handle to all that it calls.** -/
theorem HostState.Owned.run {h : Helpers σ} {known : List Part} {s : HostState σ}
    (sought : Option Nat) {ops : List Operation} (hops : settled known ops = true)
    (hs : s.Owned (if sought.isSome then [] else known)) : (s.run h sought ops).Owned := by
  induction ops generalizing s sought known with
  | nil => trivial
  | cons op rest ih =>
      rw [settled, Bool.and_eq_true, List.all_eq_true] at hops
      obtain ⟨hn, hops⟩ := hops
      have hn : op.needs ⊆ known := fun p hp => of_decide_eq_true (hn p hp)
      cases sought with
      | some label =>
          refine ih _ hops ⟨hs.owner, fun hp => ?_, hs.broken⟩
          by_cases hop : op = .place label
          · rw [if_pos hop, hop] at hp
            cases hp
          · rw [if_neg hop] at hp
            cases hp
      | none =>
          have hstep := hs.step (h := h) hn
          cases op with
          | leave code => exact (hs.setRole .ret code.word).mono (List.nil_subset _)
          | jumpThrough slot => exact hs.mono (List.nil_subset _)
          | branch cond label =>
              show (s.run h (if s.takes cond then some label else none) rest).Owned
              cases s.takes cond with
              | true => exact ih (some label) hops (hs.mono (List.nil_subset _))
              | false => exact ih none hops hs
          | enter | literal _ => trivial
          | call target =>
              cases target with
              | helper f => exact ih none hops hstep
              | absolute _ | exitSlot _ _ => trivial
          | _ => exact ih none hops hstep

/-! ## What writes keep -/

def Outcome.EndsIn (P : σ → Prop) : Outcome σ → Prop
  | .returned _ t | .jumped _ t => P t.world
  | .lost => True

namespace HostState

variable {P : σ → Prop} {h : Helpers σ}
  (hw : ∀ w running width addr value, P w → P (h.write w running width addr value).1)

include hw

theorem world_step {s : HostState σ} (hs : P s.world) (op : Operation) : P (s.step h op).world := by
  cases op with
  | call target =>
      cases target with
      | helper f =>
          cases f with
          | read32 => exact hs
          | write width => exact hw _ _ _ _ _ hs
      | absolute _ | exitSlot _ _ => exact hs
  | _ => exact hs

/-- What every write keeps, a run keeps. -/
theorem endsIn_run {s : HostState σ} (hs : P s.world) (sought : Option Nat)
    (ops : List Operation) : (s.run h sought ops).EndsIn P := by
  induction ops generalizing s sought with
  | nil => trivial
  | cons op rest ih =>
      cases sought with
      | some label => exact ih hs _
      | none =>
          have hstep := ih (world_step hw hs op) none
          cases op with
          | leave _ | jumpThrough _ => exact hs
          | branch cond label => exact ih hs (if s.takes cond then some label else none)
          | enter | literal _ => trivial
          | call target =>
              cases target with
              | helper f => exact hstep
              | absolute _ | exitSlot _ _ => trivial
          | _ => exact hstep

end HostState

end Recompiler
