/-!
# Readers of bytes

A reader is a decision tree over the bytes that follow: it asks for one byte
at a time and at last gives an answer.  So an answer depends on the bytes that
were read and on no other, which `run_append` states for every reader at once.
-/

namespace Recompiler

/-- A reader that answers with an `α`. -/
inductive ByteReader (α : Type) where
  | done (answer : α)
  | next (branch : UInt8 → ByteReader α)

namespace ByteReader

def bind {α β : Type} : ByteReader α → (α → ByteReader β) → ByteReader β
  | done a, f => f a
  | next branch, f => next fun b => (branch b).bind f

instance : Monad ByteReader where
  pure := done
  bind := bind

def byte : ByteReader UInt8 := next done

def bytes : Nat → ByteReader (List UInt8)
  | 0 => pure []
  | n + 1 => do
      let b ← byte
      let rest ← bytes n
      return b :: rest

/-- Reads from the front of a list; `none` if the bytes run out. -/
def run {α : Type} : ByteReader α → List UInt8 → Option (α × List UInt8)
  | done a, bs => some (a, bs)
  | next _, [] => none
  | next branch, b :: bs => (branch b).run bs

/-- **An answer depends on the bytes read alone.**  What a reader leaves is
the end of what it was given, and before any other end it answers the same. -/
theorem run_append {α : Type} {r : ByteReader α} {bs rest : List UInt8} {a : α}
    (h : r.run bs = some (a, rest)) :
    ∃ used, bs = used ++ rest ∧
      ∀ rest', r.run (used ++ rest') = some (a, rest') := by
  induction r generalizing bs with
  | done x =>
      simp only [run, Option.some.injEq, Prod.mk.injEq] at h
      obtain ⟨rfl, rfl⟩ := h
      exact ⟨[], rfl, fun _ => rfl⟩
  | next branch ih =>
      cases bs with
      | nil => simp [run] at h
      | cons b bs =>
          obtain ⟨used, hused, hrun⟩ := ih b h
          exact ⟨b :: used, by rw [hused]; rfl, hrun⟩

end ByteReader

end Recompiler
