/-!
# 32-bit arithmetic with flags

What the arithmetic instructions compute, as functions on words: the result
and the six flags it leaves.  Guest and host are both of the x86 family, so
one account serves either side.  After a logical operation carry, overflow and
adjust are clear.
-/

namespace Recompiler

structure Flags where
  carry : Bool := false
  parity : Bool := false
  adjust : Bool := false
  zero : Bool := false
  sign : Bool := false
  overflow : Bool := false
  deriving DecidableEq, Repr

namespace Flags

def mask : UInt32 := 0x8D5

private def bit (b : Bool) (place : UInt32) : UInt32 := if b then place else 0

def toWord (f : Flags) : UInt32 :=
  bit f.carry 0x1 ||| bit f.parity 0x4 ||| bit f.adjust 0x10 |||
    bit f.zero 0x40 ||| bit f.sign 0x80 ||| bit f.overflow 0x800

def ofWord (w : UInt32) : Flags where
  carry := w &&& 0x1 != 0
  parity := w &&& 0x4 != 0
  adjust := w &&& 0x10 != 0
  zero := w &&& 0x40 != 0
  sign := w &&& 0x80 != 0
  overflow := w &&& 0x800 != 0

/-- A flags word whose arithmetic flags are `f` and whose other bits are
those of `w`. -/
def into (f : Flags) (w : UInt32) : UInt32 := f.toWord ||| (w &&& ~~~mask)

@[simp] theorem ofWord_toWord (f : Flags) : ofWord f.toWord = f := by
  obtain ⟨c, p, a, z, s, o⟩ := f
  revert c p a z s o
  decide

@[simp] theorem ofWord_into (f : Flags) (w : UInt32) :
    ofWord (f.into w) = f := by
  have h : ∀ m : UInt32, m &&& ~~~mask = 0 →
      ∀ x : UInt32, (x ||| (w &&& ~~~mask)) &&& m = x &&& m := by
    intro m hm x
    apply UInt32.toBitVec_inj.mp
    have hb := UInt32.toBitVec_inj.mpr hm
    ext i hi
    have := congrArg (fun v => v[i]) hb
    simp at this ⊢
    grind
  have e : ofWord (f.into w) = ofWord f.toWord := by
    simp only [ofWord, into]
    rw [h 0x1 (by decide), h 0x4 (by decide), h 0x10 (by decide),
      h 0x40 (by decide), h 0x80 (by decide), h 0x800 (by decide)]
  rw [e, ofWord_toWord]

def evenOnes (r : UInt32) : Bool :=
  let x := r ^^^ (r >>> 4)
  let y := x ^^^ (x >>> 2)
  (y ^^^ (y >>> 1)) &&& 1 == 0

def signBit (w : UInt32) : Bool := w &&& 0x80000000 != 0

/-- The flags that depend on the result alone; the others are clear. -/
def ofResult (r : UInt32) : Flags where
  parity := evenOnes r
  zero := r == 0
  sign := signBit r

def ofAdd (a b : UInt32) : Flags :=
  let r := a + b
  { ofResult r with
    carry := r < a
    adjust := (a ^^^ b ^^^ r) &&& 0x10 != 0
    overflow := signBit ((a ^^^ r) &&& (b ^^^ r)) }

def ofSub (a b : UInt32) : Flags :=
  let r := a - b
  { ofResult r with
    carry := a < b
    adjust := (a ^^^ b ^^^ r) &&& 0x10 != 0
    overflow := signBit ((a ^^^ b) &&& (a ^^^ r)) }

end Flags

inductive Condition where
  | overflow | notOverflow
  | below | aboveOrEqual
  | equal | notEqual
  | belowOrEqual | above
  | negative | notNegative
  | parityEven | parityOdd
  | less | greaterOrEqual
  | lessOrEqual | greater
  deriving DecidableEq, Repr

namespace Condition

def all : List Condition :=
  [overflow, notOverflow, below, aboveOrEqual, equal, notEqual, belowOrEqual,
    above, negative, notNegative, parityEven, parityOdd, less, greaterOrEqual,
    lessOrEqual, greater]

/-- The condition with a given number; numbers are taken modulo 16. -/
def ofNumber (n : Nat) : Condition := all.get ⟨n % 16, by
  simp only [all, List.length_cons, List.length_nil]; omega⟩

def number : Condition → Nat
  | overflow => 0
  | notOverflow => 1
  | below => 2
  | aboveOrEqual => 3
  | equal => 4
  | notEqual => 5
  | belowOrEqual => 6
  | above => 7
  | negative => 8
  | notNegative => 9
  | parityEven => 10
  | parityOdd => 11
  | less => 12
  | greaterOrEqual => 13
  | lessOrEqual => 14
  | greater => 15

@[simp] theorem ofNumber_number (c : Condition) : ofNumber c.number = c := by
  cases c <;> rfl

def holds (f : Flags) : Condition → Bool
  | overflow => f.overflow
  | notOverflow => !f.overflow
  | below => f.carry
  | aboveOrEqual => !f.carry
  | equal => f.zero
  | notEqual => !f.zero
  | belowOrEqual => f.carry || f.zero
  | above => !(f.carry || f.zero)
  | negative => f.sign
  | notNegative => !f.sign
  | parityEven => f.parity
  | parityOdd => !f.parity
  | less => f.sign != f.overflow
  | greaterOrEqual => f.sign == f.overflow
  | lessOrEqual => f.zero || f.sign != f.overflow
  | greater => !(f.zero || f.sign != f.overflow)

end Condition

inductive AluOp where
  | add | or | and | sub | xor | cmp | test
  deriving DecidableEq, Repr

namespace AluOp

/-- Whether the operation keeps its result; comparisons leave only flags. -/
def keepsResult : AluOp → Bool
  | cmp => false
  | test => false
  | _ => true

def result (a b : UInt32) : AluOp → UInt32
  | add => a + b
  | or => a ||| b
  | and => a &&& b
  | sub => a - b
  | xor => a ^^^ b
  | cmp => a - b
  | test => a &&& b

def flags (a b : UInt32) : AluOp → Flags
  | add => .ofAdd a b
  | sub => .ofSub a b
  | cmp => .ofSub a b
  | or => .ofResult (a ||| b)
  | and => .ofResult (a &&& b)
  | xor => .ofResult (a ^^^ b)
  | test => .ofResult (a &&& b)

end AluOp

inductive UnaryOp where
  | inc | dec
  deriving DecidableEq, Repr

namespace UnaryOp

def result (a : UInt32) : UnaryOp → UInt32
  | inc => a + 1
  | dec => a - 1

/-- The flags an operation leaves: carry stays what it was. -/
def flags (before : Flags) (a : UInt32) : UnaryOp → Flags
  | inc => { Flags.ofAdd a 1 with carry := before.carry }
  | dec => { Flags.ofSub a 1 with carry := before.carry }

end UnaryOp

end Recompiler
