import FlowGraph.Fault
import FlowGraph.Value.ExtInt

/-!
# Windows and saturating arithmetic

A window `[lo, hi]` is the range of integers that an analysis tells apart.  Every operation
computes its result exactly and then clamps it: what lies above the window becomes `posInf`, and
what lies below becomes `negInf`.  A narrow window leaves few values between the infinities, which
bounds how often a state can grow.

The infinities stand for "some value beyond the window".  A sum of opposite infinities has no
value, zero times an infinity is zero, an integer over an infinity is zero, and an infinity over
an infinity is one unit of the right sign.  `undefined` absorbs everything.
-/

namespace FlowGraph

/-- A range of integers with its ends in order. -/
structure Window where
  /-- The least integer of the window. -/
  lo : Int
  /-- The greatest integer of the window. -/
  hi : Int
  /-- The ends are in order. -/
  lo_le_hi : lo ≤ hi
  deriving DecidableEq

namespace Window

/-! ## Windows -/

/-- The window between two ends, if they are in order. -/
def ofEnds? (lo hi : Int) : Option Window :=
  if h : lo ≤ hi then some ⟨lo, hi, h⟩ else none

/-- The window between two ends that are expected to be in order. -/
def ofEnds (lo hi : Int) : Except Fault Window :=
  match ofEnds? lo hi with
  | some w => .ok w
  | none => .error (.windowReversed lo hi)

/-- All signed integers of 64 bits.  Only overflow saturates. -/
def full : Window := ⟨-9223372036854775808, 9223372036854775807, by decide⟩

/-- The window for procedures with loops, small enough for a loop to settle quickly. -/
def loops : Window := ⟨-200, 200, by decide⟩

instance : Inhabited Window := ⟨full⟩

/-- The text of a window, `[lo, hi]`. -/
def text (w : Window) : String := s!"[{w.lo}, {w.hi}]"

instance : ToString Window := ⟨text⟩

/-! ## Saturation -/

/-- An integer as seen through the window. -/
def clamp (w : Window) (n : Int) : ExtInt :=
  if w.hi < n then .posInf else if n < w.lo then .negInf else .fin n

/-- A value made outside the window as seen through it. -/
def saturate (w : Window) : ExtInt → ExtInt
  | .fin n => w.clamp n
  | a => a

theorem clamp_of_mem {w : Window} {n : Int} (above : w.lo ≤ n) (below : n ≤ w.hi) :
    w.clamp n = .fin n := by
  simp [clamp, Int.not_lt.2 above, Int.not_lt.2 below]

/-! ## Arithmetic -/

/-- The opposite value. -/
def neg (w : Window) : ExtInt → ExtInt
  | .negInf => .posInf
  | .posInf => .negInf
  | .fin n => w.clamp (-n)
  | .undefined => .undefined

/-- The distance from zero. -/
def abs (w : Window) : ExtInt → ExtInt
  | .negInf => .posInf
  | .posInf => .posInf
  | .fin n => w.clamp n.natAbs
  | .undefined => .undefined

/-- The sum.  Opposite infinities have none. -/
def add (w : Window) : ExtInt → ExtInt → ExtInt
  | .undefined, _ => .undefined
  | _, .undefined => .undefined
  | .fin x, .fin y => w.clamp (x + y)
  | .posInf, .negInf => .undefined
  | .negInf, .posInf => .undefined
  | .posInf, _ => .posInf
  | .negInf, _ => .negInf
  | _, .posInf => .posInf
  | _, .negInf => .negInf

/-- The difference.  An infinity less an integer stays what it is; every case with an infinite
subtrahend adds the opposite. -/
def sub (w : Window) : ExtInt → ExtInt → ExtInt
  | .fin x, .fin y => w.clamp (x - y)
  | .posInf, .fin _ => .posInf
  | .negInf, .fin _ => .negInf
  | a, b => w.add a (w.neg b)

/-- The product.  Zero times anything defined is zero. -/
def mul (w : Window) : ExtInt → ExtInt → ExtInt
  | .undefined, _ => .undefined
  | _, .undefined => .undefined
  | .fin x, .fin y => w.clamp (x * y)
  | a, b =>
    if a = .fin 0 ∨ b = .fin 0 then w.clamp 0
    else
      match a.sign?, b.sign? with
      | some s, some t => .infinity (s * t)
      | _, _ => .undefined

/-- The quotient, cut toward zero.  Division by zero has none. -/
def div (w : Window) : ExtInt → ExtInt → ExtInt
  | .undefined, _ => .undefined
  | _, .undefined => .undefined
  | _, .fin 0 => .undefined
  | .fin x, .fin y => w.clamp (x.tdiv y)
  | .fin _, _ => w.clamp 0
  | a, b =>
    match a.sign?, b.sign? with
    | some s, some t => if b.isInf then w.clamp (s * t) else .infinity (s * t)
    | _, _ => .undefined

/-- The remainder, with the sign of the dividend.  An infinite dividend has none, and an infinite
divisor leaves the dividend. -/
def rem (w : Window) : ExtInt → ExtInt → ExtInt
  | .undefined, _ => .undefined
  | _, .undefined => .undefined
  | .posInf, _ => .undefined
  | .negInf, _ => .undefined
  | _, .fin 0 => .undefined
  | .fin x, .fin y => w.clamp (x.tmod y)
  | .fin x, _ => w.clamp x

end Window

end FlowGraph
