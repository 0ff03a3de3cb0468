import FlowGraph.Interval.Basic

/-!
# Interval arithmetic

An operation on intervals evaluates the operation on values at the ends of its operands and takes
the least interval around the outcomes.  An operand without values gives a result without values.

Division looks at the sign of the divisor.  A divisor above zero is divided by at its ends, a
divisor below zero is negated together with the dividend, and a divisor that touches zero is cut
into its part below zero and its part above.  The cut points `-1` and `1` are seen through the
window.  In a window that lies wholly above `1` or wholly below `-1` they are infinite, so a part
can be as large as the whole and the cutting has no end.  `divWithin` therefore counts how deep it
cuts.  A division that ends at all never cuts a part again, which is why `div` looks two levels
deep.
-/

namespace FlowGraph

namespace Interval

/-- The least interval around some values. -/
def around (corners : List ExtInt) : Interval := ofEnds (.minOf corners) (.maxOf corners)

/-- The opposite values. -/
def neg (w : Window) (a : Interval) : Interval :=
  if a.isEmpty then empty else ofEnds (w.neg a.hi) (w.neg a.lo)

/-- The sums. -/
def add (w : Window) (a b : Interval) : Interval :=
  if a.isEmpty || b.isEmpty then empty
  else ofEnds (w.add a.lo b.lo) (w.add a.hi b.hi)

/-- The differences. -/
def sub (w : Window) (a b : Interval) : Interval :=
  if a.isEmpty || b.isEmpty then empty
  else ofEnds (w.sub a.lo b.hi) (w.sub a.hi b.lo)

/-- The products. -/
def mul (w : Window) (a b : Interval) : Interval :=
  if a.isEmpty || b.isEmpty then empty
  else around [w.mul a.lo b.lo, w.mul a.lo b.hi, w.mul a.hi b.lo, w.mul a.hi b.hi]

/-! ## Division -/

/-- The quotients by a divisor above zero. -/
def divPositive (w : Window) (a b : Interval) : Except Fault Interval :=
  if b.lo > .fin 0 then
    .ok (around [w.div a.lo b.lo, w.div a.lo b.hi, w.div a.hi b.lo, w.div a.hi b.hi])
  else .error .divisorNotPositive

/-- The part of a divisor below zero. -/
def belowZero (w : Window) (b : Interval) : Interval := ofEnds b.lo (w.clamp (-1))

/-- The part of a divisor above zero. -/
def aboveZero (w : Window) (b : Interval) : Interval := ofEnds (w.clamp 1) b.hi

/-- The quotients, found with at most `depth` nested divisions. -/
def divWithin (w : Window) (a : Interval) : Nat → Interval → Except Fault Interval
  | 0, _ => .error .endlessDivision
  | depth + 1, b =>
    if a.isEmpty || b.isEmpty then .ok empty
    else if b.lo = .fin 0 ∧ b.hi = .fin 0 then .ok empty
    else if b.lo > .fin 0 then divPositive w a b
    else if b.hi < .fin 0 then divPositive w (a.neg w) (b.neg w)
    else if b.lo = .fin 0 then divWithin w a depth (b.aboveZero w)
    else if b.hi = .fin 0 then divWithin w a depth (b.belowZero w)
    else do
      let below ← divWithin w a depth (b.belowZero w)
      let above ← divWithin w a depth (b.aboveZero w)
      return below.hull above

/-- The quotients, cut toward zero.  There are none by zero alone. -/
def div (w : Window) (a b : Interval) : Except Fault Interval := divWithin w a 2 b

/-! ## Remainder and distance -/

/-- A bound on the remainders: smaller in size than the divisor, no larger in size than the
dividend, and of the dividend's sign. -/
def rem (w : Window) (a b : Interval) : Interval :=
  if a.isEmpty || b.isEmpty then empty
  else if b.lo = .fin 0 ∧ b.hi = .fin 0 then empty
  else
    let size := max (w.sub (w.abs b.lo) (.fin 1)) (w.sub (w.abs b.hi) (.fin 1))
    let zero := w.clamp 0
    let below := w.neg (min (w.neg a.lo) size)
    let above := min a.hi size
    if a.lo ≥ .fin 0 then ofEnds zero above
    else if a.hi ≤ .fin 0 then ofEnds below zero
    else ofEnds below above

/-- The largest distance between a value of one interval and a value of the other. -/
def sep (w : Window) (a b : Interval) : ExtInt :=
  max (w.abs (w.sub a.hi b.lo)) (w.abs (w.sub b.hi a.lo))

end Interval

end FlowGraph
