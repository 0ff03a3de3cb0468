import FlowGraph.Value.Window

/-!
# Intervals

An interval `[lo, hi]` is the set of the values between two extended integers, or empty.  The
empty interval has one representation, both ends `undefined`, and every other interval has defined
ends in order.  Both facts are part of the type, so equal sets of values are equal intervals.

`hull` is the least interval that contains two others and `meet` holds what two intervals have in
common.
-/

namespace FlowGraph

/-- The values between two ends, or none at all. -/
structure Interval where
  /-- The least value, `undefined` if there is none. -/
  lo : ExtInt
  /-- The greatest value, `undefined` if there is none. -/
  hi : ExtInt
  /-- Either there is no value, or the ends are defined and in order. -/
  canonical :
    lo = .undefined ∧ hi = .undefined ∨ lo ≠ .undefined ∧ hi ≠ .undefined ∧ lo ≤ hi
  deriving DecidableEq

namespace Interval

/-! ## Construction -/

/-- The interval without values. -/
def empty : Interval := ⟨.undefined, .undefined, .inl ⟨rfl, rfl⟩⟩

/-- The interval of all values. -/
def top : Interval := ⟨.negInf, .posInf, .inr (by decide)⟩

instance : Inhabited Interval := ⟨empty⟩

/-- The interval between two ends.  It is empty if an end is `undefined` or the ends are
exchanged. -/
def ofEnds (lo hi : ExtInt) : Interval :=
  if h : lo ≠ .undefined ∧ hi ≠ .undefined ∧ lo ≤ hi then ⟨lo, hi, .inr h⟩ else empty

/-- The interval of one value. -/
def singleton (a : ExtInt) : Interval := ofEnds a a

/-- The interval of one integer as seen through a window. -/
def const (w : Window) (n : Int) : Interval := singleton (w.clamp n)

/-- The interval between two integers as seen through a window. -/
def range (w : Window) (lo hi : Int) : Interval := ofEnds (w.clamp lo) (w.clamp hi)

/-! ## Values -/

/-- Whether there is no value. -/
def isEmpty (a : Interval) : Bool := a.lo.isUndefined || a.hi.isUndefined

/-- Whether there is exactly one value. -/
def isSingleton (a : Interval) : Bool := !a.isEmpty && a.lo == a.hi

/-- A value lies in an interval if it is defined and between the ends. -/
instance : Membership ExtInt Interval where
  mem a v := v ≠ .undefined ∧ a.lo ≤ v ∧ v ≤ a.hi

instance (v : ExtInt) (a : Interval) : Decidable (v ∈ a) :=
  inferInstanceAs (Decidable (v ≠ .undefined ∧ a.lo ≤ v ∧ v ≤ a.hi))

/-- The text of an interval, `[lo, hi]` or `[empty set]`. -/
def text (a : Interval) : String :=
  if a.isEmpty then "[empty set]" else s!"[{a.lo}, {a.hi}]"

instance : ToString Interval := ⟨text⟩

/-! ## Lattice operations -/

/-- The least interval that contains both. -/
def hull (a b : Interval) : Interval :=
  if a.isEmpty then b
  else if b.isEmpty then a
  else ofEnds (min a.lo b.lo) (max a.hi b.hi)

/-- What both have in common. -/
def meet (a b : Interval) : Interval :=
  if a.isEmpty || b.isEmpty then empty
  else ofEnds (max a.lo b.lo) (min a.hi b.hi)

end Interval

end FlowGraph
