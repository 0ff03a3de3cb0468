import FlowGraph.Interval.Basic

/-!
# Narrowing by a relation

A branch on `x < y` tells something about both sides along each of its edges.  `refine` takes the
intervals of the two sides and the relation that is assumed to hold, and returns what is left of
both.  If no two values are so related, both results are empty.

A strict relation moves an end by one.  Both the step and its result are seen through the window,
so an end at the edge of the window moves to infinity.
-/

namespace FlowGraph

/-- An order relation between two values. -/
inductive Relation where
  | eq
  | ne
  | lt
  | le
  | gt
  | ge
  deriving DecidableEq

namespace Relation

/-- All relations. -/
def all : List Relation := [eq, ne, lt, le, gt, ge]

/-- The relation that holds exactly where this one does not. -/
def negate : Relation → Relation
  | eq => ne
  | ne => eq
  | lt => ge
  | le => gt
  | gt => le
  | ge => lt

/-- The text of a relation. -/
def text : Relation → String
  | eq => "eq"
  | ne => "ne"
  | lt => "lt"
  | le => "le"
  | gt => "gt"
  | ge => "ge"

instance : ToString Relation := ⟨text⟩

/-- The relation on integers. -/
def Holds : Relation → Int → Int → Prop
  | eq, x, y => x = y
  | ne, x, y => x ≠ y
  | lt, x, y => x < y
  | le, x, y => x ≤ y
  | gt, x, y => x > y
  | ge, x, y => x ≥ y

end Relation

namespace Interval

/-- Two empty intervals: the assumption cannot hold. -/
def infeasible : Interval × Interval := (empty, empty)

/-- Both sides, assuming they are equal. -/
def refineEq (l r : Interval) : Interval × Interval :=
  if l.isEmpty || r.isEmpty || l.lo > r.hi || r.lo > l.hi then infeasible
  else (l.meet r, l.meet r)

/-- Both sides, assuming they differ.  Only two equal single values are told apart. -/
def refineNe (l r : Interval) : Interval × Interval :=
  if l.isEmpty || r.isEmpty then infeasible
  else if l.isSingleton && r.isSingleton && l.lo == r.lo then infeasible
  else (l, r)

/-- Both sides, assuming the left is below the right. -/
def refineLt (w : Window) (l r : Interval) : Interval × Interval :=
  if l.isEmpty || r.isEmpty || l.lo ≥ r.hi then infeasible
  else
    (ofEnds l.lo (min l.hi (w.sub r.hi (.fin 1))),
      ofEnds (max (w.add l.lo (.fin 1)) r.lo) r.hi)

/-- Both sides, assuming the left is at most the right. -/
def refineLe (l r : Interval) : Interval × Interval :=
  if l.isEmpty || r.isEmpty || l.lo > r.hi then infeasible
  else (ofEnds l.lo (min l.hi r.hi), ofEnds (max l.lo r.lo) r.hi)

/-- Both sides, assuming the left is above the right. -/
def refineGt (w : Window) (l r : Interval) : Interval × Interval :=
  if l.isEmpty || r.isEmpty || r.lo ≥ l.hi then infeasible
  else
    (ofEnds (max l.lo (w.add r.lo (.fin 1))) l.hi,
      ofEnds r.lo (min (w.sub l.hi (.fin 1)) r.hi))

/-- Both sides, assuming the left is at least the right. -/
def refineGe (l r : Interval) : Interval × Interval :=
  if l.isEmpty || r.isEmpty || r.lo > l.hi then infeasible
  else (ofEnds (max l.lo r.lo) l.hi, ofEnds r.lo (min l.hi r.hi))

/-- Both sides, assuming a relation holds between them. -/
def refine (w : Window) (rel : Relation) (l r : Interval) : Interval × Interval :=
  match rel with
  | .eq => refineEq l r
  | .ne => refineNe l r
  | .lt => refineLt w l r
  | .le => refineLe l r
  | .gt => refineGt w l r
  | .ge => refineGe l r

end Interval

end FlowGraph
