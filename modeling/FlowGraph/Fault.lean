/-!
# Faults

A computation of this library either gives its answer or stops with a fault.  Looking up a block
or an instruction stops on an id that names none, and a window cannot have its ends exchanged.
Interval division stops on a divisor it can never split, and the solver stops when its visit
limit is used up.  The last two stand for computations that would run without end.
-/

namespace FlowGraph

/-- Why a computation stops without an answer. -/
inductive Fault where
  /-- The id `index` was looked up in a table of `size` entries that has no such entry. -/
  | outOfRange (size index : Nat)
  /-- A window was asked for whose lower end lies above its upper end. -/
  | windowReversed (lo hi : Int)
  /-- A division by positive numbers was asked for with a divisor that is not positive. -/
  | divisorNotPositive
  /-- A division kept splitting its divisor into parts as large as the whole. -/
  | endlessDivision
  /-- The solver used up its visits with work still pending. -/
  | visitLimit
  deriving DecidableEq

/-- The text shown for a fault. -/
def Fault.message : Fault → String
  | .outOfRange size index =>
    s!"index out of bounds: the len is {size} but the index is {index}"
  | .windowReversed lo hi => s!"Bounds require min <= max, got [{lo}, {hi}]"
  | .divisorNotPositive => "divisor must be strictly positive"
  | .endlessDivision => "interval division does not end"
  | .visitLimit => "visit limit reached"

/-- The entry of a table at an index, which has to be there. -/
def lookup {α : Type} (table : Array α) (index : Nat) : Except Fault α :=
  match table[index]? with
  | some entry => .ok entry
  | none => .error (.outOfRange table.size index)

theorem lookup_eq_ok_iff {α : Type} {table : Array α} {index : Nat} {entry : α} :
    lookup table index = .ok entry ↔ table[index]? = some entry := by
  unfold lookup
  split <;> simp_all

end FlowGraph
