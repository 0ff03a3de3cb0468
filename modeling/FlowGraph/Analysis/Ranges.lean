import FlowGraph.Interval.Arithmetic
import FlowGraph.Settings
import FlowGraph.Solver.Analysis
import Std.Data.ExtTreeMap

/-!
# Value ranges

A forward problem: the interval of each variable at both ends of every block.  Where paths meet,
intervals are joined to their hull.

A branch on a comparison of its own block splits the state.  Each outcome of the comparison has a
state in which the variables that the compared registers were loaded from are narrowed.  The
outcome is taken with the state at the comparison.  If nothing is left of a side, the outcome
cannot happen and its edge is not taken.

All arithmetic goes through the window of the settings.

`separations` tells how far two variables can be apart.
-/

namespace FlowGraph

/-- The interval of each value. -/
abbrev Ranges := Std.ExtTreeMap InstId Interval

namespace Ranges

/-- The interval of a value, empty if it has none. -/
def rangeOf (s : Ranges) (id : InstId) : Interval := s.getD id .empty

/-- The interval of an operand. -/
def operand (w : Window) (s : Ranges) : Operand → Interval
  | .const n => .const w n
  | .value id => s.rangeOf id

/-- The interval of a binary operation.  Nothing is known of opcodes on bits. -/
def binary (w : Window) (op : BinOp) (l r : Interval) : Except Fault Interval :=
  match op with
  | .add => .ok (.add w l r)
  | .sub => .ok (.sub w l r)
  | .mul => .ok (.mul w l r)
  | .sdiv => Interval.div w l r
  | .udiv => Interval.div w l r
  | .srem => .ok (.rem w l r)
  | .urem => .ok (.rem w l r)
  | _ => .ok .empty

/-- The ranges of variables.  A value that is not there is a fault. -/
def eraseRegisters (f : Procedure) (s : Ranges) : Except Fault Ranges := do
  f.checkInsts s.keys
  return s.filter fun id _ => f.hasVariable id

/-! ## Branches -/

/-- The ranges once the variable that an operand was loaded from has a new interval. -/
def narrow (f : Procedure) (o : Operand) (a : Interval) (s : Ranges) : Except Fault Ranges :=
  match o with
  | .const _ => .ok s
  | .value id => do
    match ← f.op id with
    | .load slot => return s.insert slot a
    | _ => return s

/-- The ranges of variables if a comparison holds, or `none` if it cannot. -/
def assume (w : Window) (f : Procedure) (s : Ranges) (pred : Predicate) (lhs rhs : Operand) :
    Except Fault (Option Ranges) := do
  let (l, r) := Interval.refine w pred.relation (s.operand w lhs) (s.operand w rhs)
  if l.isEmpty || r.isEmpty then return none
  let narrowed ← narrow f rhs r (← narrow f lhs l s)
  return some (← eraseRegisters f narrowed)

/-- The ranges along the two edges of a branch on a comparison. -/
structure Outcomes where
  /-- If the comparison holds. -/
  onTrue : Option Ranges
  /-- If it does not. -/
  onFalse : Option Ranges

/-- A block read up to some instruction. -/
structure Progress where
  /-- The ranges there. -/
  ranges : Ranges
  /-- The outcomes of the comparisons before it. -/
  outcomes : Std.ExtTreeMap InstId Outcomes

/-! ## Blocks -/

/-- Reads an instruction. -/
def step (w : Window) (f : Procedure) (p : Progress) (id : InstId) : Except Fault Progress := do
  let s := p.ranges
  match ← f.op id with
  | .alloca => return { p with ranges := s.insert id .top }
  | .load slot => return { p with ranges := s.insert id (s.rangeOf slot) }
  | .store value slot => return { p with ranges := s.insert slot (s.operand w value) }
  | .binary op lhs rhs =>
    let a ← binary w op (s.operand w lhs) (s.operand w rhs)
    return { p with ranges := s.insert id a }
  | .compare pred lhs rhs =>
    let onTrue ← assume w f s pred lhs rhs
    let onFalse ← assume w f s pred.inverse lhs rhs
    return { p with outcomes := p.outcomes.insert id ⟨onTrue, onFalse⟩ }
  | _ => return p

/-- The edges that can be taken, with their ranges. -/
def Outcomes.edges (o : Outcomes) (onTrue onFalse : BlockId) : List (BlockId × Ranges) :=
  (o.onTrue.map (onTrue, ·)).toList ++ (o.onFalse.map (onFalse, ·)).toList

/-- What a block makes of the ranges at its entry. -/
def through (w : Window) (f : Procedure) (b : BlockId) (s : Ranges) :
    Except Fault (Flow Ranges) := do
  let done ← (← f.instsOf b).foldlM (step w f) ⟨s, ∅⟩
  let after ← eraseRegisters f done.ranges
  match ← f.terminator b with
  | some (.branch (.const n) onTrue onFalse) =>
    return .split after [(if n ≠ 0 then onTrue else onFalse, after)]
  | some (.branch (.value c) onTrue onFalse) =>
    match done.outcomes[c]? with
    | some o => return .split after (o.edges onTrue onFalse)
    | none => return .uniform after
  | _ => return .uniform after

/-- The hull of either, value by value. -/
def join (s t : Ranges) : Ranges := (s ∪ t).map fun id _ => (s.rangeOf id).hull (t.rangeOf id)

/-- The dataflow problem. -/
def analysis (settings : Settings) : Analysis Ranges where
  direction := .forward
  boundary _ := ∅
  transfer := through settings.window
  combine := join

/-! ## Separations -/

/-- Every two entries of a list, the earlier first. -/
def pairs {α : Type} : List α → List (α × α)
  | [] => []
  | a :: rest => rest.map (a, ·) ++ pairs rest

/-- The values with their names and intervals, ascending. -/
def named (f : Procedure) (s : Ranges) : Except Fault (List (InstId × String × Interval)) :=
  s.toList.mapM fun (id, a) => return (id, ← f.valueName id, a)

/-- The values that reports show: all but the slot for the return value. -/
def shown (settings : Settings) (f : Procedure) (s : Ranges) :
    Except Fault (List (InstId × String × Interval)) :=
  return (← s.named f).filter fun (_, name, _) => name != settings.returnSlot

/-- How far every two of the shown values can be apart. -/
def separations (settings : Settings) (f : Procedure) (s : Ranges) :
    Except Fault (List (InstId × InstId × ExtInt)) := do
  return (pairs (← s.shown settings f)).map fun ((x, _, a), (y, _, b)) =>
    (x, y, a.sep settings.window b)

end Ranges

end FlowGraph
