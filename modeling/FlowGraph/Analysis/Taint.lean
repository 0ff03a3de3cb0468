import FlowGraph.Settings
import FlowGraph.Solver.Analysis

/-!
# Taint

A forward problem: which variables may hold data that comes from the source variable.  The state
is the set of tainted values.

The source taints itself wherever it is declared.  A load from a tainted variable and a binary
operation on a tainted value make a tainted register.  Storing a tainted value taints the
variable, and storing any other value clears it, unless the variable is the source itself.

Registers do not outlive their block, so only variables are left in the state at its end.
-/

namespace FlowGraph

/-- The tainted values. -/
abbrev TaintSet := Std.ExtTreeSet InstId

namespace TaintSet

/-- Whether an operand is tainted. -/
def reads (t : TaintSet) (o : Operand) : Bool := o.inst?.any t.contains

/-- The tainted values after an instruction. -/
def step (source : String) (f : Procedure) (t : TaintSet) (id : InstId) :
    Except Fault TaintSet := do
  let i ← f.inst id
  let t : TaintSet := if i.name = source then t.insert id else t
  match i.op with
  | .load slot => return if slot ∈ t then t.insert id else t
  | .binary _ lhs rhs => return if reads t lhs || reads t rhs then t.insert id else t
  | .store value slot =>
    if reads t value then return t.insert slot
    if (← f.valueName slot) = source then return t
    return t.erase slot
  | _ => return t

/-- The tainted variables.  A tainted value that is not there is a fault. -/
def eraseRegisters (f : Procedure) (t : TaintSet) : Except Fault TaintSet := do
  f.checkInsts t.toList
  return t.filter f.hasVariable

/-- The tainted variables after a block. -/
def through (source : String) (f : Procedure) (b : BlockId) (t : TaintSet) :
    Except Fault TaintSet := do
  eraseRegisters f (← (← f.instsOf b).foldlM (step source f) t)

/-- The dataflow problem. -/
def analysis (s : Settings) : Analysis TaintSet where
  direction := .forward
  boundary _ := ∅
  transfer f b t := return .uniform (← through s.taintSource f b t)
  combine recorded incoming := recorded ∪ incoming

end TaintSet

end FlowGraph
