import FlowGraph.Procedure.Texts
import FlowGraph.Settings
import FlowGraph.Solver.Analysis

/-!
# Taint with its trails

The taint problem with a history: each tainted value carries the trails along which it became
tainted.  A trail is written as the labels of its blocks, joined by arrows, `entry->loop->exit`.

A trail starts at the block that declares the source and grows by one label with every block.
Copying a tainted value adds its trails to those of the copy.  Around a loop trails grow without
bound.
-/

namespace FlowGraph

/-- The tainted values, each with its trails. -/
abbrev Trails := TextMap

namespace Trails

/-- All trails, each longer by one label. -/
def extend (label : String) (t : Trails) : Trails :=
  t.map fun _ trails => .ofList (trails.toList.map fun trail => s!"{trail}->{label}")

/-- The trails of a value added to those of another.  Without trails nothing changes. -/
def copy (source dest : InstId) (t : Trails) : Trails :=
  match t[source]? with
  | none => t
  | some trails => t.insert dest (t.textsOf dest ∪ trails)

/-- The trails of an operand added to those of a value. -/
def copyOperand (source : Operand) (dest : InstId) (t : Trails) : Trails :=
  match source with
  | .value id => t.copy id dest
  | .const _ => t

/-- Whether an operand is tainted. -/
def reads (t : Trails) (o : Operand) : Bool := o.inst?.any t.contains

/-- The trails after an instruction of a block with this label. -/
def step (source : String) (f : Procedure) (label : String) (t : Trails) (id : InstId) :
    Except Fault Trails := do
  let i ← f.inst id
  let t : Trails := if i.name = source then t.insertIfNew id (.ofList [label]) else t
  match i.op with
  | .load slot => return t.copy slot id
  | .binary _ lhs rhs => return (t.copyOperand lhs id).copyOperand rhs id
  | .store value slot =>
    if reads t value then return t.copyOperand value slot
    if (← f.valueName slot) = source then return t
    return t.erase slot
  | _ => return t

/-- The trails of variables.  A tainted value that is not there is a fault. -/
def eraseRegisters (f : Procedure) (t : Trails) : Except Fault Trails := do
  f.checkInsts t.keys
  return t.filter fun id _ => f.hasVariable id

/-- The trails after a block. -/
def through (source : String) (f : Procedure) (b : BlockId) (t : Trails) :
    Except Fault Trails := do
  let label ← f.label b
  eraseRegisters f (← (← f.instsOf b).foldlM (step source f label) (t.extend label))

/-- The trails of either, value by value. -/
def join (s t : Trails) : Trails := (s ∪ t).map fun id _ => s.textsOf id ∪ t.textsOf id

/-- The dataflow problem. -/
def analysis (s : Settings) : Analysis Trails where
  direction := .forward
  boundary _ := ∅
  transfer f b t := return .uniform (← through s.taintSource f b t)
  combine := join

end Trails

end FlowGraph
