import FlowGraph.Procedure.Texts
import FlowGraph.Solver.Analysis

/-!
# Very busy expressions

A backward problem: an expression is very busy at a place if every path from there computes it
before one of its variables changes.  Expressions are the texts of arithmetic instructions.  A
register that the same block loaded from a variable is shown as the variable, any other value by
its name, and an integer in decimal.

A block is read from its end.  An arithmetic instruction makes its expression busy.  A store to a
variable ends every expression in that variable, unless it stores the variable back to itself, and
so does the declaration of the variable.

The state keeps the busy expressions and, for each variable, those that read it.
-/

namespace FlowGraph

/-- The busy expressions at a place. -/
structure BusyState where
  /-- All busy expressions. -/
  exprs : TextSet
  /-- The busy expressions that read a variable. -/
  byVar : TextMap
  deriving DecidableEq

/-- The variables that the registers of a block were loaded from. -/
abbrev Loads := Std.ExtTreeMap InstId InstId

namespace BusyState

/-- Nothing is busy. -/
def empty : BusyState := ⟨∅, ∅⟩

instance : Inhabited BusyState := ⟨empty⟩

/-- Ends the expressions in a variable. -/
def kill (v : InstId) (s : BusyState) : BusyState :=
  match s.byVar[v]? with
  | none => s
  | some killed => ⟨s.exprs.filter (fun e => !killed.contains e), s.byVar.erase v⟩

/-- Makes an expression in some variables busy. -/
def gen (e : String) (vars : List InstId) (s : BusyState) : BusyState :=
  ⟨s.exprs.insert e, vars.foldl (fun m v => m.insert v ((m.textsOf v).insert e)) s.byVar⟩

/-- The loads of some instructions. -/
def loads (f : Procedure) (ids : List InstId) : Except Fault Loads :=
  ids.foldlM (fun m id => do
    match ← f.op id with
    | .load slot => return m.insert id slot
    | _ => return m) ∅

/-- The text of an operand in an expression, and the variable it reads. -/
def operandText (f : Procedure) (loads : Loads) : Operand → Except Fault (String × Option InstId)
  | .const n => .ok (toString n, none)
  | .value id =>
    match loads[id]? with
    | some v => return (← f.valueName v, some v)
    | none => return (← f.valueName id, none)

/-- The text of a binary operation, and the variables it reads.  Opcodes on bits have none. -/
def exprOf (f : Procedure) (loads : Loads) (op : BinOp) (lhs rhs : Operand) :
    Except Fault (Option (String × List InstId)) :=
  match op.symbol? with
  | none => .ok none
  | some symbol => do
    let (left, leftVar) ← operandText f loads lhs
    let (right, rightVar) ← operandText f loads rhs
    return some (s!"{left} {symbol} {right}", leftVar.toList ++ rightVar.toList)

/-- Whether a store puts back what was loaded from the same variable. -/
def storesBack (loads : Loads) (value : Operand) (slot : InstId) : Bool :=
  value.inst?.bind (loads[·]?) == some slot

/-- The busy expressions before an instruction. -/
def step (f : Procedure) (loads : Loads) (s : BusyState) (id : InstId) :
    Except Fault BusyState := do
  match ← f.op id with
  | .binary op lhs rhs =>
    match ← exprOf f loads op lhs rhs with
    | none => return s
    | some (e, vars) => return s.gen e vars
  | .store value slot => return if storesBack loads value slot then s else s.kill slot
  | .alloca => return s.kill id
  | _ => return s

/-- The busy expressions before a block. -/
def through (f : Procedure) (b : BlockId) (s : BusyState) : Except Fault BusyState := do
  let ids ← f.instsOf b
  ids.reverse.foldlM (step f (← loads f ids)) s

/-- What is busy in both states.  Variables without a common expression are dropped. -/
def meet (s t : BusyState) : BusyState where
  exprs := s.exprs ∩ t.exprs
  byVar := s.byVar.filterMap fun v es =>
    match t.byVar[v]? with
    | none => none
    | some other =>
      let common := es ∩ other
      if common.isEmpty then none else some common

/-- The dataflow problem. -/
def analysis : Analysis BusyState where
  direction := .backward
  boundary _ := empty
  transfer f b s := return .uniform (← through f b s)
  combine := meet

end BusyState

end FlowGraph
