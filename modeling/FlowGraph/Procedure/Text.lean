import FlowGraph.Procedure.Basic

/-!
# The text of a procedure

One line per instruction, indented under the label of its block, with an empty line between
blocks.  Operands and slots are shown by name, integers in decimal and destinations by label.
-/

namespace FlowGraph

namespace Procedure

/-- The text of an operand: the name of a value, or a decimal. -/
def operandText (f : Procedure) : Operand → Except Fault String
  | .value id => f.valueName id
  | .const n => .ok (toString n)

/-- The text of two operands. -/
def operandsText (f : Procedure) (lhs rhs : Operand) : Except Fault String := do
  let l ← f.operandText lhs
  let r ← f.operandText rhs
  return s!"{l}, {r}"

/-- The line of an instruction. -/
def instText (f : Procedure) (id : InstId) : Except Fault String := do
  let name ← f.valueName id
  match ← f.op id with
  | .alloca => return s!"{name} = alloca"
  | .load slot =>
    let source ← f.valueName slot
    return s!"{name} = load {source}"
  | .store value slot =>
    let stored ← f.operandText value
    let dest ← f.valueName slot
    return s!"store {stored}, {dest}"
  | .binary op lhs rhs =>
    let operands ← f.operandsText lhs rhs
    return s!"{name} = {op} {operands}"
  | .compare pred lhs rhs =>
    let operands ← f.operandsText lhs rhs
    return s!"{name} = icmp {pred} {operands}"
  | .branch cond onTrue onFalse =>
    let decided ← f.operandText cond
    let first ← f.label onTrue
    let second ← f.label onFalse
    return s!"br {decided}, {first}, {second}"
  | .jump dest =>
    let label ← f.label dest
    return s!"br {label}"
  | .other => return s!"{name} = <other>"

/-- The lines of a block: its label, then its instructions. -/
def blockText (f : Procedure) (b : BlockId) : Except Fault String := do
  let label ← f.label b
  let lines ← (← f.instsOf b).mapM f.instText
  return s!"{label}:\n" ++ String.join (lines.map fun line => s!"  {line}\n")

/-- The text of the whole procedure. -/
def text (f : Procedure) : Except Fault String := do
  let blocks ← (List.range f.numBlocks).mapM f.blockText
  return s!"define {f.name} " ++ "\x7b\n" ++ "\n".intercalate blocks ++ "\x7d"

end Procedure

end FlowGraph
