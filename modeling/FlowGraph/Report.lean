import FlowGraph.Analysis.Busy
import FlowGraph.Analysis.Ranges
import FlowGraph.Analysis.Taint
import FlowGraph.Analysis.Trails
import FlowGraph.Solver.Solution

/-!
# Reports

A report shows a solution block by block, sorted by label.  Blocks that were never visited are
left out.  Values are shown by name, in the order of their ids.

The taint reports and the report of ranges show the exits of the blocks, the report of busy
expressions both ends.  The report of differences shows how far every two variables can be apart.
Reports on ranges have an empty line between blocks and leave out the slot for the return value.
-/

namespace FlowGraph

namespace Report

/-- The text of a set: its items in braces. -/
def setText (items : List String) : String := "\x7b" ++ ", ".intercalate items ++ "\x7d"

/-- The text of a set of texts, each in quotes. -/
def quotedSetText (items : List String) : String :=
  setText (items.map fun item => s!"\"{item}\"")

/-- The section of every visited block, in the order of the labels. -/
def sections {σ : Type} (s : Solution σ)
    (body : String → BlockId → Except Fault String) : Except Fault (List String) :=
  s.blocksByLabel.mapM fun (label, b) => body label b

/-! ## Taint -/

/-- The tainted variables at the exits. -/
def taint (f : Procedure) (s : Solution TaintSet) : Except Fault String := do
  return String.join (← sections s fun label b =>
    match s.exit? b with
    | none => return ""
    | some tainted => return s!"{label}: " ++ setText (← tainted.toList.mapM f.valueName) ++ "\n")

/-- The line of a tainted variable with its trails. -/
def trailLine (f : Procedure) (id : InstId) (trails : List String) : Except Fault String := do
  let name ← f.valueName id
  return s!"\t{name}: " ++ setText trails ++ "\n"

/-- The trails of the tainted variables at the exits. -/
def trails (f : Procedure) (s : Solution Trails) : Except Fault String := do
  return String.join (← sections s fun label b =>
    match s.exit? b with
    | none => return ""
    | some tainted => do
      let lines ← tainted.toList.mapM fun (id, trails) => trailLine f id trails.toList
      return s!"{label}\n" ++ String.join lines)

/-! ## Busy expressions -/

/-- The busy expressions at a place, none if it was not visited. -/
def busyText (s : Option BusyState) : String := quotedSetText (s.getD .empty).exprs.toList

/-- The busy expressions at both ends. -/
def busy (s : Solution BusyState) : Except Fault String := do
  return String.join (← sections s fun label b =>
    return s!"{label}\n\tEntry: " ++ busyText (s.entry? b) ++
      "\n\tExit: " ++ busyText (s.exit? b) ++ "\n")

/-! ## Ranges -/

/-- A report on ranges: under each label the lines of the state at the exit. -/
def onRanges (s : Solution Ranges) (lines : Ranges → Except Fault (List String)) :
    Except Fault String := do
  return "\n".intercalate (← sections s fun label b =>
    match s.exit? b with
    | none => return s!"{label}:\n"
    | some ranges => return s!"{label}:\n" ++ String.join (← lines ranges))

/-- The ranges of the variables at the exits. -/
def ranges (settings : Settings) (f : Procedure) (s : Solution Ranges) : Except Fault String :=
  onRanges s fun state => do
    return (← state.shown settings f).map fun (_, name, a) => s!"{name}: {a}\n"

/-- The line of two variables. -/
def differenceLine (f : Procedure) (x y : InstId) (sep : ExtInt) : Except Fault String := do
  let first ← f.valueName x
  let second ← f.valueName y
  return s!"sep({first}, {second}) = {sep}\n"

/-- How far every two variables can be apart at the exits. -/
def differences (settings : Settings) (f : Procedure) (s : Solution Ranges) :
    Except Fault String :=
  onRanges s fun state => do
    (← state.separations settings f).mapM fun (x, y, sep) => differenceLine f x y sep

end Report

end FlowGraph
