import FlowGraph.Procedure.Instruction
import Std.Data.ExtTreeMap
import Std.Data.ExtTreeSet

/-!
# Texts of values

Some analyses keep sets of texts for the values of a procedure, such as the trails of a tainted
value or the expressions that read a variable.  Sets and maps are ordered trees that are equal as
soon as they hold the same, so states compare by what they say.
-/

namespace FlowGraph

/-- A set of texts. -/
abbrev TextSet := Std.ExtTreeSet String

/-- Some values, each with a set of texts. -/
abbrev TextMap := Std.ExtTreeMap InstId TextSet

instance : DecidableEq TextMap := inferInstance

/-- The texts of a value, none if it is not in the map. -/
def TextMap.textsOf (m : TextMap) (id : InstId) : TextSet := m.getD id ∅

end FlowGraph
