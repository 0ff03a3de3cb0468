import FlowGraph.Value.Window

/-!
# Settings

What an analysis and its reports are told from outside: the window of the integers, the name of
the variable that taint comes from, and the name of the slot for the return value, which reports
leave out.
-/

namespace FlowGraph

/-- The settings of an analysis. -/
structure Settings where
  /-- The integers told apart. -/
  window : Window
  /-- The name of the variable that taint comes from. -/
  taintSource : String
  /-- The name of the slot for the return value. -/
  returnSlot : String
  deriving DecidableEq

/-- The settings used unless others are given. -/
def Settings.default : Settings := ⟨.full, "source", "retval"⟩

instance : Inhabited Settings := ⟨.default⟩

end FlowGraph
