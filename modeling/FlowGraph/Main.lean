import FlowGraph.Demo.Run

/-!
# The command line

Runs the demo with the arguments of the command line.  Output goes to the standard output and
errors to the standard error.  Wrong usage ends with status two and any other error with one.
-/

/-- Runs the demo and gives the status of the program. -/
def main (arguments : List String) : IO UInt32 := do
  match FlowGraph.Demo.run arguments with
  | .done output _ =>
    IO.print output
    return 0
  | .failed problem output _ =>
    IO.print output
    IO.eprintln s!"Error: {problem.message}"
    return 1
  | .misdrafted error =>
    IO.eprintln s!"Error: {error.message}"
    return 1
  | .stopped fault =>
    IO.eprintln s!"Error: {fault.message}"
    return 1
  | .usage =>
    IO.eprintln "usage: [--analysis taint|taint-paths|busy|intervals|difference]"
    IO.eprintln "       [--program straight|diamond|loop] [--min INT] [--max INT]"
    IO.eprintln "       [--loop-bounds] [--show]"
    return 2
