import FlowGraph.Demo.Options
import FlowGraph.Procedure.Text
import FlowGraph.Report

/-!
# The demo

The demo analyses a sample and shows a report.  It first shows its options, then, if asked to, the
sample, then the report.

The ends of the window are taken from the options.  An end that is not given is that of the window
for loops if the options ask for it, and else that of the full window.  Without either end the
looping sample has the window for loops too, since its analysis would take too long otherwise.
-/

namespace FlowGraph

namespace Demo

/-- Why the demo gives up. -/
inductive Problem where
  /-- The ends of the window are exchanged. -/
  | windowReversed (lo hi : Int)
  /-- The trails of a loop have no end. -/
  | cyclicSample
  deriving DecidableEq

/-- The text shown for a problem. -/
def Problem.message : Problem → String
  | .windowReversed lo hi => s!"--min ({lo}) must not exceed --max ({hi})"
  | .cyclicSample => "taint paths require an acyclic procedure"

/-- The window the options choose. -/
def window (o : Options) : Except Problem Window :=
  match o.min?, o.max? with
  | none, none => .ok (if o.loopWindow || o.sample == .loop then .loops else .full)
  | min?, max? =>
    let base : Window := if o.loopWindow then .loops else .full
    let lo := min?.getD base.lo
    let hi := max?.getD base.hi
    match Window.ofEnds? lo hi with
    | some w => .ok w
    | none => .error (.windowReversed lo hi)

/-- More visits than any sample takes in a reasonable time. -/
def visitLimit : Nat := 1000000000000

/-- The report on a procedure. -/
def report (topic : Topic) (settings : Settings) (f : Procedure) : Except Fault String :=
  match topic with
  | .taint => do Report.taint f (← solve (TaintSet.analysis settings) f visitLimit)
  | .taintPaths => do Report.trails f (← solve (Trails.analysis settings) f visitLimit)
  | .busy => do Report.busy (← solve BusyState.analysis f visitLimit)
  | .intervals => do
    Report.ranges settings f (← solve (Ranges.analysis settings) f visitLimit)
  | .difference => do
    Report.differences settings f (← solve (Ranges.analysis settings) f visitLimit)

/-- How a run of the demo ends. -/
inductive Outcome where
  /-- The arguments are wrong. -/
  | usage
  /-- All of the output, and the window used. -/
  | done (output : String) (window : Window)
  /-- The output so far, and the window if it was chosen. -/
  | failed (problem : Problem) (output : String) (window? : Option Window)
  /-- The sample is not a procedure. -/
  | misdrafted (error : BuildError)
  /-- A computation stopped. -/
  | stopped (fault : Fault)

/-- The sample and an empty line, if it is to be shown. -/
def sampleText (o : Options) (f : Procedure) : Except Fault String :=
  if o.showSample then return (← f.text) ++ "\n\n" else return ""

/-- The sample, if it is to be shown, and the report. -/
def body (o : Options) (settings : Settings) (f : Procedure) : Except Fault String := do
  let sample ← sampleText o f
  let shown ← report o.topic settings f
  return sample ++ shown

/-- Runs the demo with options. -/
def runOptions (o : Options) : Outcome :=
  let header := s!"args = {o.text}\n"
  match window o with
  | .error problem => .failed problem header none
  | .ok w =>
    match o.sample.draft.build with
    | .error error => .misdrafted error
    | .ok f =>
      if o.topic = .taintPaths ∧ o.sample = .loop then .failed .cyclicSample header (some w)
      else
        match body o { Settings.default with window := w } f with
        | .ok output => .done (header ++ output) w
        | .error fault => .stopped fault

/-- Runs the demo with arguments. -/
def run (arguments : List String) : Outcome :=
  match Options.parse? arguments with
  | none => .usage
  | some o => runOptions o

end Demo

end FlowGraph
