import FlowGraph.Demo.Sample
import FlowGraph.Value.Window

/-!
# Command line options

The options of the demo choose an analysis, a sample and a window.  An option is written
`--name value` or `--name=value`, a flag `--name`.  Each may be given once.  A `--` at the end is
allowed.  Everything else is an error of usage, which `Options.parse?` answers with `none`.
-/

namespace FlowGraph

/-- What the demo reports on. -/
inductive Topic where
  | taint
  | taintPaths
  | busy
  | intervals
  | difference
  deriving DecidableEq

/-- The options of the demo. -/
structure Options where
  /-- What to report on. -/
  topic : Topic
  /-- The sample to analyse. -/
  sample : Sample
  /-- The least integer of the window, if given. -/
  min? : Option Int
  /-- The greatest integer of the window, if given. -/
  max? : Option Int
  /-- Whether to start from the window for loops. -/
  loopWindow : Bool
  /-- Whether to show the sample first. -/
  showSample : Bool
  deriving DecidableEq

namespace Options

/-! ## Values -/

/-- The topic of a name. -/
def readTopic? : String → Option Topic
  | "taint" => some .taint
  | "taint-paths" => some .taintPaths
  | "busy" => some .busy
  | "intervals" => some .intervals
  | "difference" => some .difference
  | _ => none

/-- The sample of a name. -/
def readSample? : String → Option Sample
  | "straight" => some .straight
  | "diamond" => some .diamond
  | "loop" => some .loop
  | _ => none

/-- The number that decimal digits write.  There is at least one digit and nothing else. -/
def readDigits? (digits : List Char) : Option Nat :=
  if digits ≠ [] ∧ digits.all Char.isDigit then
    some (digits.foldl (fun n c => 10 * n + (c.toNat - '0'.toNat)) 0)
  else none

/-- The integer of a text: at most one sign, then digits. -/
def readSigned? (text : String) : Option Int :=
  match text.toList with
  | '-' :: digits => (readDigits? digits).map fun n => -(n : Int)
  | '+' :: digits => (readDigits? digits).map fun n => (n : Int)
  | digits => (readDigits? digits).map fun n => (n : Int)

/-- The integer of a text, if 64 bits hold it. -/
def readInt? (text : String) : Option Int :=
  (readSigned? text).filter fun n => Window.full.lo ≤ n ∧ n ≤ Window.full.hi

/-! ## Arguments -/

/-- The options found so far. -/
structure Given where
  /-- The topic. -/
  topic? : Option Topic
  /-- The sample. -/
  sample? : Option Sample
  /-- The least integer of the window. -/
  min? : Option Int
  /-- The greatest integer of the window. -/
  max? : Option Int
  /-- Whether the flag for the window for loops was found. -/
  loopWindow : Bool
  /-- Whether the flag to show the sample was found. -/
  showSample : Bool

/-- Nothing found. -/
def Given.none : Given := ⟨.none, .none, .none, .none, false, false⟩

/-- What is found with a flag, which must not be there yet. -/
def Given.flag? (g : Given) : String → Option Given
  | "--loop-bounds" => if g.loopWindow then .none else some { g with loopWindow := true }
  | "--show" => if g.showSample then .none else some { g with showSample := true }
  | _ => .none

/-- What is found with an option, which must not be there yet. -/
def Given.option? (g : Given) (name value : String) : Option Given :=
  match name with
  | "--analysis" => do
    let topic ← readTopic? value
    if g.topic?.isSome then .none else some { g with topic? := topic }
  | "--program" => do
    let sample ← readSample? value
    if g.sample?.isSome then .none else some { g with sample? := sample }
  | "--min" => do
    let n ← readInt? value
    if g.min?.isSome then .none else some { g with min? := n }
  | "--max" => do
    let n ← readInt? value
    if g.max?.isSome then .none else some { g with max? := n }
  | _ => .none

/-- The name and the value of an argument that holds both, parted by the first `=`. -/
def splitArgument? (argument : String) : Option (String × String) :=
  let chars := argument.toList
  match chars.dropWhile (· ≠ '=') with
  | [] => .none
  | _ :: value => some (String.ofList (chars.takeWhile (· ≠ '=')), String.ofList value)

/-- Reads arguments one after the other. -/
def Given.read? : Given → List String → Option Given
  | g, [] => some g
  | g, argument :: rest =>
    if argument = "--" then
      if rest.isEmpty then some g else .none
    else
      match splitArgument? argument with
      | some (name, value) => (g.option? name value).bind (·.read? rest)
      | .none =>
        match g.flag? argument with
        | some found => found.read? rest
        | .none =>
          match rest with
          | value :: others => (g.option? argument value).bind (·.read? others)
          | [] => .none

/-- The options of some arguments, or `none` for wrong usage. -/
def parse? (arguments : List String) : Option Options := do
  let g ← Given.none.read? arguments
  return ⟨g.topic?.getD .intervals, g.sample?.getD .loop, g.min?, g.max?, g.loopWindow,
    g.showSample⟩

/-! ## Text -/

/-- The text of a topic among the options. -/
def topicText : Topic → String
  | .taint => "Taint"
  | .taintPaths => "TaintPaths"
  | .busy => "Busy"
  | .intervals => "Intervals"
  | .difference => "Difference"

/-- The text of a sample among the options. -/
def sampleText : Sample → String
  | .straight => "Straight"
  | .diamond => "Diamond"
  | .loop => "Loop"

/-- The text of an end of the window among the options. -/
def endText : Option Int → String
  | .none => "None"
  | some n => s!"Some({n})"

/-- The text of all options. -/
def text (o : Options) : String :=
  ", ".intercalate
    [s!"Cli \x7b analysis: {topicText o.topic}", s!"program: {sampleText o.sample}",
      s!"min: {endText o.min?}", s!"max: {endText o.max?}",
      s!"loop_bounds: {o.loopWindow}", s!"show: {o.showSample} \x7d"]

end Options

end FlowGraph
