import FlowGraph.Procedure.Texts
import FlowGraph.Solver.Analysis

/-!
# Gen and kill

The plainest kind of dataflow problem: the state is a set of facts, and a table says for each
block which facts it kills and which it makes.  Two states are combined by union, for facts that
hold on some path, or by intersection, for facts that hold on all.

The table is data and reads no instruction.  So the solver can be tried apart from the analyses, in
both directions and with both ways to combine, on any graph.

Two additions reach the corners of the solver.  A rule may make facts only where another fact is
absent, which is not monotone.  A rule may list its outgoing edges, each with facts of its own.
-/

namespace FlowGraph

/-- A set of facts. -/
abbrev FactSet := TextSet

namespace GenKill

/-- What a block does to the facts. -/
structure Rule where
  /-- The facts it makes. -/
  gen : FactSet
  /-- The facts it kills. -/
  kill : FactSet
  /-- Facts it makes where the first fact is absent. -/
  unless? : Option (String × FactSet)
  /-- The edges it lists, each with facts of its own. -/
  edges? : Option (List (BlockId × FactSet))

/-- How facts from several paths are combined. -/
inductive Meeting where
  /-- What holds on some path. -/
  | union
  /-- What holds on all paths. -/
  | intersect
  deriving DecidableEq

/-- A gen and kill problem. -/
structure Problem where
  /-- The direction in which facts move. -/
  direction : Direction
  /-- How facts from several paths are combined. -/
  meeting : Meeting
  /-- The facts that come in at the seeds. -/
  boundary : FactSet
  /-- The rules of the blocks that have one. -/
  rules : List (BlockId × Rule)

/-- The facts at the far end of a block with a rule. -/
def Rule.apply (r : Rule) (s : FactSet) : FactSet :=
  let changed := s.filter (fun fact => !r.kill.contains fact) ∪ r.gen
  match r.unless? with
  | none => changed
  | some (key, facts) => if key ∈ s then changed else changed ∪ facts

/-- What a block with a rule makes of the facts. -/
def Rule.flow (r : Rule) (s : FactSet) : Flow FactSet :=
  let after := r.apply s
  match r.edges? with
  | none => .uniform after
  | some edges => .split after (edges.map fun (dest, extra) => (dest, after ∪ extra))

/-- What a block makes of the facts.  A block without a rule passes them on. -/
def Problem.flow (p : Problem) (b : BlockId) (s : FactSet) : Flow FactSet :=
  match p.rules.lookup b with
  | none => .uniform s
  | some r => r.flow s

/-- The dataflow problem. -/
def Problem.analysis (p : Problem) : Analysis FactSet where
  direction := p.direction
  boundary _ := p.boundary
  transfer _ b s := .ok (p.flow b s)
  combine recorded incoming :=
    match p.meeting with
    | .union => recorded ∪ incoming
    | .intersect => recorded ∩ incoming

end GenKill

end FlowGraph
