import FlowGraph.Procedure.Basic

/-!
# Dataflow problems

A dataflow problem attaches a state to both ends of every block.  It says in which direction
states move, which state enters the procedure, how a block changes a state, and how two states
that meet at one place are combined.

The *near* end of a block is where a state comes in and the *far* end is where it leaves.  Forward
these are entry and exit, backward exit and entry.
-/

namespace FlowGraph

/-- The direction in which states move. -/
inductive Direction where
  /-- From the entry block along the edges. -/
  | forward
  /-- From the exit blocks against the edges. -/
  | backward
  deriving DecidableEq

/-- What a block makes of a state. -/
inductive Flow (σ : Type) where
  /-- The same state leaves along every edge. -/
  | uniform (state : σ)
  /-- The state at the far end, and the state that leaves along each of the listed edges.  An edge
  that is not listed is not taken. -/
  | split (state : σ) (edges : List (BlockId × σ))
  deriving DecidableEq

/-- The state at the far end. -/
def Flow.state {σ : Type} : Flow σ → σ
  | uniform state => state
  | split state _ => state

/-- The states of the listed edges, if the flow lists them. -/
def Flow.edges? {σ : Type} : Flow σ → Option (List (BlockId × σ))
  | uniform _ => none
  | split _ edges => some edges

/-- A dataflow problem with states in `σ`. -/
structure Analysis (σ : Type) where
  /-- The direction in which states move. -/
  direction : Direction
  /-- The state that comes in at the seeds. -/
  boundary : Procedure → σ
  /-- What a block makes of a state at its near end. -/
  transfer : Procedure → BlockId → σ → Except Fault (Flow σ)
  /-- The combination of a recorded state with an incoming one. -/
  combine : σ → σ → σ

namespace Analysis

variable {σ : Type}

/-- The blocks where a run starts. -/
def seeds (A : Analysis σ) (f : Procedure) : Except Fault (List BlockId) :=
  match A.direction with
  | .forward => .ok [f.entry]
  | .backward => f.exitBlocks

/-- What is recorded once a state has come in.  The first state is taken as it is. -/
def merge (A : Analysis σ) : Option σ → σ → σ
  | none, incoming => incoming
  | some recorded, incoming => A.combine recorded incoming

/-- The states that a block passes on, in order.  Listed edges count forward only. -/
def onward (A : Analysis σ) (f : Procedure) (b : BlockId) (flow : Flow σ) (far : σ) :
    Except Fault (List (BlockId × σ)) :=
  match A.direction, flow with
  | .forward, .split _ edges => .ok edges
  | .forward, .uniform _ => return (← f.successors b).map (·, far)
  | .backward, _ => return (← f.predecessors b).map (·, far)

end Analysis

end FlowGraph
