import FlowGraph.Solver.Analysis

/-!
# The worklist

The solver keeps a table of states for each end of the blocks and a stack of states that still
have to come in somewhere.  A visit takes the top of the stack.  It merges the state into the near
end of its block, carries the result across the block, and merges that into the far end.  If
either end changed, the block passes its states on.  A block visited for the first time changes,
since nothing was recorded before.

What a block passes on goes on the stack in order, so the last of it is visited first.  The seeds
are visited in order.

A run is bounded by a number of visits.  When the bound is used up with states still pending the
run stops with a fault, so a run that ends normally has emptied the stack.
-/

namespace FlowGraph

/-- The states recorded for the blocks, by id.  Blocks never visited have none. -/
structure Tables (σ : Type) where
  /-- The states at the entries. -/
  entry : Array (Option σ)
  /-- The states at the exits. -/
  exit : Array (Option σ)
  deriving DecidableEq

namespace Tables

variable {σ : Type}

/-- The tables of a procedure of which no block has been visited. -/
def fresh (f : Procedure) : Tables σ :=
  ⟨Array.replicate f.numBlocks none, Array.replicate f.numBlocks none⟩

/-- The states at the near ends. -/
def near (t : Tables σ) : Direction → Array (Option σ)
  | .forward => t.entry
  | .backward => t.exit

/-- The states at the far ends. -/
def far (t : Tables σ) : Direction → Array (Option σ)
  | .forward => t.exit
  | .backward => t.entry

/-- The tables with new states at the two ends of a block. -/
def record (t : Tables σ) (d : Direction) (b : BlockId) (near far : σ) : Tables σ :=
  match d with
  | .forward => ⟨t.entry.setIfInBounds b near, t.exit.setIfInBounds b far⟩
  | .backward => ⟨t.entry.setIfInBounds b far, t.exit.setIfInBounds b near⟩

end Tables

/-- A run between two visits. -/
structure Worklist (σ : Type) where
  /-- What is recorded. -/
  tables : Tables σ
  /-- The states that have yet to come in, the next first. -/
  pending : List (BlockId × σ)
  /-- The number of visits so far. -/
  visits : Nat

namespace Worklist

variable {σ : Type} [DecidableEq σ]

/-- Lets a state come into a block.  Gives the new tables and what the block passes on. -/
def visit (A : Analysis σ) (f : Procedure) (t : Tables σ) (b : BlockId) (incoming : σ) :
    Except Fault (Tables σ × List (BlockId × σ)) := do
  let near? ← lookup (t.near A.direction) b
  let far? ← lookup (t.far A.direction) b
  let near := A.merge near? incoming
  let flow ← A.transfer f b near
  let far := A.merge far? flow.state
  if near? = some near ∧ far? = some far then return (t, [])
  let passed ← A.onward f b flow far
  return (t.record A.direction b near far, passed)

/-- Takes the next pending state.  Without one nothing happens. -/
def step (A : Analysis σ) (f : Procedure) (w : Worklist σ) : Except Fault (Worklist σ) :=
  match w.pending with
  | [] => .ok w
  | (b, incoming) :: rest => do
    let (tables, passed) ← visit A f w.tables b incoming
    return ⟨tables, passed.reverse ++ rest, w.visits + 1⟩

/-- Takes pending states until there are none, at most `limit` of them. -/
def drain (A : Analysis σ) (f : Procedure) : Nat → Worklist σ → Except Fault (Worklist σ)
  | 0, w => if w.pending.isEmpty then .ok w else .error .visitLimit
  | limit + 1, w =>
    if w.pending.isEmpty then .ok w
    else
      match step A f w with
      | .ok next => drain A f limit next
      | .error fault => .error fault

/-- The start of a run on given tables: the boundary state is pending at every seed. -/
def start (A : Analysis σ) (f : Procedure) (t : Tables σ) : Except Fault (Worklist σ) := do
  let seeds ← A.seeds f
  return ⟨t, seeds.map (·, A.boundary f), 0⟩

/-- Runs to the end from given tables, in at most `limit` visits. -/
def run (A : Analysis σ) (f : Procedure) (limit : Nat) (t : Tables σ) :
    Except Fault (Worklist σ) := do
  drain A f limit (← start A f t)

end Worklist

end FlowGraph
