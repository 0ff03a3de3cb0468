import FlowGraph.Solver.Worklist

/-!
# Solutions

A solution freezes what a run recorded, together with the labels of the blocks.  States can be
looked up by id and by label.  Unlike in a procedure, asking for a block that is not there gives
no state and is no fault.
-/

namespace FlowGraph

/-- The recorded states of a procedure. -/
structure Solution (σ : Type) where
  /-- The labels of the blocks, by id. -/
  labels : Array String
  /-- The states at the ends of the blocks. -/
  tables : Tables σ
  deriving DecidableEq

/-- What is recorded, with the labels of the procedure. -/
def Tables.freeze {σ : Type} (t : Tables σ) (f : Procedure) : Solution σ :=
  ⟨f.blocks.map (·.label), t⟩

namespace Solution

variable {σ : Type}

/-- The state at the entry of a block. -/
def entry? (s : Solution σ) (b : BlockId) : Option σ := s.tables.entry[b]?.join

/-- The state at the exit of a block. -/
def exit? (s : Solution σ) (b : BlockId) : Option σ := s.tables.exit[b]?.join

/-- The first block with a label. -/
def position? (s : Solution σ) (label : String) : Option BlockId :=
  s.labels.findIdx? (· == label)

/-- The state at the entry of the block with a label. -/
def entryAt? (s : Solution σ) (label : String) : Option σ := (s.position? label).bind s.entry?

/-- The state at the exit of the block with a label. -/
def exitAt? (s : Solution σ) (label : String) : Option σ := (s.position? label).bind s.exit?

/-- Whether a block was visited. -/
def isReached (s : Solution σ) (b : BlockId) : Bool := (s.entry? b).isSome || (s.exit? b).isSome

/-- The order of labelled blocks: by label, then by id. -/
def labelLe (a b : String × BlockId) : Bool := a.1 < b.1 || a.1 == b.1 && a.2 ≤ b.2

/-- The visited blocks with their labels, sorted by label. -/
def blocksByLabel (s : Solution σ) : List (String × BlockId) :=
  (s.labels.toList.zipIdx.filter fun p => s.isReached p.2).mergeSort labelLe

end Solution

/-- The solution of a problem on a procedure, found in at most `limit` visits. -/
def solve {σ : Type} [DecidableEq σ] (A : Analysis σ) (f : Procedure) (limit : Nat) :
    Except Fault (Solution σ) := do
  let done ← Worklist.run A f limit (.fresh f)
  return done.tables.freeze f

end FlowGraph
