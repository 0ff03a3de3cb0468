import FlowGraph.Fault
import FlowGraph.Procedure.Instruction
import Std.Data.ExtTreeSet

/-!
# Procedures

A procedure is a table of blocks and a table of instructions.  A block lists its instructions in
order and the blocks before and after it.  The first block is the entry.  Looking up an id that
names nothing is a fault.

The exit blocks are the blocks without successors that can be reached from the entry.  They are
found by a depth-first search, which meets them in no useful order, and then sorted.  The search
takes a block off its stack at every step and puts the successors of a block there at most once, so
one step more than there are edges is enough.
-/

namespace FlowGraph

/-- A basic block. -/
structure Block where
  /-- The label of the block. -/
  label : String
  /-- Its instructions, in order. -/
  insts : List InstId
  /-- The blocks its last instruction may go to, in order. -/
  succs : List BlockId
  /-- The blocks that may go to it, ascending. -/
  preds : List BlockId
  deriving DecidableEq

/-- A procedure. -/
structure Procedure where
  /-- The name of the procedure. -/
  name : String
  /-- The blocks, by id. -/
  blocks : Array Block
  /-- The instructions, by id. -/
  insts : Array Instruction
  deriving DecidableEq

namespace Procedure

/-! ## Lookup -/

/-- The block where the procedure starts. -/
def entry (_ : Procedure) : BlockId := 0

/-- The number of blocks. -/
def numBlocks (f : Procedure) : Nat := f.blocks.size

/-- The number of instructions. -/
def numInsts (f : Procedure) : Nat := f.insts.size

/-- The block with an id. -/
def block (f : Procedure) (b : BlockId) : Except Fault Block := lookup f.blocks b

/-- The instruction with an id. -/
def inst (f : Procedure) (id : InstId) : Except Fault Instruction := lookup f.insts id

/-- The label of a block. -/
def label (f : Procedure) (b : BlockId) : Except Fault String := return (← f.block b).label

/-- The instructions of a block, in order. -/
def instsOf (f : Procedure) (b : BlockId) : Except Fault (List InstId) :=
  return (← f.block b).insts

/-- The blocks a block may go to, in order. -/
def successors (f : Procedure) (b : BlockId) : Except Fault (List BlockId) :=
  return (← f.block b).succs

/-- The blocks that may go to a block, ascending. -/
def predecessors (f : Procedure) (b : BlockId) : Except Fault (List BlockId) :=
  return (← f.block b).preds

/-- What an instruction does. -/
def op (f : Procedure) (id : InstId) : Except Fault Operation := return (← f.inst id).op

/-- The name of what an instruction makes. -/
def valueName (f : Procedure) (id : InstId) : Except Fault String := return (← f.inst id).name

/-- Whether an instruction makes a variable. -/
def isVariable (f : Procedure) (id : InstId) : Except Fault Bool :=
  return (← f.inst id).isVariable

/-- Stops at the first of some ids that names no instruction. -/
def checkInsts (f : Procedure) (ids : List InstId) : Except Fault Unit :=
  ids.forM fun id => do let _ ← f.inst id

/-- Whether an id is that of a variable.  Ids that name nothing are not. -/
def hasVariable (f : Procedure) (id : InstId) : Bool := f.insts[id]?.any (·.isVariable)

/-- The operation that leaves a block, if its last instruction does. -/
def terminator (f : Procedure) (b : BlockId) : Except Fault (Option Operation) := do
  match (← f.instsOf b).getLast? with
  | none => return none
  | some last =>
    let op ← f.op last
    return if op.isTerminator then some op else none

/-! ## Search by name -/

/-- The variables, ascending. -/
def variableIds (f : Procedure) : List InstId :=
  (List.range f.numInsts).filter f.hasVariable

/-- The first instruction that makes something of this name. -/
def findValue? (f : Procedure) (name : String) : Option InstId :=
  f.insts.findIdx? (·.name == name)

/-- The first block with this label. -/
def findBlock? (f : Procedure) (label : String) : Option BlockId :=
  f.blocks.findIdx? (·.label == label)

/-! ## Exits -/

/-- The number of edges. -/
def numEdges (f : Procedure) : Nat :=
  f.blocks.toList.foldl (fun n b => n + b.succs.length) 0

/-- Depth-first search.  Goes on to every block that can be reached from the blocks on the stack
through blocks not seen before, in at most `steps` steps, and adds those without successors to
`leaves` as it finds them. -/
def search (f : Procedure) : Nat → List BlockId → Std.ExtTreeSet BlockId → List BlockId →
    Except Fault (List BlockId)
  | _, [], _, leaves => .ok leaves
  | 0, _ :: _, _, _ => .error .visitLimit
  | steps + 1, b :: stack, seen, leaves =>
    if b ∈ seen then f.search steps stack seen leaves
    else do
      let succs ← f.successors b
      if succs.isEmpty then f.search steps stack (seen.insert b) (leaves ++ [b])
      else f.search steps (succs.reverse ++ stack) (seen.insert b) leaves

/-- Puts an id before the first that is not less. -/
def insertId (b : BlockId) : List BlockId → List BlockId
  | [] => [b]
  | c :: rest => if b ≤ c then b :: c :: rest else c :: insertId b rest

/-- Sorts ids. -/
def sortIds (ids : List BlockId) : List BlockId := ids.foldr insertId []

/-- The blocks without successors that can be reached from the entry, ascending. -/
def exitBlocks (f : Procedure) : Except Fault (List BlockId) :=
  return sortIds (← f.search (f.numEdges + 1) [f.entry] ∅ [])

end Procedure

end FlowGraph
