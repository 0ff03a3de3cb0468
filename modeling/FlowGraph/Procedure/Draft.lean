import FlowGraph.Procedure.Basic

/-!
# Drafts

A procedure is drafted block by block and instruction by instruction, in any order and without
checks.  `Draft.build` then checks the whole draft and lays out the procedure.  The first block
drafted is the entry.

The blocks are filled in three passes.  The first adds every instruction to its block.  The second
gives every block its successors.  The third goes over the successors of every block and adds the
block to the predecessors of each, once.

Names that start with `%` are reserved for blocks and values without a declared name.  A block
without one is labelled `%bb` and its id, a value `%` and its id.

The checks run in a fixed order, and the first that fails decides the error.  Labels come first,
then the block and the name of each instruction as it is added, then what each instruction refers
to, and last, as the successors are found, that no instruction follows a branch in its block.
-/

namespace FlowGraph

/-- Why a draft is not a procedure. -/
inductive BuildError where
  /-- There is no block, hence no entry. -/
  | noBlocks
  /-- An instruction belongs to, or goes to, a block that is not there. -/
  | unknownBlock (b : BlockId)
  /-- An operand or a slot is not there. -/
  | unknownValue (id : InstId)
  /-- What an instruction loads from or stores to is not a slot. -/
  | notAVariable (inst slot : InstId)
  /-- Two blocks have the same label. -/
  | duplicateLabel (label : String)
  /-- A declared name starts with `%`. -/
  | reservedName (name : String)
  /-- An instruction follows a branch. -/
  | instructionAfterTerminator (label : String)
  deriving DecidableEq

/-- The text shown for an error. -/
def BuildError.message : BuildError → String
  | .noBlocks => "function has no blocks"
  | .unknownBlock b => s!"unknown block {b.text}"
  | .unknownValue id => s!"unknown value {id.text}"
  | .notAVariable inst slot =>
    s!"address {slot.text} of instruction {inst.text} is not a stack slot"
  | .duplicateLabel label => s!"duplicate block label '{label}'"
  | .reservedName name => s!"name '{name}' uses the reserved '%' prefix"
  | .instructionAfterTerminator label =>
    s!"block '{label}' has instructions after its terminator"

/-- An instruction of a draft. -/
structure DraftInst where
  /-- The block it belongs to. -/
  block : BlockId
  /-- The declared name of what it makes. -/
  name? : Option String
  /-- What it does. -/
  op : Operation
  deriving DecidableEq

/-- A procedure being drafted. -/
structure Draft where
  /-- The name of the procedure. -/
  name : String
  /-- The declared labels of its blocks, by id. -/
  labels : Array (Option String)
  /-- Its instructions, by id. -/
  insts : Array DraftInst
  deriving DecidableEq

/-- A step of drafting. -/
abbrev Drafting := StateM Draft

namespace Drafting

/-! ## Steps -/

/-- Adds a block with a declared label, or with none. -/
def addBlock (label? : Option String) : Drafting BlockId :=
  modifyGet fun d => (d.labels.size, { d with labels := d.labels.push label? })

/-- Adds an instruction to a block. -/
def addInst (block : BlockId) (name? : Option String) (op : Operation) : Drafting InstId :=
  modifyGet fun d => (d.insts.size, { d with insts := d.insts.push ⟨block, name?, op⟩ })

/-- Declares the name of a value that is already there. -/
def rename (id : InstId) (name : String) : Drafting Unit :=
  modify fun d => { d with insts := d.insts.modify id ({ · with name? := some name }) }

/-- Adds a block with a declared label. -/
def block (label : String) : Drafting BlockId := addBlock (some label)

/-- Adds a block without a declared label. -/
def anonymousBlock : Drafting BlockId := addBlock none

/-- Adds a slot. -/
def alloca (b : BlockId) (name : String) : Drafting InstId := addInst b (some name) .alloca

/-- Adds a load. -/
def load (b : BlockId) (slot : InstId) : Drafting InstId := addInst b none (.load slot)

/-- Adds a store. -/
def store (b : BlockId) (value : Operand) (slot : InstId) : Drafting InstId :=
  addInst b none (.store value slot)

/-- Adds a binary operation. -/
def binary (b : BlockId) (op : BinOp) (lhs rhs : Operand) : Drafting InstId :=
  addInst b none (.binary op lhs rhs)

/-- Adds a comparison. -/
def compare (b : BlockId) (pred : Predicate) (lhs rhs : Operand) : Drafting InstId :=
  addInst b none (.compare pred lhs rhs)

/-- Adds a branch. -/
def branch (b : BlockId) (cond : Operand) (onTrue onFalse : BlockId) : Drafting InstId :=
  addInst b none (.branch cond onTrue onFalse)

/-- Adds a jump. -/
def jump (b : BlockId) (dest : BlockId) : Drafting InstId := addInst b none (.jump dest)

/-- Adds an instruction that nothing is known about. -/
def other (b : BlockId) : Drafting InstId := addInst b none .other

end Drafting

namespace Block

/-- Adds an instruction at the end of a block. -/
def addInst (block : Block) (id : InstId) : Block := { block with insts := block.insts ++ [id] }

/-- Adds a predecessor to a block, unless the block has it already. -/
def addPred (block : Block) (p : BlockId) : Block :=
  if block.preds.contains p then block else { block with preds := block.preds ++ [p] }

end Block

namespace Draft

/-- The draft of a procedure before its first step. -/
def empty (name : String) : Draft := ⟨name, #[], #[]⟩

/-- What drafting steps make. -/
def ofSteps {α : Type} (name : String) (steps : Drafting α) : Draft := (steps.run (empty name)).2

/-! ## Names -/

/-- Whether a declared name is reserved. -/
def isReserved (name : String) : Bool := name.toList.head? == some '%'

/-- The label of a block, made up from its id unless it is declared. -/
def labelOf (b : BlockId) (declared : Option String) : String := declared.getD s!"%bb{b}"

/-- The name of a value, made up from its id unless it is declared. -/
def nameOf (id : InstId) (declared : Option String) : String := declared.getD id.text

/-! ## Checks -/

/-- A declared name must not be reserved. -/
def checkName : Option String → Except BuildError Unit
  | none => .ok ()
  | some name => if isReserved name then .error (.reservedName name) else .ok ()

/-- Labels must not be reserved and must differ.  The blocks before the given ones have the labels
`seen`, the last first. -/
def checkLabels : List String → List (Option String) → Except BuildError Unit
  | _, [] => .ok ()
  | seen, declared :: rest => do
    checkName declared
    let label := labelOf seen.length declared
    if label ∈ seen then throw (.duplicateLabel label)
    checkLabels (label :: seen) rest

/-- An instruction must belong to a block, and its name must not be reserved. -/
def checkPlace (d : Draft) (i : DraftInst) : Except BuildError Unit := do
  if i.block ≥ d.labels.size then throw (.unknownBlock i.block)
  checkName i.name?

/-- A value that is read must be there. -/
def checkOperand (d : Draft) (o : Operand) : Except BuildError Unit :=
  match o.inst? with
  | none => .ok ()
  | some id => if id ≥ d.insts.size then .error (.unknownValue id) else .ok ()

/-- A slot that is read or written must be there and be a slot. -/
def checkSlot (d : Draft) (user : InstId) (slot : InstId) : Except BuildError Unit :=
  match d.insts[slot]? with
  | none => .error (.unknownValue slot)
  | some i => if i.op = .alloca then .ok () else .error (.notAVariable user slot)

/-- A destination must be there. -/
def checkTarget (d : Draft) (b : BlockId) : Except BuildError Unit :=
  if b ≥ d.labels.size then .error (.unknownBlock b) else .ok ()

/-- Everything an operation refers to must be there. -/
def checkReferences (d : Draft) (id : InstId) (op : Operation) : Except BuildError Unit := do
  op.operands.forM d.checkOperand
  op.slot?.forM (d.checkSlot id)
  op.targets.forM d.checkTarget

/-! ## Layout -/

/-- The blocks with their labels, all of them still empty. -/
def emptyBlocks (d : Draft) : Array Block :=
  d.labels.mapIdx fun b declared => ⟨labelOf b declared, [], [], []⟩

/-- Checks where an instruction is drafted, and adds it to its block. -/
def place (d : Draft) (blocks : Array Block) (id : InstId) (i : DraftInst) :
    Except BuildError (Array Block) := do
  d.checkPlace i
  return blocks.modify i.block (·.addInst id)

/-- What some instructions do, in order. -/
def opsAt (d : Draft) (ids : List InstId) : List Operation :=
  ids.filterMap fun id => d.insts[id]?.map (·.op)

/-- Gives a block its successors, the targets of its first branch.  Nothing may follow that branch
in the block. -/
def link (d : Draft) (block : Block) : Except BuildError Block :=
  let ops := d.opsAt block.insts
  match ops.findIdx? (·.isTerminator) with
  | none => .ok block
  | some pos =>
    if pos + 1 ≠ ops.length then .error (.instructionAfterTerminator block.label)
    else .ok { block with succs := ops[pos]?.elim [] (·.targets) }

/-- The successors of a block.  A block that is not there has none. -/
def succsAt (blocks : Array Block) (b : BlockId) : List BlockId := blocks[b]?.elim [] (·.succs)

/-- Adds a block to the predecessors of all its successors. -/
def linkBackFrom (blocks : Array Block) (b : BlockId) : Array Block :=
  (succsAt blocks b).foldl (fun blocks c => blocks.modify c (·.addPred b)) blocks

/-- Gives every block its predecessors. -/
def linkBack (blocks : Array Block) : Array Block :=
  (List.range blocks.size).foldl linkBackFrom blocks

/-- The procedure a draft describes, if the draft passes all checks. -/
def build (d : Draft) : Except BuildError Procedure := do
  if d.labels.isEmpty then throw .noBlocks
  checkLabels [] d.labels.toList
  let placed ← d.insts.toList.zipIdx.foldlM (fun blocks (i, id) => d.place blocks id i)
    d.emptyBlocks
  d.insts.toList.zipIdx.forM fun (i, id) => d.checkReferences id i.op
  let linked ← placed.toList.mapM d.link
  return {
    name := d.name
    blocks := linkBack linked.toArray
    insts := d.insts.mapIdx fun id i => ⟨nameOf id i.name?, i.block, i.op⟩ }

end Draft

end FlowGraph
