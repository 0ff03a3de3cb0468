import FlowGraph.Interval.Relation

/-!
# Instructions

A procedure works on stack slots and registers.  A slot is made by `alloca`, read by `load` and
written by `store`.  The outcome of a load, of a binary operation or of a comparison is a
register.  Blocks and instructions are named by their position, and the id of an instruction also
names the slot or register it makes.

Signed and unsigned opcodes are kept apart in the text of a procedure and nowhere else.
-/

namespace FlowGraph

/-- The position of a block in its procedure. -/
abbrev BlockId := Nat

/-- The position of an instruction in its procedure.  It also names what the instruction makes. -/
abbrev InstId := Nat

/-- The text of a block id. -/
def BlockId.text (b : BlockId) : String := s!"bb{b}"

/-- The text of an instruction id. -/
def InstId.text (id : InstId) : String := s!"%{id}"

/-! ## Opcodes and predicates -/

/-- The opcode of a binary operation. -/
inductive BinOp where
  | add
  | sub
  | mul
  | sdiv
  | udiv
  | srem
  | urem
  | shl
  | lshr
  | ashr
  | and
  | or
  | xor
  deriving DecidableEq

namespace BinOp

/-- All opcodes. -/
def all : List BinOp :=
  [add, sub, mul, sdiv, udiv, srem, urem, shl, lshr, ashr, and, or, xor]

/-- The sign of an arithmetic opcode in an expression.  Opcodes on bits have none. -/
def symbol? : BinOp → Option Char
  | add => some '+'
  | sub => some '-'
  | mul => some '*'
  | sdiv => some '/'
  | udiv => some '/'
  | srem => some '%'
  | urem => some '%'
  | shl => none
  | lshr => none
  | ashr => none
  | and => none
  | or => none
  | xor => none

/-- The name of an opcode. -/
def text : BinOp → String
  | add => "add"
  | sub => "sub"
  | mul => "mul"
  | sdiv => "sdiv"
  | udiv => "udiv"
  | srem => "srem"
  | urem => "urem"
  | shl => "shl"
  | lshr => "lshr"
  | ashr => "ashr"
  | and => "and"
  | or => "or"
  | xor => "xor"

instance : ToString BinOp := ⟨text⟩

end BinOp

/-- The predicate of a comparison. -/
inductive Predicate where
  | eq
  | ne
  | ugt
  | uge
  | ult
  | ule
  | sgt
  | sge
  | slt
  | sle
  deriving DecidableEq

namespace Predicate

/-- All predicates. -/
def all : List Predicate := [eq, ne, ugt, uge, ult, ule, sgt, sge, slt, sle]

/-- The order relation a predicate states. -/
def relation : Predicate → Relation
  | eq => .eq
  | ne => .ne
  | ugt => .gt
  | sgt => .gt
  | uge => .ge
  | sge => .ge
  | ult => .lt
  | slt => .lt
  | ule => .le
  | sle => .le

/-- The predicate that holds on the other edge of a branch. -/
def inverse : Predicate → Predicate
  | eq => ne
  | ne => eq
  | ugt => ule
  | uge => ult
  | ult => uge
  | ule => ugt
  | sgt => sle
  | sge => slt
  | slt => sge
  | sle => sgt

/-- The name of a predicate. -/
def text : Predicate → String
  | eq => "eq"
  | ne => "ne"
  | ugt => "ugt"
  | uge => "uge"
  | ult => "ult"
  | ule => "ule"
  | sgt => "sgt"
  | sge => "sge"
  | slt => "slt"
  | sle => "sle"

instance : ToString Predicate := ⟨text⟩

theorem relation_inverse (p : Predicate) : p.inverse.relation = p.relation.negate := by
  cases p <;> rfl

end Predicate

/-! ## Operations -/

/-- A value an instruction reads: what another instruction made, or an integer. -/
inductive Operand where
  | value (id : InstId)
  | const (n : Int)
  deriving DecidableEq

/-- The instruction an operand reads, if any. -/
def Operand.inst? : Operand → Option InstId
  | .value id => some id
  | .const _ => none

/-- What an instruction does. -/
inductive Operation where
  /-- Makes a stack slot. -/
  | alloca
  /-- Reads a slot. -/
  | load (slot : InstId)
  /-- Writes a value to a slot. -/
  | store (value : Operand) (slot : InstId)
  /-- Computes with two values. -/
  | binary (op : BinOp) (lhs rhs : Operand)
  /-- Compares two values. -/
  | compare (pred : Predicate) (lhs rhs : Operand)
  /-- Goes to one of two blocks. -/
  | branch (cond : Operand) (onTrue onFalse : BlockId)
  /-- Goes to a block. -/
  | jump (dest : BlockId)
  /-- Anything else, such as a call or a return. -/
  | other
  deriving DecidableEq

namespace Operation

/-- Whether the operation leaves its block. -/
def isTerminator : Operation → Bool
  | branch .. => true
  | jump .. => true
  | _ => false

/-- The values an operation reads, in order.  The slot and the destinations are not among them. -/
def operands : Operation → List Operand
  | store value _ => [value]
  | binary _ lhs rhs => [lhs, rhs]
  | compare _ lhs rhs => [lhs, rhs]
  | branch cond _ _ => [cond]
  | _ => []

/-- The slot of a load or a store. -/
def slot? : Operation → Option InstId
  | load slot => some slot
  | store _ slot => some slot
  | _ => none

/-- The blocks an operation may go to, in order. -/
def targets : Operation → List BlockId
  | branch _ onTrue onFalse => [onTrue, onFalse]
  | jump dest => [dest]
  | _ => []

end Operation

/-- An instruction in its block. -/
structure Instruction where
  /-- The name of what it makes. -/
  name : String
  /-- The block it belongs to. -/
  block : BlockId
  /-- What it does. -/
  op : Operation
  deriving DecidableEq

/-- Whether the instruction makes a stack slot.  Slots are the variables of a procedure. -/
def Instruction.isVariable (i : Instruction) : Bool := i.op == .alloca

end FlowGraph
