import FlowGraph.Proofs.Interval.Narrowing
import FlowGraph.Proofs.Procedure.Build
import FlowGraph.Proofs.Value.Order
import Mathlib.Logic.Function.Basic

/-!
# Running a procedure on integers

A machine is at some point of a block, with the instructions that are still to come, and has a
memory of slots and registers.  Slots last.  Registers are forgotten when a block is entered, so an
instruction reads only registers made since then.  An operand that names a variable reads the slot.

A step runs one instruction, or leaves a block of which no instruction is left.  A machine that
reads what is not there, divides by zero or meets an opcode on bits has no step.  Every step tells
which integers it handled: those put into a slot or taken out, the operands and the result of a
binary operation, the sides of a comparison, and the integer that decides a branch.
-/

namespace FlowGraph

/-- The result of a binary operation, unsigned as signed.  There is none by zero, nor of an opcode
on bits. -/
def BinOp.eval? : BinOp → Int → Int → Option Int
  | add, x, y => some (x + y)
  | sub, x, y => some (x - y)
  | mul, x, y => some (x * y)
  | sdiv, x, y => if y = 0 then none else some (x.tdiv y)
  | udiv, x, y => if y = 0 then none else some (x.tdiv y)
  | srem, x, y => if y = 0 then none else some (x.tmod y)
  | urem, x, y => if y = 0 then none else some (x.tmod y)
  | _, _, _ => none

/-- What a register holds: an integer, or whether a comparison held. -/
inductive Register where
  | int (n : Int)
  | flag (holds : Bool)
  deriving DecidableEq

def Register.isFlag : Register → Bool
  | int _ => false
  | flag _ => true

/-- The slots and the registers. -/
structure Memory where
  slots : InstId → Option Int
  regs : InstId → Option Register

namespace Memory

/-- The memory without slots and registers. -/
def blank : Memory := ⟨fun _ => none, fun _ => none⟩

def setSlot (m : Memory) (slot : InstId) (n : Int) : Memory :=
  { m with slots := Function.update m.slots slot (some n) }

def setReg (m : Memory) (id : InstId) (x : Register) : Memory :=
  { m with regs := Function.update m.regs id (some x) }

/-- What is there after an update is new, or was there before. -/
theorem update_eq_some {α : Type} {contents : InstId → Option α} {id v : InstId} {x y : α}
    (found : Function.update contents id (some x) v = some y) :
    v = id ∧ y = x ∨ v ≠ id ∧ contents v = some y := by
  by_cases same : v = id
  · subst same
    rw [Function.update_self, Option.some.injEq] at found
    exact .inl ⟨rfl, found.symm⟩
  · rw [Function.update_of_ne same] at found
    exact .inr ⟨same, found⟩

/-- The memory at the entry of the next block. -/
def forgetRegs (m : Memory) : Memory := { m with regs := fun _ => none }

/-- The integer an operand stands for. -/
def read? (m : Memory) (f : Procedure) : Operand → Option Int
  | .const n => some n
  | .value id =>
    if f.hasVariable id then m.slots id
    else
      match m.regs id with
      | some (.int n) => some n
      | _ => none

theorem read?_value {f : Procedure} {m : Memory} {id : InstId} {n : Int}
    (read : m.read? f (.value id) = some n) :
    f.hasVariable id = true ∧ m.slots id = some n ∨
      f.hasVariable id = false ∧ m.regs id = some (.int n) := by
  simp only [read?] at read
  split at read
  next isVariable => exact .inl ⟨isVariable, read⟩
  next notVariable =>
    split at read
    next found =>
      cases read
      exact .inr ⟨Bool.not_eq_true _ ▸ notVariable, found⟩
    next => cases read

/-- Where an operation goes, and the integer that decides it. -/
inductive Leaves (f : Procedure) (m : Memory) : Operation → List Int → BlockId → Prop where
  | jump {dest : BlockId} : Leaves f m (.jump dest) [] dest
  /-- An integer other than zero goes to the first destination. -/
  | number {cond : Operand} {onTrue onFalse : BlockId} {n : Int} :
      m.read? f cond = some n →
      Leaves f m (.branch cond onTrue onFalse) [n] (if n ≠ 0 then onTrue else onFalse)
  | flag {c : InstId} {onTrue onFalse : BlockId} {holds : Bool} :
      m.regs c = some (.flag holds) →
      Leaves f m (.branch (.value c) onTrue onFalse) [] (if holds then onTrue else onFalse)

end Memory

/-- A point of a block with the memory there. -/
structure Machine where
  block : BlockId
  /-- The instructions of the block that have not run. -/
  todo : List InstId
  memory : Memory

namespace Machine

/-- What an instruction does to the memory, and the integers it handles. -/
inductive Runs (f : Procedure) (m : Memory) (id : InstId) : List Int → Memory → Prop where
  /-- Any integer may be in a new slot. -/
  | alloca {n : Int} : f.op id = .ok .alloca → Runs f m id [n] (m.setSlot id n)
  | load {slot : InstId} {n : Int} :
      f.op id = .ok (.load slot) → m.slots slot = some n →
      Runs f m id [n] (m.setReg id (.int n))
  | store {value : Operand} {slot : InstId} {n : Int} :
      f.op id = .ok (.store value slot) → m.read? f value = some n →
      Runs f m id [n] (m.setSlot slot n)
  | binary {op : BinOp} {lhs rhs : Operand} {x y z : Int} :
      f.op id = .ok (.binary op lhs rhs) → m.read? f lhs = some x → m.read? f rhs = some y →
      op.eval? x y = some z → Runs f m id [x, y, z] (m.setReg id (.int z))
  | compare {pred : Predicate} {lhs rhs : Operand} {x y : Int} :
      f.op id = .ok (.compare pred lhs rhs) → m.read? f lhs = some x → m.read? f rhs = some y →
      Runs f m id [x, y] (m.setReg id (.flag (decide (pred.relation.Holds x y))))
  | branch {cond : Operand} {onTrue onFalse : BlockId} :
      f.op id = .ok (.branch cond onTrue onFalse) → Runs f m id [] m
  | jump {dest : BlockId} : f.op id = .ok (.jump dest) → Runs f m id [] m
  | other : f.op id = .ok .other → Runs f m id [] m

/-- A step of the machine, and the integers it handles. -/
inductive Step (f : Procedure) : Machine → List Int → Machine → Prop where
  | run {b : BlockId} {id : InstId} {rest : List InstId} {m m' : Memory} {handled : List Int} :
      Runs f m id handled m' → Step f ⟨b, id :: rest, m⟩ handled ⟨b, rest, m'⟩
  | leave {b dest : BlockId} {op : Operation} {ids : List InstId} {m : Memory}
      {handled : List Int} :
      f.terminator b = .ok (some op) → m.Leaves f op handled dest → f.instsOf dest = .ok ids →
      Step f ⟨b, [], m⟩ handled ⟨dest, ids, m.forgetRegs⟩

/-- An execution that starts at the entry without slots, the integers it handles, and where it
arrives. -/
inductive Reaches (f : Procedure) : List Int → Machine → Prop where
  | start {ids : List InstId} :
      f.instsOf f.entry = .ok ids → Reaches f [] ⟨f.entry, ids, .blank⟩
  | step {handled more : List Int} {c c' : Machine} :
      Reaches f handled c → Step f c more c' → Reaches f (handled ++ more) c'

end Machine

/-- The window has an integer and its opposite. -/
def Window.Admits (w : Window) (n : Int) : Prop := n ∈ w ∧ -n ∈ w

instance (w : Window) (n : Int) : Decidable (w.Admits n) :=
  inferInstanceAs (Decidable ((w.lo ≤ n ∧ n ≤ w.hi) ∧ w.lo ≤ -n ∧ -n ≤ w.hi))

/-! ## Branches that see the slots as they are -/

namespace Procedure

/-- Whether an instruction puts an integer into a slot. -/
def writes (f : Procedure) (id : InstId) : Bool :=
  match f.op id with
  | .ok .alloca => true
  | .ok (.store ..) => true
  | _ => false

/-- Whether an instruction is a load. -/
def isLoad (f : Procedure) (id : InstId) : Bool :=
  match f.op id with
  | .ok (.load _) => true
  | _ => false

/-- The comparison that decides the branch at the end of a block, and the loads that the comparison
reads. -/
def deciders (f : Procedure) (b : BlockId) : List InstId :=
  match f.terminator b with
  | .ok (some (.branch (.value c) _ _)) =>
    match f.op c with
    | .ok (.compare _ lhs rhs) => c :: ([lhs, rhs].filterMap Operand.inst?).filter f.isLoad
    | _ => []
  | _ => []

/-- No slot is written, inside the block, after the comparison that decides its branch or after a
load that this comparison reads. -/
def Steady (f : Procedure) : Prop :=
  ∀ b, (inside : b < f.blocks.size) →
    f.blocks[b].insts.Pairwise fun x y => x ∈ f.deciders b → f.writes y = false

instance (f : Procedure) : Decidable f.Steady :=
  inferInstanceAs (Decidable (∀ b, (inside : b < f.blocks.size) →
    f.blocks[b].insts.Pairwise fun x y => x ∈ f.deciders b → f.writes y = false))

variable {f : Procedure} {b : BlockId}

theorem Steady.writes_eq_false (steady : f.Steady) {done rest : List InstId} {id r : InstId}
    (found : f.instsOf b = .ok (done ++ id :: rest)) (before : r ∈ done)
    (decides : r ∈ f.deciders b) : f.writes id = false := by
  obtain ⟨block, there, same⟩ := bind_eq_ok_iff.mp found
  obtain ⟨inside, rfl⟩ := Array.getElem?_eq_some_iff.mp (lookup_eq_ok_iff.mp there)
  have pairs := steady b inside
  rw [pure_eq_ok_iff.mp same] at pairs
  exact (List.pairwise_append.mp pairs).2.2 r before id List.mem_cons_self decides

/-- The comparison at the end of a block decides its branch. -/
theorem compare_mem_deciders {c : InstId} {onTrue onFalse : BlockId}
    (leaves : f.terminator b = .ok (some (.branch (.value c) onTrue onFalse)))
    (compares : f.isCompare c = true) : c ∈ f.deciders b := by
  unfold isCompare at compares
  split at compares
  next found => simp [deciders, leaves, found]
  next => cases compares

/-- The loads that a deciding comparison reads are deciders too. -/
theorem load_mem_deciders {c r slot : InstId} {pred : Predicate} {lhs rhs : Operand}
    (decides : c ∈ f.deciders b) (compares : f.op c = .ok (.compare pred lhs rhs))
    (side : lhs = .value r ∨ rhs = .value r) (loads : f.op r = .ok (.load slot)) :
    r ∈ f.deciders b := by
  have isLoad : f.isLoad r = true := by simp [Procedure.isLoad, loads]
  unfold deciders at decides ⊢
  split at decides
  next c' onTrue onFalse leaves =>
    split at decides
    next pred' lhs' rhs' found =>
      rcases List.mem_cons.mp decides with rfl | loaded
      · rw [compares] at found
        cases found
        refine List.mem_cons_of_mem _ (List.mem_filter.mpr ⟨?_, isLoad⟩)
        rcases side with rfl | rfl <;> simp [Operand.inst?]
      · have notLoad := (List.mem_filter.mp loaded).2
        simp [Procedure.isLoad, compares] at notLoad
    next => cases decides
  next => cases decides

end Procedure

end FlowGraph
