import FlowGraph.Proofs.Procedure.Build

/-!
# The graph of a built procedure

Building a draft checks everything that instructions refer to.  So in a built procedure every id
names something (`Closed`).  The entry and both ends of every edge are blocks, the instructions of
a block are there, and so are the values and the slots that an instruction uses.  The predecessors
of a block are exactly the blocks with an edge to it.

A path goes from the entry along the edges, and what it arrives at is reachable.  An exit is a
reachable block without successors.
-/

namespace FlowGraph

namespace Draft

variable {d : Draft}

/-! ## The layout -/

theorem Passes.succs (passes : d.Passes) {b c : BlockId} (edge : c ∈ d.succsOf b) :
    c < d.labels.size := by
  rw [succsOf, lastTargets] at edge
  cases isLast : (d.opsOf b).getLast? with
  | none =>
      rw [isLast] at edge
      cases edge
  | some op =>
      rw [isLast, Option.elim_some] at edge
      obtain ⟨id, -, isOp⟩ := List.mem_filterMap.mp (List.mem_of_getLast? isLast)
      obtain ⟨i, found, rfl⟩ := Option.map_eq_some_iff.mp isOp
      exact passes.target found edge

theorem mem_predsOf_iff {b p : BlockId} :
    p ∈ d.predsOf b ↔ p < d.labels.size ∧ b ∈ d.succsOf p := by
  simp [predsOf]

end Draft

namespace Procedure

variable {d : Draft} {f : Procedure}

/-! ## Edges, paths and exits -/

/-- There is an edge from one block to another. -/
def Edge (f : Procedure) (b c : BlockId) : Prop := ∃ succs, f.successors b = .ok succs ∧ c ∈ succs

/-- A path from the entry: the blocks before, and the block where it arrives. -/
inductive Path (f : Procedure) : List BlockId → BlockId → Prop where
  | entry : Path f [] f.entry
  | step {before : List BlockId} {b next : BlockId} {succs : List BlockId} :
      Path f before b → f.successors b = .ok succs → next ∈ succs → Path f (before ++ [b]) next

/-- A path arrives at the block. -/
def Reachable (f : Procedure) (b : BlockId) : Prop := ∃ before, f.Path before b

/-- The block can be reached from the entry and has no successors. -/
def IsExit (f : Procedure) (b : BlockId) : Prop := f.Reachable b ∧ f.successors b = .ok []

theorem reachable_entry : f.Reachable f.entry := ⟨[], .entry⟩

theorem Reachable.step {b c : BlockId} (reachable : f.Reachable b) (edge : f.Edge b c) :
    f.Reachable c := by
  obtain ⟨before, path⟩ := reachable
  obtain ⟨succs, found, member⟩ := edge
  exact ⟨before ++ [b], path.step found member⟩

/-- A list of paths has all paths if it has the empty one, and with each path every longer one. -/
theorem Path.mem_of_steps {paths : List (List BlockId × BlockId)} (start : ([], f.entry) ∈ paths)
    (steps : ∀ path ∈ paths, (f.successors path.2).toOption.all
      (fun succs => succs.all fun next => (path.1 ++ [path.2], next) ∈ paths) = true)
    {before : List BlockId} {b : BlockId} (path : f.Path before b) : (before, b) ∈ paths := by
  induction path with
  | entry => exact start
  | @step before b next succs path found member ih =>
      have longer := steps (before, b) ih
      rw [found] at longer
      exact of_decide_eq_true (List.all_eq_true.mp longer next member)

/-! ## Built procedures -/

theorem block_eq_ok_iff {b : BlockId} : (∃ block, f.block b = .ok block) ↔ b < f.numBlocks := by
  simp only [block, lookup_eq_ok_iff, numBlocks]
  constructor
  · rintro ⟨block, found⟩
    exact (Array.getElem?_eq_some_iff.mp found).1
  · intro inside
    exact ⟨_, Array.getElem?_eq_getElem inside⟩

theorem inst_eq_ok_iff {id : InstId} : (∃ i, f.inst id = .ok i) ↔ id < f.numInsts := by
  simp only [inst, lookup_eq_ok_iff, numInsts]
  constructor
  · rintro ⟨i, found⟩
    exact (Array.getElem?_eq_some_iff.mp found).1
  · intro inside
    exact ⟨_, Array.getElem?_eq_getElem inside⟩

theorem op_of_lt {id : InstId} (inside : id < f.numInsts) : ∃ op, f.op id = .ok op := by
  obtain ⟨i, found⟩ := inst_eq_ok_iff.mpr inside
  exact ⟨i.op, bind_eq_ok_iff.mpr ⟨i, found, rfl⟩⟩

theorem valueName_of_lt {id : InstId} (inside : id < f.numInsts) :
    ∃ name, f.valueName id = .ok name := by
  obtain ⟨i, found⟩ := inst_eq_ok_iff.mpr inside
  exact ⟨i.name, bind_eq_ok_iff.mpr ⟨i, found, rfl⟩⟩

theorem lt_of_op {id : InstId} {op : Operation} (found : f.op id = .ok op) : id < f.numInsts := by
  obtain ⟨i, found, -⟩ := bind_eq_ok_iff.mp found
  exact inst_eq_ok_iff.mp ⟨i, found⟩

theorem lt_of_hasVariable {id : InstId} (isVariable : f.hasVariable id = true) :
    id < f.numInsts :=
  lt_of_op (hasVariable_iff.mp isVariable)

theorem checkInsts_of_lt {ids : List InstId} (inside : ∀ id ∈ ids, id < f.numInsts) :
    f.checkInsts ids = .ok () := by
  refine forM_eq_ok_iff.mpr fun id member => ?_
  obtain ⟨i, found⟩ := inst_eq_ok_iff.mpr (inside id member)
  exact bind_eq_ok_iff.mpr ⟨i, found, rfl⟩

/-- Every id in the procedure names something. -/
structure Closed (f : Procedure) : Prop where
  /-- The entry is a block. -/
  entry : f.entry < f.numBlocks
  /-- Every block has its instructions. -/
  insts : ∀ b < f.numBlocks, ∃ ids, f.instsOf b = .ok ids ∧ ∀ id ∈ ids, id < f.numInsts
  /-- Every block has its successors. -/
  succs : ∀ b < f.numBlocks, ∃ succs, f.successors b = .ok succs ∧ ∀ c ∈ succs, c < f.numBlocks
  /-- Every block has its predecessors, which are the blocks with an edge to it. -/
  preds : ∀ b < f.numBlocks, ∃ preds, f.predecessors b = .ok preds ∧ ∀ p, p ∈ preds ↔ f.Edge p b
  /-- The values that instructions read are there. -/
  operands : ∀ id op r, f.op id = .ok op → .value r ∈ op.operands → r < f.numInsts
  /-- The slots that instructions use are variables. -/
  slots : ∀ id op slot, f.op id = .ok op → op.slot? = some slot → f.hasVariable slot = true
  /-- The destinations of instructions are blocks. -/
  targets : ∀ id op dest, f.op id = .ok op → dest ∈ op.targets → dest < f.numBlocks
  /-- A block has the instructions that belong to it. -/
  owner : ∀ b ids, f.instsOf b = .ok ids → ∀ id, id ∈ ids ↔ ∃ i, f.inst id = .ok i ∧ i.block = b

theorem closed_of_build (built : d.build = .ok f) : f.Closed := by
  have slots : ∀ id op slot, f.op id = .ok op → op.slot? = some slot →
      f.hasVariable slot = true := fun _ _ _ => hasVariable_slot built
  obtain ⟨passes, rfl⟩ := Draft.build_eq_ok_iff.mp built
  have blocks : d.layout.numBlocks = d.labels.size := by simp [numBlocks, Draft.layout]
  have insts : d.layout.numInsts = d.insts.size := by simp [numInsts, Draft.layout]
  refine ⟨?_, ?_, ?_, ?_, ?_, slots, ?_, ?_⟩
  · rw [blocks]
    exact Array.size_pos_iff.mpr (Array.isEmpty_eq_false_iff.mp passes.blocks)
  · intro b inside
    rw [blocks] at inside
    refine ⟨d.instsOf b, Draft.layout_instsOf_eq_ok_iff.mpr ⟨inside, rfl⟩, fun id member => ?_⟩
    rw [insts]
    obtain ⟨i, there, -⟩ := Draft.mem_instsOf_iff.mp member
    exact (Array.getElem?_eq_some_iff.mp there).1
  · intro b inside
    rw [blocks] at inside
    refine ⟨d.succsOf b, Draft.layout_successors_eq_ok_iff.mpr ⟨inside, rfl⟩, fun c member => ?_⟩
    rw [blocks]
    exact passes.succs member
  · intro b inside
    rw [blocks] at inside
    refine ⟨_, Draft.layout_predecessors_eq_ok_iff.mpr ⟨inside, rfl⟩, fun p => ?_⟩
    rw [Draft.mem_predsOf_iff]
    constructor
    · rintro ⟨before, member⟩
      exact ⟨_, Draft.layout_successors_eq_ok_iff.mpr ⟨before, rfl⟩, member⟩
    · rintro ⟨succs, listed, member⟩
      obtain ⟨before, rfl⟩ := Draft.layout_successors_eq_ok_iff.mp listed
      exact ⟨before, member⟩
  · intro id op r found reads
    obtain ⟨i, there, rfl⟩ := Draft.layout_op_eq_ok_iff.mp found
    rw [insts]
    exact passes.operand there reads
  · intro id op dest found goes
    obtain ⟨i, there, rfl⟩ := Draft.layout_op_eq_ok_iff.mp found
    rw [blocks]
    exact passes.target there goes
  · intro b ids listed id
    obtain ⟨-, rfl⟩ := Draft.layout_instsOf_eq_ok_iff.mp listed
    rw [Draft.mem_instsOf_iff]
    simp only [inst, lookup_eq_ok_iff, Draft.layout_insts_getElem?, Option.map_eq_some_iff]
    constructor
    · rintro ⟨i, there, rfl⟩
      exact ⟨_, ⟨i, there, rfl⟩, rfl⟩
    · rintro ⟨_, ⟨i, there, rfl⟩, rfl⟩
      exact ⟨i, there, rfl⟩

/-- A block has each of its instructions once. -/
theorem nodup_instsOf (built : d.build = .ok f) {b : BlockId} {ids : List InstId}
    (listed : f.instsOf b = .ok ids) : ids.Nodup := by
  obtain ⟨-, rfl⟩ := Draft.build_eq_ok_iff.mp built
  obtain ⟨-, rfl⟩ := Draft.layout_instsOf_eq_ok_iff.mp listed
  exact List.Pairwise.filter _ List.nodup_range

theorem Edge.lt {b c : BlockId} (edge : f.Edge b c) : b < f.numBlocks := by
  obtain ⟨succs, listed, -⟩ := edge
  obtain ⟨block, found, -⟩ := bind_eq_ok_iff.mp listed
  exact block_eq_ok_iff.mp ⟨block, found⟩

namespace Closed

variable (closed : f.Closed)
include closed

theorem edge_lt {b c : BlockId} (edge : f.Edge b c) : c < f.numBlocks := by
  obtain ⟨succs, found, inside⟩ := closed.succs b edge.lt
  obtain ⟨succs', found', member⟩ := edge
  rw [found] at found'
  cases found'
  exact inside c member

theorem lt_of_reachable {b : BlockId} (reachable : f.Reachable b) : b < f.numBlocks := by
  obtain ⟨before, path⟩ := reachable
  cases path with
  | entry => exact closed.entry
  | step path found member => exact closed.edge_lt ⟨_, found, member⟩

end Closed

end Procedure

end FlowGraph
