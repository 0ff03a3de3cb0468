import FlowGraph.Procedure.Draft
import FlowGraph.Proofs.Fault

/-!
# The layout of a draft

Building fills the blocks of a draft in place, in three passes.  Here every block is described at
once, and the description is what the passes come to (`linkBack_linked`).

The first pass adds each instruction at the end of its block.  It goes over the instructions by id,
so a block has those that belong to it in ascending order (`placed_getElem?`).

The second pass finds the first branch of a block.  If nothing follows it, it is the last
instruction, so the successors are the targets of the last instruction (`link_eq_ok_iff`).

The third pass adds a block to the predecessors of its successors.  It passes over a block that has
it already, so a successor listed twice makes no difference (`linkBackFrom_getElem?`).  It goes over
the blocks by id, so predecessors ascend.
-/

namespace FlowGraph

theorem Operation.targets_of_not_isTerminator {op : Operation} (stays : op.isTerminator = false) :
    op.targets = [] := by
  cases op with
  | branch => cases stays
  | jump => cases stays
  | _ => rfl

namespace Draft

variable {d : Draft}

/-! ## What the passes come to -/

/-- The instructions that belong to a block, ascending. -/
def instsOf (d : Draft) (b : BlockId) : List InstId :=
  (List.range d.insts.size).filter fun id => d.insts[id]?.any (·.block == b)

/-- What the instructions of a block do, in order. -/
def opsOf (d : Draft) (b : BlockId) : List Operation := d.opsAt (d.instsOf b)

/-- Where the last of some operations may go. -/
def lastTargets (ops : List Operation) : List BlockId := ops.getLast?.elim [] (·.targets)

/-- Where the last instruction of a block may go. -/
def succsOf (d : Draft) (b : BlockId) : List BlockId := lastTargets (d.opsOf b)

/-- The blocks that may go to a block, ascending. -/
def predsOf (d : Draft) (b : BlockId) : List BlockId :=
  (List.range d.labels.size).filter fun p => (d.succsOf p).contains b

/-- The procedure a draft describes. -/
def layout (d : Draft) : Procedure where
  name := d.name
  blocks := d.labels.mapIdx fun b declared =>
    ⟨labelOf b declared, d.instsOf b, d.succsOf b, d.predsOf b⟩
  insts := d.insts.mapIdx fun id i => ⟨nameOf id i.name?, i.block, i.op⟩

/-! ## Adding the instructions -/

/-- The blocks after the first pass. -/
def placed (d : Draft) : Array Block :=
  d.insts.toList.zipIdx.foldl (fun blocks (i, id) => blocks.modify i.block (·.addInst id))
    d.emptyBlocks

/-- The first pass ends normally exactly if every instruction may be where it is drafted. -/
theorem foldlM_place_eq_ok_iff {blocks : Array Block} :
    d.insts.toList.zipIdx.foldlM (fun blocks (i, id) => d.place blocks id i) d.emptyBlocks =
      .ok blocks ↔ (∀ i ∈ d.insts.toList, d.checkPlace i = .ok ()) ∧ d.placed = blocks := by
  have fsts : d.insts.toList.zipIdx.map (·.1) = d.insts.toList := List.zipIdx_map_fst 0 _
  have checked : (∀ p ∈ d.insts.toList.zipIdx, d.checkPlace p.1 = .ok ()) ↔
      ∀ i ∈ d.insts.toList, d.checkPlace i = .ok () :=
    (List.forall_mem_map (P := fun i => d.checkPlace i = .ok ())).symm.trans (by rw [fsts])
  rw [← checked]
  exact foldlM_checked_eq_ok_iff

/-- Instructions are added to their blocks in the order in which they come. -/
theorem foldl_addInst_getElem? {pairs : List (DraftInst × InstId)} {blocks : Array Block}
    {b : BlockId} :
    (pairs.foldl (fun blocks (i, id) => blocks.modify i.block (·.addInst id)) blocks)[b]? =
      blocks[b]?.map fun block => { block with
        insts := block.insts ++ (pairs.filter (·.1.block == b)).map (·.2) } := by
  induction pairs generalizing blocks with
  | nil => simp
  | cons p pairs ih =>
      rw [List.foldl_cons, ih, Array.getElem?_modify]
      by_cases here : p.1.block = b
      · simp [here, Block.addInst, Function.comp_def]
      · simp [here]

/-- The positions of the entries that pass a test, ascending. -/
theorem filter_zipIdx_map_snd {α : Type} (test : α → Bool) (xs : List α) :
    (xs.zipIdx.filter fun p => test p.1).map (·.2) =
      (List.range xs.length).filter fun i => xs[i]?.any test := by
  have positions : List.range xs.length = xs.zipIdx.map (·.2) := by
    rw [List.zipIdx_map_snd, List.range_eq_range']
  have same : ∀ p ∈ xs.zipIdx, test p.1 = xs[p.2]?.any test := by
    intro p member
    rw [List.mem_zipIdx_iff_getElem?.mp member, Option.any_some]
  rw [positions, List.filter_map, List.filter_congr same]
  rfl

theorem placed_getElem? {b : BlockId} : d.placed[b]? =
    d.labels[b]?.map fun declared => ⟨labelOf b declared, d.instsOf b, [], []⟩ := by
  have ids := filter_zipIdx_map_snd (·.block == b) d.insts.toList
  rw [placed, foldl_addInst_getElem?, ids, emptyBlocks, Array.getElem?_mapIdx, Option.map_map]
  simp [instsOf, Function.comp_def]

/-! ## Finding the successors -/

theorem lastTargets_of_stays {ops : List Operation} (stays : ∀ op ∈ ops, op.isTerminator = false) :
    lastTargets ops = [] := by
  cases isLast : ops.getLast? with
  | none => rw [lastTargets, isLast, Option.elim_none]
  | some op =>
      rw [lastTargets, isLast, Option.elim_some]
      exact Operation.targets_of_not_isTerminator (stays op (List.mem_of_getLast? isLast))

/-- If nothing follows a branch in a block, its first branch is at its end. -/
theorem link_eq_ok_iff {block linked : Block} (fresh : block.succs = []) :
    d.link block = .ok linked ↔
      (∀ op ∈ (d.opsAt block.insts).dropLast, op.isTerminator = false) ∧
        { block with succs := lastTargets (d.opsAt block.insts) } = linked := by
  simp only [link]
  generalize d.opsAt block.insts = ops
  cases first : ops.findIdx? (·.isTerminator) with
  | none =>
      have stays := List.findIdx?_eq_none_iff.mp first
      rw [lastTargets_of_stays stays, ← fresh, Except.ok.injEq]
      exact (and_iff_right fun op member => stays op ((List.dropLast_sublist ops).mem member)).symm
  | some pos =>
      obtain ⟨inside, leaves, before⟩ := List.findIdx?_eq_some_iff_getElem.mp first
      by_cases isLast : pos + 1 = ops.length
      · have stays : ∀ op ∈ ops.dropLast, op.isTerminator = false := by
          intro op member
          obtain ⟨j, early, rfl⟩ := List.mem_iff_getElem.mp member
          rw [List.length_dropLast] at early
          rw [List.getElem_dropLast, ← Bool.not_eq_true]
          exact before j (by omega)
        have targets : ops[pos]?.elim [] (·.targets) = lastTargets ops := by
          rw [lastTargets, List.getLast?_eq_getElem?, ← isLast, Nat.add_sub_cancel]
        simp only [isLast, ne_eq, not_true_eq_false, if_false, targets, Except.ok.injEq]
        exact (and_iff_right stays).symm
      · -- something follows the branch, and nothing may
        have early : ops[pos] ∈ ops.dropLast := by
          rw [List.mem_iff_getElem]
          exact ⟨pos, by rw [List.length_dropLast]; omega, List.getElem_dropLast _⟩
        simp only [ne_eq, isLast, not_false_eq_true, if_true, reduceCtorEq, false_iff]
        rintro ⟨stays, -⟩
        rw [stays _ early] at leaves
        cases leaves

/-- The blocks after the second pass. -/
def linked (d : Draft) : Array Block :=
  d.placed.map fun block => { block with succs := lastTargets (d.opsAt block.insts) }

theorem linked_getElem? {b : BlockId} : d.linked[b]? =
    d.labels[b]?.map fun declared => ⟨labelOf b declared, d.instsOf b, d.succsOf b, []⟩ := by
  rw [linked, Array.getElem?_map, placed_getElem?, Option.map_map]
  rfl

/-- The second pass ends normally exactly if nothing follows a branch in any block. -/
theorem mapM_link_eq_ok_iff {blocks : List Block} : d.placed.toList.mapM d.link = .ok blocks ↔
    (∀ b < d.labels.size, ∀ op ∈ (d.opsOf b).dropLast, op.isTerminator = false) ∧
      d.linked.toList = blocks := by
  have members : ∀ block, block ∈ d.placed.toList ↔ ∃ b declared, d.labels[b]? = some declared ∧
      (⟨labelOf b declared, d.instsOf b, [], []⟩ : Block) = block := by
    intro block
    simp only [Array.mem_toList_iff, Array.mem_iff_getElem?, placed_getElem?,
      Option.map_eq_some_iff]
  have each : ∀ block ∈ d.placed.toList, ∀ linked, d.link block = .ok linked ↔
      (∀ op ∈ (d.opsAt block.insts).dropLast, op.isTerminator = false) ∧
        { block with succs := lastTargets (d.opsAt block.insts) } = linked := by
    intro block member linked
    obtain ⟨b, declared, -, rfl⟩ := (members block).mp member
    exact link_eq_ok_iff rfl
  rw [mapM_checked_eq_ok_iff each, linked, Array.toList_map]
  refine and_congr_left fun _ => ⟨fun all b inside => ?_, fun all block member => ?_⟩
  · exact all _ ((members _).mpr ⟨b, _, Array.getElem?_eq_getElem inside, rfl⟩)
  · obtain ⟨b, declared, there, rfl⟩ := (members block).mp member
    exact all b (Array.getElem?_eq_some_iff.mp there).1

/-! ## Finding the predecessors -/

/-- Adding a predecessor again changes nothing. -/
theorem addPred_addPred (block : Block) (p : BlockId) :
    (block.addPred p).addPred p = block.addPred p := by
  have known : (block.addPred p).preds.contains p = true := by
    rw [Block.addPred]
    split
    next known => exact known
    next => simp
  rw [Block.addPred, if_pos known]

theorem foldl_addPred_getElem? {p : BlockId} {succs : List BlockId} {blocks : Array Block}
    {b : BlockId} : (succs.foldl (fun blocks c => blocks.modify c (·.addPred p)) blocks)[b]? =
      blocks[b]?.map fun block => if b ∈ succs then block.addPred p else block := by
  induction succs generalizing blocks with
  | nil => simp
  | cons c succs ih =>
      rw [List.foldl_cons, ih, Array.getElem?_modify]
      by_cases here : c = b
      · by_cases again : b ∈ succs
        · simp [here, again, Function.comp_def, addPred_addPred]
        · simp [here, again, Function.comp_def]
      · simp [here, Ne.symm here]

theorem linkBackFrom_getElem? {blocks : Array Block} {p b : BlockId} :
    (linkBackFrom blocks p)[b]? =
      blocks[b]?.map fun block => if b ∈ succsAt blocks p then block.addPred p else block :=
  foldl_addPred_getElem?

theorem addPred_of_not_mem {block : Block} {p : BlockId} (absent : p ∉ block.preds) :
    block.addPred p = { block with preds := block.preds ++ [p] } := by
  rw [Block.addPred, if_neg (by simpa using absent)]

/-- After the first `n` blocks, the predecessors of a block are those of them that list it. -/
theorem foldl_linkBackFrom_getElem? {blocks : Array Block}
    (fresh : ∀ block ∈ blocks, block.preds = []) {n : Nat} {b : BlockId} :
    ((List.range n).foldl linkBackFrom blocks)[b]? = blocks[b]?.map fun block => { block with
      preds := (List.range n).filter fun p => (succsAt blocks p).contains b } := by
  induction n generalizing b with
  | zero =>
      cases found : blocks[b]? with
      | none => exact found
      | some block =>
          have none : block.preds = [] := fresh block (Array.mem_of_getElem? found)
          cases block
          cases none
          exact found
  | succ n ih =>
      -- the blocks before have changed predecessors only
      have succs : succsAt ((List.range n).foldl linkBackFrom blocks) n = succsAt blocks n := by
        rw [succsAt, ih, succsAt]
        cases blocks[n]? with
        | none => rfl
        | some block => rfl
      rw [List.range_succ, List.foldl_append, List.foldl_cons, List.foldl_nil,
        linkBackFrom_getElem?, succs, ih, Option.map_map]
      refine congrArg (blocks[b]?.map ·) (funext fun block => ?_)
      rw [Function.comp_apply, List.filter_append, List.filter_cons, List.filter_nil]
      by_cases edge : b ∈ succsAt blocks n
      · rw [if_pos edge, addPred_of_not_mem (by simp), if_pos (by simpa using edge)]
      · rw [if_neg edge, if_neg (by simpa using edge), List.append_nil]

theorem linked_size : d.linked.size = d.labels.size := by
  have outside : ∀ b, d.linked.size ≤ b ↔ d.labels.size ≤ b := by
    intro b
    rw [← Array.getElem?_eq_none_iff, linked_getElem?, Option.map_eq_none_iff,
      Array.getElem?_eq_none_iff]
  exact Nat.le_antisymm ((outside _).mpr (Nat.le_refl _)) ((outside _).mp (Nat.le_refl _))

theorem succsAt_linked {p : BlockId} (inside : p < d.labels.size) :
    succsAt d.linked p = d.succsOf p := by
  rw [succsAt, linked_getElem?, Array.getElem?_eq_getElem inside]
  rfl

theorem preds_of_mem_linked {block : Block} (member : block ∈ d.linked) : block.preds = [] := by
  obtain ⟨b, found⟩ := Array.mem_iff_getElem?.mp member
  rw [linked_getElem?, Option.map_eq_some_iff] at found
  obtain ⟨declared, -, rfl⟩ := found
  rfl

/-- The three passes give every block what it lists. -/
theorem linkBack_linked : linkBack d.linked = d.layout.blocks := by
  have preds : ∀ b, ((List.range d.labels.size).filter fun p => (succsAt d.linked p).contains b) =
      d.predsOf b := by
    intro b
    exact List.filter_congr fun p member => by rw [succsAt_linked (List.mem_range.mp member)]
  refine Array.ext_getElem? fun b => ?_
  rw [linkBack, foldl_linkBackFrom_getElem? fun _ => preds_of_mem_linked, linked_size, preds,
    linked_getElem?, Option.map_map, layout, Array.getElem?_mapIdx]
  rfl

end Draft

end FlowGraph
