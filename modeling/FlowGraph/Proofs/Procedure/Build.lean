import FlowGraph.Proofs.Procedure.Layout

/-!
# What building a draft guarantees

`Draft.build` gives the layout of the draft exactly if all its checks pass (`build_eq_ok_iff`), and
each part of the layout is read off the draft (`layout_instsOf_eq_ok_iff` and so on).  From the
checks follow the two facts about a built procedure that the analyses rest on.  Every load and every
store has a variable as its slot.  Every block that its last instruction may go to is a successor.
-/

namespace FlowGraph

namespace Draft

variable {d : Draft} {f : Procedure}

/-! ## References -/

/-- Everything an operation refers to is there. -/
structure Refers (d : Draft) (op : Operation) : Prop where
  operands : ∀ r, .value r ∈ op.operands → r < d.insts.size
  slots : ∀ slot, op.slot? = some slot →
    ∃ declared, d.insts[slot]? = some declared ∧ declared.op = .alloca
  targets : ∀ dest ∈ op.targets, dest < d.labels.size

theorem checkOperand_eq_ok_iff {o : Operand} :
    d.checkOperand o = .ok () ↔ ∀ r, o = .value r → r < d.insts.size := by
  cases o with
  | value r => simp [checkOperand, Operand.inst?]
  | const n => simp [checkOperand, Operand.inst?]

theorem checkSlot_eq_ok_iff {user slot : InstId} : d.checkSlot user slot = .ok () ↔
    ∃ declared, d.insts[slot]? = some declared ∧ declared.op = .alloca := by
  unfold checkSlot
  cases d.insts[slot]? with
  | none => simp
  | some declared => simp

theorem checkTarget_eq_ok_iff {dest : BlockId} :
    d.checkTarget dest = .ok () ↔ dest < d.labels.size := by
  simp [checkTarget]

theorem checkReferences_eq_ok_iff {id : InstId} {op : Operation} :
    d.checkReferences id op = .ok () ↔ d.Refers op := by
  have slots : op.slot?.forM (d.checkSlot id) = .ok () ↔ ∀ slot, op.slot? = some slot →
      ∃ declared, d.insts[slot]? = some declared ∧ declared.op = .alloca := by
    cases op.slot? with
    | none => simp [pure, Except.pure]
    | some slot => simp [checkSlot_eq_ok_iff]
  simp only [checkReferences, bind_eq_ok_iff]
  constructor
  · rintro ⟨⟨⟩, operands, ⟨⟩, used, targets⟩
    refine ⟨fun r reads => ?_, slots.mp used, fun dest goes => ?_⟩
    · exact checkOperand_eq_ok_iff.mp (forM_eq_ok_iff.mp operands _ reads) r rfl
    · exact checkTarget_eq_ok_iff.mp (forM_eq_ok_iff.mp targets dest goes)
  · intro refers
    refine ⟨(), forM_eq_ok_iff.mpr fun o reads => ?_, (), slots.mpr refers.slots,
      forM_eq_ok_iff.mpr fun dest goes => ?_⟩
    · exact checkOperand_eq_ok_iff.mpr fun r isValue => refers.operands r (isValue ▸ reads)
    · exact checkTarget_eq_ok_iff.mpr (refers.targets dest goes)

/-! ## The checks -/

/-- The draft passes all checks. -/
structure Passes (d : Draft) : Prop where
  blocks : d.labels.isEmpty = false
  labels : checkLabels [] d.labels.toList = .ok ()
  places : ∀ i ∈ d.insts.toList, d.checkPlace i = .ok ()
  references : ∀ p ∈ d.insts.toList.zipIdx, d.checkReferences p.2 p.1.op = .ok ()
  ends : ∀ b < d.labels.size, ∀ op ∈ (d.opsOf b).dropLast, op.isTerminator = false

theorem layout_eq (d : Draft) : d.layout = ⟨d.name, linkBack d.linked.toList.toArray,
    d.insts.mapIdx fun id i => ⟨nameOf id i.name?, i.block, i.op⟩⟩ := by
  rw [Array.toArray_toList, linkBack_linked]
  rfl

theorem build_eq_ok_iff : d.build = .ok f ↔ d.Passes ∧ d.layout = f := by
  unfold build
  cases empty : d.labels.isEmpty with
  | true =>
      constructor
      · intro built
        cases built
      · rintro ⟨passes, -⟩
        rw [passes.blocks] at empty
        cases empty
  | false =>
      simp only [Bool.false_eq_true, if_false, bind_eq_ok_iff, pure_eq_ok_iff]
      constructor
      · rintro ⟨⟨⟩, labels, placed, filled, ⟨⟩, references, linked, ended, rfl⟩
        obtain ⟨places, rfl⟩ := foldlM_place_eq_ok_iff.mp filled
        obtain ⟨ends, rfl⟩ := mapM_link_eq_ok_iff.mp ended
        exact ⟨⟨empty, labels, places, forM_eq_ok_iff.mp references, ends⟩, d.layout_eq⟩
      · rintro ⟨passes, rfl⟩
        exact ⟨(), passes.labels, d.placed, foldlM_place_eq_ok_iff.mpr ⟨passes.places, rfl⟩, (),
          forM_eq_ok_iff.mpr passes.references, d.linked.toList,
          mapM_link_eq_ok_iff.mpr ⟨passes.ends, rfl⟩, d.layout_eq.symm⟩

/-- A draft that builds gives its layout. -/
theorem build_eq_layout (builds : d.build.toOption.isSome = true) : d.build = .ok d.layout := by
  cases built : d.build with
  | error e =>
      rw [built] at builds
      cases builds
  | ok f => rw [(build_eq_ok_iff.mp built).2]

theorem Passes.reference (passes : d.Passes) {id : InstId} {i : DraftInst}
    (found : d.insts[id]? = some i) : d.checkReferences id i.op = .ok () := by
  refine passes.references (i, id) (List.mem_zipIdx_iff_getElem?.mpr ?_)
  rw [Array.getElem?_toList]
  exact found

/-- The slot of a load or a store is declared as one. -/
theorem Passes.slot (passes : d.Passes) {id slot : InstId} {i : DraftInst}
    (found : d.insts[id]? = some i) (uses : i.op.slot? = some slot) :
    ∃ declared, d.insts[slot]? = some declared ∧ declared.op = .alloca :=
  (checkReferences_eq_ok_iff.mp (passes.reference found)).slots slot uses

theorem Passes.operand (passes : d.Passes) {id r : InstId} {i : DraftInst}
    (found : d.insts[id]? = some i) (reads : .value r ∈ i.op.operands) : r < d.insts.size :=
  (checkReferences_eq_ok_iff.mp (passes.reference found)).operands r reads

theorem Passes.target (passes : d.Passes) {id : InstId} {i : DraftInst} {dest : BlockId}
    (found : d.insts[id]? = some i) (goes : dest ∈ i.op.targets) : dest < d.labels.size :=
  (checkReferences_eq_ok_iff.mp (passes.reference found)).targets dest goes

/-! ## The layout -/

theorem layout_insts_getElem? (id : InstId) : d.layout.insts[id]? =
    d.insts[id]?.map fun i => ⟨nameOf id i.name?, i.block, i.op⟩ := by
  simp [layout]

theorem layout_op_eq_ok_iff {id : InstId} {op : Operation} :
    d.layout.op id = .ok op ↔ ∃ i, d.insts[id]? = some i ∧ i.op = op := by
  simp only [Procedure.op, Procedure.inst, bind_eq_ok_iff, pure_eq_ok_iff, lookup_eq_ok_iff,
    layout_insts_getElem?]
  constructor
  · rintro ⟨j, found, rfl⟩
    obtain ⟨i, there, rfl⟩ := Option.map_eq_some_iff.mp found
    exact ⟨i, there, rfl⟩
  · rintro ⟨i, there, rfl⟩
    exact ⟨_, Option.map_eq_some_iff.mpr ⟨i, there, rfl⟩, rfl⟩

theorem layout_block_eq_ok_iff {b : BlockId} {block : Block} : d.layout.block b = .ok block ↔
    ∃ declared, d.labels[b]? = some declared ∧
      ⟨labelOf b declared, d.instsOf b, d.succsOf b, d.predsOf b⟩ = block := by
  simp only [Procedure.block, lookup_eq_ok_iff, layout, Array.getElem?_mapIdx,
    Option.map_eq_some_iff]

theorem layout_label_eq_ok_iff {b : BlockId} {label : String} : d.layout.label b = .ok label ↔
    ∃ declared, d.labels[b]? = some declared ∧ labelOf b declared = label := by
  simp only [Procedure.label, bind_eq_ok_iff, pure_eq_ok_iff, layout_block_eq_ok_iff]
  constructor
  · rintro ⟨_, ⟨declared, there, rfl⟩, rfl⟩
    exact ⟨declared, there, rfl⟩
  · rintro ⟨declared, there, rfl⟩
    exact ⟨_, ⟨declared, there, rfl⟩, rfl⟩

/-- What a block lists is there exactly if the block is. -/
theorem layout_listed_eq_ok_iff {α : Type} {b : BlockId} {list : Block → α} {x y : α}
    (lists : ∀ declared, list ⟨declared, d.instsOf b, d.succsOf b, d.predsOf b⟩ = x) :
    (return list (← d.layout.block b)) = Except.ok y ↔ b < d.labels.size ∧ x = y := by
  simp only [bind_eq_ok_iff, pure_eq_ok_iff, layout_block_eq_ok_iff]
  constructor
  · rintro ⟨_, ⟨declared, there, rfl⟩, rfl⟩
    exact ⟨(Array.getElem?_eq_some_iff.mp there).1, (lists _).symm⟩
  · rintro ⟨inside, rfl⟩
    exact ⟨_, ⟨_, Array.getElem?_eq_getElem inside, rfl⟩, lists _⟩

theorem layout_instsOf_eq_ok_iff {b : BlockId} {ids : List InstId} :
    d.layout.instsOf b = .ok ids ↔ b < d.labels.size ∧ d.instsOf b = ids :=
  layout_listed_eq_ok_iff fun _ => rfl

theorem layout_successors_eq_ok_iff {b : BlockId} {succs : List BlockId} :
    d.layout.successors b = .ok succs ↔ b < d.labels.size ∧ d.succsOf b = succs :=
  layout_listed_eq_ok_iff fun _ => rfl

theorem layout_predecessors_eq_ok_iff {b : BlockId} {preds : List BlockId} :
    d.layout.predecessors b = .ok preds ↔ b < d.labels.size ∧ d.predsOf b = preds :=
  layout_listed_eq_ok_iff fun _ => rfl

theorem mem_instsOf_iff {b : BlockId} {id : InstId} :
    id ∈ d.instsOf b ↔ ∃ i, d.insts[id]? = some i ∧ i.block = b := by
  simp only [instsOf, List.mem_filter, List.mem_range, Option.any_eq_true, beq_iff_eq]
  refine and_iff_right_of_imp ?_
  rintro ⟨i, found, -⟩
  exact (Array.getElem?_eq_some_iff.mp found).1

/-- The operations of a block are those of its instructions, one by one. -/
theorem getLast?_opsOf {b : BlockId} {last : InstId} {i : DraftInst}
    (isLast : (d.instsOf b).getLast? = some last) (found : d.insts[last]? = some i) :
    (d.opsOf b).getLast? = some i.op := by
  obtain ⟨before, shape⟩ := List.getLast?_eq_some_iff.mp isLast
  rw [opsOf, opsAt, shape, List.filterMap_append]
  simp [found]

/-- The successors of a block are the targets of the branch at its end. -/
theorem layout_terminator {b : BlockId} (inside : b < d.labels.size) :
    ∃ leaves, d.layout.terminator b = .ok leaves ∧ d.succsOf b = leaves.elim [] (·.targets) := by
  have listed := layout_instsOf_eq_ok_iff.mpr ⟨inside, rfl⟩
  simp only [Procedure.terminator, listed, bind, Except.bind]
  cases isLast : (d.instsOf b).getLast? with
  | none =>
      refine ⟨none, rfl, ?_⟩
      rw [succsOf, opsOf, List.getLast?_eq_none_iff.mp isLast]
      rfl
  | some last =>
      obtain ⟨i, there, -⟩ := mem_instsOf_iff.mp (List.mem_of_getLast? isLast)
      have op : d.layout.op last = .ok i.op := layout_op_eq_ok_iff.mpr ⟨i, there, rfl⟩
      refine ⟨if i.op.isTerminator then some i.op else none, by simp [op, pure, Except.pure], ?_⟩
      rw [succsOf, lastTargets, getLast?_opsOf isLast there, Option.elim_some]
      cases leaves : i.op.isTerminator with
      | true => rfl
      | false => exact Operation.targets_of_not_isTerminator leaves

end Draft

namespace Procedure

variable {d : Draft} {f : Procedure}

/-! ## Kinds of instructions -/

/-- Whether an instruction is a comparison. -/
def isCompare (f : Procedure) (id : InstId) : Bool :=
  match f.op id with
  | .ok (.compare ..) => true
  | _ => false

theorem hasVariable_iff {id : InstId} : f.hasVariable id = true ↔ f.op id = .ok .alloca := by
  simp only [hasVariable, op, inst, bind_eq_ok_iff, pure_eq_ok_iff, lookup_eq_ok_iff,
    Option.any_eq_true, Instruction.isVariable, beq_iff_eq]

theorem hasVariable_eq_false {id : InstId} {op : Operation} (found : f.op id = .ok op)
    (notSlot : op ≠ .alloca) : f.hasVariable id = false := by
  rw [← Bool.not_eq_true, hasVariable_iff, found]
  intro same
  exact notSlot (Except.ok.inj same)

/-! ## Built procedures -/

/-- In a built procedure, the slot of a load or a store is a variable. -/
theorem hasVariable_slot (built : d.build = .ok f) {id slot : InstId} {op : Operation}
    (found : f.op id = .ok op) (uses : op.slot? = some slot) : f.hasVariable slot = true := by
  obtain ⟨passes, rfl⟩ := Draft.build_eq_ok_iff.mp built
  obtain ⟨i, there, rfl⟩ := Draft.layout_op_eq_ok_iff.mp found
  obtain ⟨declared, atSlot, isSlot⟩ := passes.slot there uses
  simp [hasVariable, Draft.layout_insts_getElem?, atSlot, Instruction.isVariable, isSlot]

/-- In a built procedure, every target of the operation that leaves a block is a successor. -/
theorem target_mem_successors (built : d.build = .ok f) {b dest : BlockId} {op : Operation}
    (leaves : f.terminator b = .ok (some op)) (target : dest ∈ op.targets) :
    ∃ succs, f.successors b = .ok succs ∧ dest ∈ succs := by
  obtain ⟨-, rfl⟩ := Draft.build_eq_ok_iff.mp built
  obtain ⟨ids, listed, -⟩ := bind_eq_ok_iff.mp leaves
  have inside := (Draft.layout_instsOf_eq_ok_iff.mp listed).1
  obtain ⟨leaving, leaves', targets⟩ := Draft.layout_terminator inside
  rw [leaves] at leaves'
  cases leaves'
  exact ⟨_, Draft.layout_successors_eq_ok_iff.mpr ⟨inside, targets⟩, target⟩

end Procedure

end FlowGraph
