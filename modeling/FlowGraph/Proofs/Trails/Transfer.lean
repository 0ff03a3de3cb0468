import FlowGraph.Proofs.Taint.Transfer
import FlowGraph.Proofs.Trails.Order

/-!
# What a block does to trails

Forgetting the trails leaves the tainted values (`tainted`).  Every part of the analysis does to the
tainted values what the taint analysis does: instructions (`tainted_step`), blocks
(`tainted_through_iff`) and joins (`tainted_join`).

An instruction copies the trails of some values to another (`Copies`), and all values keep their
trails but for one (`Keeps`).  The slot of a store keeps its trails only if the stored value is
tainted, or if it is the source.  So trails are not moved one by one: whether a trail is kept hangs
on whether another value has any (`mem_step_iff`).
-/

namespace FlowGraph

namespace Trails

variable {source label : String} {f : Procedure} {b : BlockId} {id v w r k : InstId} {p : String}
  {s t t' : Trails} {u : TaintSet}

/-! ## Tainted values -/

/-- The values that have trails. -/
def tainted (t : Trails) : TaintSet := .ofList t.keys

@[simp] theorem mem_tainted : v ∈ t.tainted ↔ v ∈ t := by
  simp [tainted, ← Std.ExtTreeSet.contains_iff_mem]

theorem tainted_join : (join s t).tainted = s.tainted ∪ t.tainted := by
  refine Std.ExtTreeSet.ext_mem fun v => ?_
  simp [mem_join_iff]

@[simp] theorem mem_extend_iff : v ∈ t.extend label ↔ v ∈ t := by
  rw [extend, Std.ExtTreeMap.mem_map]

theorem tainted_extend (label : String) (t : Trails) : (t.extend label).tainted = t.tainted := by
  refine Std.ExtTreeSet.ext_mem fun v => ?_
  simp

theorem tainted_insertIfNew {trails : TextSet} :
    tainted (t.insertIfNew k trails) = t.tainted.insert k := by
  refine Std.ExtTreeSet.ext_mem fun v => ?_
  simp [Std.ExtTreeMap.mem_insertIfNew]

theorem tainted_insert {trails : TextSet} :
    tainted (t.insert k trails) = t.tainted.insert k := by
  refine Std.ExtTreeSet.ext_mem fun v => ?_
  simp [Std.ExtTreeMap.mem_insert]

theorem tainted_erase : tainted (t.erase k) = t.tainted.erase k := by
  refine Std.ExtTreeSet.ext_mem fun v => ?_
  simp [Std.ExtTreeMap.mem_erase]

theorem tainted_copy :
    (t.copy r k).tainted = if r ∈ t.tainted then t.tainted.insert k else t.tainted := by
  have there : r ∈ t.tainted ↔ t[r]?.isSome = true := by
    rw [mem_tainted, Std.ExtTreeMap.mem_iff_isSome_getElem?]
  simp only [there, copy]
  cases t[r]? with
  | none => rfl
  | some trails => exact tainted_insert

theorem reads_tainted {o : Operand} : TaintSet.reads t.tainted o = reads t o := by
  rw [Bool.eq_iff_iff, TaintSet.reads_iff]
  cases o with
  | value r => simp [reads, Operand.inst?]
  | const n => simp [reads, Operand.inst?]

theorem tainted_copyOperand {o : Operand} : (t.copyOperand o k).tainted =
    if TaintSet.reads t.tainted o then t.tainted.insert k else t.tainted := by
  cases o with
  | value r => simp [copyOperand, tainted_copy, TaintSet.reads, Operand.inst?]
  | const n => simp [copyOperand, TaintSet.reads, Operand.inst?]

/-! ## Tainted values after instructions and blocks -/

theorem tainted_marked (label : String) {i : Instruction} :
    tainted (if i.name = source then t.insertIfNew id (.ofList [label]) else t) =
      if i.name = source then t.tainted.insert id else t.tainted := by
  split
  next => exact tainted_insertIfNew
  next => rfl

theorem tainted_step (label : String) :
    TaintSet.step source f t.tainted id = (step source f label t id).map tainted := by
  cases found : f.inst id with
  | error fault => simp [TaintSet.step, step, found, bind, Except.bind, Except.map]
  | ok i =>
      simp only [TaintSet.step, step, found, bind, Except.bind]
      rw [← tainted_marked label]
      generalize (if i.name = source then t.insertIfNew id (.ofList [label]) else t : Trails) = t₁
      cases i.op with
      | load slot => exact congrArg Except.ok tainted_copy.symm
      | binary o lhs rhs =>
          refine congrArg Except.ok ?_
          rw [tainted_copyOperand, tainted_copyOperand]
          cases TaintSet.reads t₁.tainted lhs with
          | false => rfl
          | true =>
              -- the second operand can only add the value that the first has added
              refine Std.ExtTreeSet.ext_mem fun v => ?_
              rw [Bool.true_or, if_pos rfl]
              split
              next => simp
              next => rfl
      | store value slot =>
          simp only [reads_tainted]
          cases read : reads t₁ value with
          | true =>
              refine congrArg Except.ok ?_
              rw [tainted_copyOperand, reads_tainted, read, if_pos rfl]
          | false =>
              cases f.valueName slot with
              | error fault => rfl
              | ok name =>
                  by_cases isSource : name = source
                  · simp [isSource, Except.map, pure, Except.pure]
                  · simp [isSource, Except.map, pure, Except.pure, tainted_erase]
      | _ => rfl

theorem tainted_steps (label : String) {ids : List InstId} :
    ids.foldlM (TaintSet.step source f) t.tainted =
      (ids.foldlM (step source f label) t).map tainted := by
  induction ids generalizing t with
  | nil => rfl
  | cons id rest ih =>
      rw [List.foldlM_cons, List.foldlM_cons, tainted_step]
      cases step source f label t id with
      | error fault => rfl
      | ok t₁ => exact ih

theorem tainted_step_of_ok (stepped : step source f label t id = .ok t') :
    TaintSet.step source f t.tainted id = .ok t'.tainted := by
  rw [tainted_step label, stepped]
  rfl

theorem tainted_steps_of_ok {ids : List InstId}
    (stepped : ids.foldlM (step source f label) t = .ok t') :
    ids.foldlM (TaintSet.step source f) t.tainted = .ok t'.tainted := by
  rw [tainted_steps label, stepped]
  rfl

theorem tainted_extend_steps_of_ok {ids : List InstId}
    (stepped : ids.foldlM (step source f label) (t.extend label) = .ok t') :
    ids.foldlM (TaintSet.step source f) t.tainted = .ok t'.tainted := by
  rw [← tainted_extend label]
  exact tainted_steps_of_ok stepped

/-- The parts of a block: its instructions, then the end of its registers. -/
theorem through_eq_ok_iff : through source f b t = .ok t' ↔ ∃ label ids t₁,
    f.label b = .ok label ∧ f.instsOf b = .ok ids ∧
      ids.foldlM (step source f label) (t.extend label) = .ok t₁ ∧
        eraseRegisters f t₁ = .ok t' := by
  simp only [through, bind_eq_ok_iff]
  constructor
  · rintro ⟨label, labelled, ids, found, t₁, stepped, erased⟩
    exact ⟨label, ids, t₁, labelled, found, stepped, erased⟩
  · rintro ⟨label, ids, t₁, labelled, found, stepped, erased⟩
    exact ⟨label, labelled, ids, found, t₁, stepped, erased⟩

theorem eraseRegisters_eq_ok_iff : eraseRegisters f t = .ok t' ↔
    f.checkInsts t.keys = .ok () ∧ t.filter (fun id _ => f.hasVariable id) = t' := by
  simp only [eraseRegisters, bind_eq_ok_iff, pure_eq_ok_iff]
  exact ⟨fun ⟨_, checked, same⟩ => ⟨checked, same⟩, fun ⟨checked, same⟩ => ⟨_, checked, same⟩⟩

theorem tainted_filter :
    tainted (t.filter fun id _ => f.hasVariable id) = t.tainted.filter f.hasVariable := by
  refine Std.ExtTreeSet.ext_mem fun v => ?_
  simp [Std.ExtTreeMap.mem_filter]

theorem tainted_eraseRegisters_iff : TaintSet.eraseRegisters f t.tainted = .ok u ↔
    ∃ t', eraseRegisters f t = .ok t' ∧ t'.tainted = u := by
  have checked : f.checkInsts t.tainted.toList = .ok () ↔ f.checkInsts t.keys = .ok () := by
    simp only [Procedure.checkInsts, forM_eq_ok_iff, Std.ExtTreeSet.mem_toList, mem_tainted,
      Std.ExtTreeMap.mem_keys]
  simp only [TaintSet.eraseRegisters, bind_eq_ok_iff, pure_eq_ok_iff, eraseRegisters_eq_ok_iff,
    ← tainted_filter]
  constructor
  · rintro ⟨⟨⟩, inside, rfl⟩
    exact ⟨_, ⟨checked.mp inside, rfl⟩, rfl⟩
  · rintro ⟨t', ⟨inside, rfl⟩, rfl⟩
    exact ⟨⟨⟩, checked.mpr inside, rfl⟩

theorem mem_eraseRegisters_iff (erased : eraseRegisters f t = .ok t') :
    v ∈ t' ↔ v ∈ t ∧ f.hasVariable v = true := by
  simpa only [mem_tainted] using TaintSet.mem_eraseRegisters_iff
    (tainted_eraseRegisters_iff.mpr ⟨t', erased, rfl⟩) (v := v)

theorem tainted_through_iff : TaintSet.through source f b t.tainted = .ok u ↔
    ∃ t', through source f b t = .ok t' ∧ t'.tainted = u := by
  simp only [TaintSet.through, through, bind_eq_ok_iff]
  constructor
  · rintro ⟨ids, found, u₁, stepped, erased⟩
    obtain ⟨block, isBlock, -⟩ := bind_eq_ok_iff.mp found
    have labelled : f.label b = .ok block.label := bind_eq_ok_iff.mpr ⟨block, isBlock, rfl⟩
    rw [← tainted_extend block.label, tainted_steps block.label,
      map_eq_ok_iff] at stepped
    obtain ⟨t₁, stepped, rfl⟩ := stepped
    obtain ⟨t', erased, same⟩ := tainted_eraseRegisters_iff.mp erased
    exact ⟨t', ⟨block.label, labelled, ids, found, t₁, stepped, erased⟩, same⟩
  · rintro ⟨t', ⟨label, -, ids, found, t₁, stepped, erased⟩, same⟩
    exact ⟨ids, found, t₁.tainted, tainted_extend_steps_of_ok stepped,
      tainted_eraseRegisters_iff.mpr ⟨t', erased, same⟩⟩

/-! ## Trails after an instruction -/

theorem mem_textsOf_extend_iff :
    p ∈ TextMap.textsOf (t.extend label) v ↔ ∃ q ∈ t.textsOf v, s!"{q}->{label}" = p := by
  simp only [mem_textsOf_iff, extend, Std.ExtTreeMap.getElem?_map]
  cases t[v]? with
  | none => simp
  | some trails => simp [← Std.ExtTreeSet.contains_iff_mem]

theorem mem_textsOf_insert_iff {trails : TextSet} : p ∈ TextMap.textsOf (t.insert k trails) v ↔
    v = k ∧ p ∈ trails ∨ v ≠ k ∧ p ∈ t.textsOf v := by
  simp only [TextMap.textsOf, Std.ExtTreeMap.getD_insert, Nat.compare_eq_eq]
  by_cases same : v = k
  · simp [same]
  · simp [same, Ne.symm same]

theorem mem_textsOf_copy_iff :
    p ∈ TextMap.textsOf (t.copy r k) v ↔ p ∈ t.textsOf v ∨ v = k ∧ p ∈ t.textsOf r := by
  rw [copy]
  cases found : t[r]? with
  | none =>
      have nothing : p ∉ t.textsOf r := by simp [mem_textsOf_iff, found]
      simp [nothing]
  | some trails =>
      have ofSource : p ∈ t.textsOf r ↔ p ∈ trails := by simp [mem_textsOf_iff, found]
      rw [mem_textsOf_insert_iff, Std.ExtTreeSet.mem_union_iff, ofSource]
      by_cases same : v = k
      · simp [same]
      · simp [same]

theorem mem_textsOf_copyOperand_iff {o : Operand} :
    p ∈ TextMap.textsOf (t.copyOperand o k) v ↔
      p ∈ t.textsOf v ∨ v = k ∧ ∃ r, o = .value r ∧ p ∈ t.textsOf r := by
  cases o with
  | value r => simp [copyOperand, mem_textsOf_copy_iff]
  | const n => simp [copyOperand]

theorem mem_textsOf_erase_iff :
    p ∈ TextMap.textsOf (t.erase k) v ↔ v ≠ k ∧ p ∈ t.textsOf v := by
  simp only [TextMap.textsOf, Std.ExtTreeMap.getD_erase, Nat.compare_eq_eq]
  by_cases same : v = k
  · simp [same]
  · simp [same, Ne.symm same]

theorem mem_textsOf_eraseRegisters_iff (erased : eraseRegisters f t = .ok t') :
    p ∈ t'.textsOf v ↔ p ∈ t.textsOf v ∧ f.hasVariable v = true := by
  obtain ⟨-, rfl⟩ := eraseRegisters_eq_ok_iff.mp erased
  simp only [mem_textsOf_iff, Std.ExtTreeMap.getElem?_filter', Option.filter_eq_some_iff]
  grind

/-- A trail before an instruction, or the one with which the source starts. -/
def Marked (source label : String) (id : InstId) (i : Instruction) (t : Trails) (v : InstId)
    (p : String) : Prop :=
  p ∈ t.textsOf v ∨ v = id ∧ i.name = source ∧ id ∉ t ∧ p = label

/-- An instruction adds the trails of a value to those of another. -/
def Copies (id : InstId) (i : Instruction) (w v : InstId) : Prop :=
  match i.op with
  | .load slot => v = id ∧ w = slot
  | .binary _ lhs rhs => v = id ∧ (lhs = .value w ∨ rhs = .value w)
  | .store value slot => v = slot ∧ value = .value w
  | _ => False

/-- An instruction does not clear a value. -/
def Keeps (source : String) (f : Procedure) (id : InstId) (i : Instruction) (t : TaintSet)
    (v : InstId) : Prop :=
  match i.op with
  | .store value slot => v = slot →
      f.valueName slot = .ok source ∨ ∃ r, value = .value r ∧ TaintSet.Marked source id i t r
  | _ => True

theorem mem_marked_iff {i : Instruction} :
    p ∈ TextMap.textsOf (if i.name = source then t.insertIfNew id (.ofList [label]) else t) v ↔
      Marked source label id i t v p := by
  rw [Marked]
  split
  next named =>
    rw [TextMap.textsOf, Std.ExtTreeMap.getD_insertIfNew]
    simp only [Nat.compare_eq_eq]
    split
    next new =>
      obtain ⟨rfl, missing⟩ := new
      have nothing : p ∉ t.textsOf id := fun member => missing (mem_of_mem_textsOf member)
      simp only [named, missing, nothing, ← Std.ExtTreeSet.contains_iff_mem,
        Std.ExtTreeSet.contains_ofList, List.contains_iff_mem, List.mem_singleton,
        not_false_eq_true, true_and, false_or]
    next old =>
      refine ⟨.inl, fun marked => marked.resolve_right ?_⟩
      rintro ⟨same, -, missing, -⟩
      exact old ⟨same.symm, missing⟩
  next unnamed => simp [unnamed]

/-- The trails of a value after an instruction are copied to it or kept by it. -/
theorem mem_step_iff (stepped : step source f label t id = .ok t') :
    ∃ i, f.inst id = .ok i ∧ ∀ v p, p ∈ t'.textsOf v ↔
      (∃ w, Copies id i w v ∧ Marked source label id i t w p) ∨
        Keeps source f id i t.tainted v ∧ Marked source label id i t v p := by
  obtain ⟨i, found, stepped⟩ := bind_eq_ok_iff.mp stepped
  refine ⟨i, found, fun v p => ?_⟩
  have marked : ∀ v, p ∈ TextMap.textsOf
      (if i.name = source then t.insertIfNew id (.ofList [label]) else t) v ↔
        Marked source label id i t v p := fun v => mem_marked_iff
  have read : ∀ value, reads (if i.name = source then t.insertIfNew id (.ofList [label]) else t)
      value = true ↔ ∃ r, value = .value r ∧ TaintSet.Marked source id i t.tainted r := by
    intro value
    rw [← reads_tainted, tainted_marked, TaintSet.reads_iff]
    simp only [TaintSet.mem_marked_iff]
  generalize (if i.name = source then t.insertIfNew id (.ofList [label]) else t) = t₁
    at stepped marked read
  simp only [← marked]
  cases op : i.op with
  | load slot =>
      rw [op] at stepped
      cases pure_eq_ok_iff.mp stepped
      rw [mem_textsOf_copy_iff]
      simp only [Copies, Keeps, op]
      grind
  | binary o lhs rhs =>
      rw [op] at stepped
      cases pure_eq_ok_iff.mp stepped
      rw [mem_textsOf_copyOperand_iff, mem_textsOf_copyOperand_iff]
      simp only [mem_textsOf_copyOperand_iff, Copies, Keeps, op]
      grind
  | store value slot =>
      rw [op] at stepped
      simp only [Copies, Keeps, op, ← read]
      change (if reads t₁ value then _ else _) = _ at stepped
      split at stepped
      next tainted =>
        cases pure_eq_ok_iff.mp stepped
        rw [mem_textsOf_copyOperand_iff]
        grind
      next clean =>
        obtain ⟨name, named, stepped⟩ := bind_eq_ok_iff.mp stepped
        have nothing : ∀ w, value = .value w → p ∉ TextMap.textsOf t₁ w := by
          rintro w rfl member
          exact clean (by simpa [reads, Operand.inst?] using mem_of_mem_textsOf member)
        split at stepped
        next isSource =>
          cases pure_eq_ok_iff.mp stepped
          rw [named, isSource]
          grind
        next other =>
          cases pure_eq_ok_iff.mp stepped
          rw [mem_textsOf_erase_iff, named]
          grind
  | _ =>
      rw [op] at stepped
      cases pure_eq_ok_iff.mp stepped
      simp [Copies, Keeps, op]

end Trails

end FlowGraph
