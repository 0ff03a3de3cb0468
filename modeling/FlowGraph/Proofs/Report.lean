import FlowGraph.Procedure.Text
import FlowGraph.Proofs.Taint.Paths
import FlowGraph.Report

/-!
# Reports end normally

A report looks up the names of the values that the states at the exits speak of.  If all of them
are there, the report is found (`taint_returns` and so on).  The report of busy expressions has
texts only and looks up nothing.

The text of an instruction is found in every closed procedure.
-/

namespace FlowGraph

namespace Procedure

variable {f : Procedure} {b : BlockId} {id : InstId} {o lhs rhs : Operand}

/-! ## The text of an instruction -/

theorem label_of_lt (inside : b < f.numBlocks) : ∃ label, f.label b = .ok label := by
  obtain ⟨block, found⟩ := block_eq_ok_iff.mpr inside
  exact ⟨block.label, bind_eq_ok_iff.mpr ⟨block, found, rfl⟩⟩

theorem operandText_returns (inside : ∀ r, o = .value r → r < f.numInsts) :
    ∃ text, f.operandText o = .ok text := by
  cases o with
  | value r => exact valueName_of_lt (inside r rfl)
  | const n => exact ⟨_, rfl⟩

theorem operandsText_returns (left : ∀ r, lhs = .value r → r < f.numInsts)
    (right : ∀ r, rhs = .value r → r < f.numInsts) :
    ∃ text, f.operandsText lhs rhs = .ok text :=
  bind_returns (operandText_returns left) fun _ _ =>
    bind_returns (operandText_returns right) fun _ _ => ⟨_, rfl⟩

theorem instText_returns (closed : f.Closed) (inside : id < f.numInsts) :
    ∃ text, f.instText id = .ok text := by
  refine bind_returns (valueName_of_lt inside) fun name _ => ?_
  refine bind_returns (op_of_lt inside) fun op isOp => ?_
  have operand : ∀ o ∈ op.operands, ∀ r, o = .value r → r < f.numInsts :=
    fun o reads r isValue => closed.operands id op r isOp (isValue ▸ reads)
  have slot : ∀ slot, op.slot? = some slot → ∃ name, f.valueName slot = .ok name :=
    fun slot uses => valueName_of_lt (lt_of_hasVariable (closed.slots id op slot isOp uses))
  have target : ∀ dest ∈ op.targets, ∃ label, f.label dest = .ok label :=
    fun dest goes => label_of_lt (closed.targets id op dest isOp goes)
  cases op with
  | alloca => exact ⟨_, rfl⟩
  | load v => exact bind_returns (slot v rfl) fun _ _ => ⟨_, rfl⟩
  | store value v =>
      have stored := operandText_returns (operand value List.mem_cons_self)
      exact bind_returns stored fun _ _ => bind_returns (slot v rfl) fun _ _ => ⟨_, rfl⟩
  | binary o lhs rhs =>
      have operands := operandsText_returns (operand lhs List.mem_cons_self)
        (operand rhs (List.mem_cons_of_mem _ List.mem_cons_self))
      exact bind_returns operands fun _ _ => ⟨_, rfl⟩
  | compare pred lhs rhs =>
      have operands := operandsText_returns (operand lhs List.mem_cons_self)
        (operand rhs (List.mem_cons_of_mem _ List.mem_cons_self))
      exact bind_returns operands fun _ _ => ⟨_, rfl⟩
  | branch cond onTrue onFalse =>
      have decided := operandText_returns (operand cond List.mem_cons_self)
      have first := target onTrue List.mem_cons_self
      have second := target onFalse (List.mem_cons_of_mem _ List.mem_cons_self)
      exact bind_returns decided fun _ _ =>
        bind_returns first fun _ _ => bind_returns second fun _ _ => ⟨_, rfl⟩
  | jump dest => exact bind_returns (target dest List.mem_cons_self) fun _ _ => ⟨_, rfl⟩
  | other => exact ⟨_, rfl⟩

end Procedure

variable {σ : Type} {f : Procedure}

/-- A pair that a map lists has a key of the map. -/
theorem mem_of_mem_toList {m : Std.ExtTreeMap InstId σ} {p : InstId × σ} (member : p ∈ m.toList) :
    p.1 ∈ m := by
  obtain ⟨v, a⟩ := p
  rw [Std.ExtTreeMap.mem_iff_isSome_getElem?,
    Std.ExtTreeMap.mem_toList_iff_getElem?_eq_some.mp member]
  rfl

namespace Ranges

variable {s : Ranges}

/-! ## Separations -/

theorem mem_of_mem_pairs {α : Type} {xs : List α} {x y : α} (member : (x, y) ∈ pairs xs) :
    x ∈ xs ∧ y ∈ xs := by
  induction xs with
  | nil => cases member
  | cons a rest ih =>
      rcases List.mem_append.mp member with first | later
      · obtain ⟨y', there, same⟩ := List.mem_map.mp first
        cases same
        exact ⟨List.mem_cons_self, List.mem_cons_of_mem _ there⟩
      · obtain ⟨left, right⟩ := ih later
        exact ⟨List.mem_cons_of_mem _ left, List.mem_cons_of_mem _ right⟩

theorem shown_returns (settings : Settings) (inside : ∀ v ∈ s, v < f.numInsts) :
    ∃ values, s.shown settings f = .ok values ∧ ∀ p ∈ values, p.1 < f.numInsts := by
  have each : ∀ p ∈ s.toList, ∃ q, (do return (p.1, ← f.valueName p.1, p.2)) = Except.ok q ∧
      q.1 < f.numInsts := by
    rintro ⟨v, a⟩ member
    have there : v < f.numInsts := inside v (mem_of_mem_toList member)
    obtain ⟨name, named⟩ := Procedure.valueName_of_lt there
    exact ⟨(v, name, a), bind_eq_ok_iff.mpr ⟨name, named, rfl⟩, there⟩
  obtain ⟨values, found, all⟩ := mapM_returns_all each
  refine ⟨_, bind_eq_ok_iff.mpr ⟨values, found, rfl⟩, fun p member => ?_⟩
  exact all p (List.mem_filter.mp member).1

theorem separations_returns (settings : Settings) (inside : ∀ v ∈ s, v < f.numInsts) :
    ∃ seps, s.separations settings f = .ok seps ∧
      ∀ p ∈ seps, p.1 < f.numInsts ∧ p.2.1 < f.numInsts := by
  obtain ⟨values, found, all⟩ := shown_returns settings inside
  refine ⟨_, bind_eq_ok_iff.mpr ⟨values, found, rfl⟩, fun p member => ?_⟩
  obtain ⟨⟨x, y⟩, paired, rfl⟩ := List.mem_map.mp member
  obtain ⟨left, right⟩ := mem_of_mem_pairs paired
  exact ⟨all x left, all y right⟩

end Ranges

namespace Report

/-! ## Reports -/

theorem sections_returns {s : Solution σ} {body : String → BlockId → Except Fault String}
    (each : ∀ label b, ∃ text, body label b = .ok text) : ∃ texts, sections s body = .ok texts :=
  mapM_returns fun p _ => each p.1 p.2

theorem taint_returns {s : Solution TaintSet}
    (inside : ∀ b t, s.exit? b = some t → ∀ v ∈ t, v < f.numInsts) :
    ∃ text, taint f s = .ok text := by
  refine bind_returns (sections_returns fun label b => ?_) fun _ _ => ⟨_, rfl⟩
  split
  next => exact ⟨_, rfl⟩
  next t found =>
    refine bind_returns (mapM_returns fun v member => ?_) fun _ _ => ⟨_, rfl⟩
    exact Procedure.valueName_of_lt (inside b t found v (Std.ExtTreeSet.mem_toList.mp member))

theorem trails_returns {s : Solution Trails}
    (inside : ∀ b t, s.exit? b = some t → ∀ v ∈ t, v < f.numInsts) :
    ∃ text, trails f s = .ok text := by
  refine bind_returns (sections_returns fun label b => ?_) fun _ _ => ⟨_, rfl⟩
  split
  next => exact ⟨_, rfl⟩
  next t found =>
    refine bind_returns (mapM_returns fun p member => ?_) fun _ _ => ⟨_, rfl⟩
    have there := inside b t found p.1 (mem_of_mem_toList member)
    exact bind_returns (Procedure.valueName_of_lt there) fun _ _ => ⟨_, rfl⟩

theorem busy_returns (s : Solution BusyState) : ∃ text, busy s = .ok text :=
  bind_returns (sections_returns fun _ _ => ⟨_, rfl⟩) fun _ _ => ⟨_, rfl⟩

theorem onRanges_returns {s : Solution Ranges} {lines : Ranges → Except Fault (List String)}
    (each : ∀ b t, s.exit? b = some t → ∃ texts, lines t = .ok texts) :
    ∃ text, onRanges s lines = .ok text := by
  refine bind_returns (sections_returns fun label b => ?_) fun _ _ => ⟨_, rfl⟩
  split
  next => exact ⟨_, rfl⟩
  next t found => exact bind_returns (each b t found) fun _ _ => ⟨_, rfl⟩

theorem ranges_returns (settings : Settings) {s : Solution Ranges}
    (inside : ∀ b t, s.exit? b = some t → ∀ v ∈ t, v < f.numInsts) :
    ∃ text, ranges settings f s = .ok text := by
  refine onRanges_returns fun b t found => ?_
  obtain ⟨values, shown, -⟩ := Ranges.shown_returns settings (inside b t found)
  exact bind_returns ⟨values, shown⟩ fun _ _ => ⟨_, rfl⟩

theorem differences_returns (settings : Settings) {s : Solution Ranges}
    (inside : ∀ b t, s.exit? b = some t → ∀ v ∈ t, v < f.numInsts) :
    ∃ text, differences settings f s = .ok text := by
  refine onRanges_returns fun b t found => ?_
  obtain ⟨seps, separated, there⟩ := Ranges.separations_returns settings (inside b t found)
  refine bind_returns ⟨seps, separated⟩ fun seps' separated' => mapM_returns fun p member => ?_
  cases separated.symm.trans separated'
  obtain ⟨left, right⟩ := there p member
  exact bind_returns (Procedure.valueName_of_lt left) fun _ _ =>
    bind_returns (Procedure.valueName_of_lt right) fun _ _ => ⟨_, rfl⟩

end Report

end FlowGraph
