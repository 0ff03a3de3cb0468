import FlowGraph.Analysis.Busy
import FlowGraph.Proofs.Procedure.Graph
import FlowGraph.Proofs.Procedure.Texts
import Mathlib.Data.List.Induction

/-!
# What an instruction makes of the busy expressions

In a closed procedure reading a block never stops with a fault.  Each of its instructions has one
effect on the busy expressions, which depends on the instruction alone.  It makes its expression busy,
ends the expressions in one variable, or does nothing (`effect`).  A block has the effects of its
instructions, the last first (`through_eq`).

The expression of an instruction, the variables it reads and the variable it changes are stated here
on their own.  An operand counts as a variable if it is a register that an instruction of the same
block loaded from there.
-/

namespace FlowGraph

namespace BusyState

variable {f : Procedure} {b : BlockId} {id v w : InstId} {e e' : String} {s t : BusyState}

/-! ## Expressions -/

/-- The variable that an operand was loaded from in a block, if it was. -/
def loadedFrom? (f : Procedure) (b : BlockId) : Operand → Option InstId
  | .const _ => none
  | .value r =>
    match f.insts[r]? with
    | some ⟨_, owner, .load slot⟩ => if owner = b then some slot else none
    | _ => none

/-- The text of an operand in an expression of a block. -/
def operandText? (f : Procedure) (b : BlockId) : Operand → Option String
  | .const n => some (toString n)
  | .value r => f.insts[(loadedFrom? f b (.value r)).getD r]?.map (·.name)

/-- The expression that an instruction computes, if it does arithmetic. -/
def expr? (f : Procedure) (id : InstId) : Option String :=
  match f.insts[id]? with
  | some ⟨_, b, .binary op lhs rhs⟩ => do
    let symbol ← op.symbol?
    let left ← operandText? f b lhs
    let right ← operandText? f b rhs
    return s!"{left} {symbol} {right}"
  | _ => none

/-- The variables that a binary operation reads through loads of its own block. -/
def readsOf (f : Procedure) (id : InstId) : List InstId :=
  match f.insts[id]? with
  | some ⟨_, b, .binary _ lhs rhs⟩ => (loadedFrom? f b lhs).toList ++ (loadedFrom? f b rhs).toList
  | _ => []

/-- The variable whose expressions an instruction ends: one that it declares, or one that it stores
to, unless it stores back what its block loaded from there. -/
def killedBy? (f : Procedure) (id : InstId) : Option InstId :=
  match f.insts[id]? with
  | some ⟨_, _, .alloca⟩ => some id
  | some ⟨_, b, .store value slot⟩ => if loadedFrom? f b value = some slot then none else some slot
  | _ => none

/-- What an instruction makes of the busy expressions after it. -/
def effect (f : Procedure) (id : InstId) (s : BusyState) : BusyState :=
  match expr? f id, killedBy? f id with
  | some e, _ => s.gen e (readsOf f id)
  | none, some v => s.kill v
  | none, none => s

theorem loadedFrom?_eq_some_iff {r : InstId} : loadedFrom? f b (.value r) = some v ↔
    ∃ i, f.inst r = .ok i ∧ i.block = b ∧ i.op = .load v := by
  simp only [loadedFrom?, Procedure.inst, lookup_eq_ok_iff]
  constructor
  · intro loaded
    split at loaded
    next name owner slot found =>
      split at loaded
      next same =>
        cases loaded
        exact ⟨_, found, same, rfl⟩
      next => cases loaded
    next => cases loaded
  · rintro ⟨⟨name, owner, op⟩, found, rfl, rfl⟩
    simp [found]

/-- What an operand was loaded from is a variable. -/
theorem hasVariable_loadedFrom? (closed : f.Closed) {o : Operand}
    (loaded : loadedFrom? f b o = some v) : f.hasVariable v = true := by
  cases o with
  | const n => cases loaded
  | value r =>
      obtain ⟨i, found, -, isLoad⟩ := loadedFrom?_eq_some_iff.mp loaded
      have isOp : f.op r = .ok (.load v) := bind_eq_ok_iff.mpr ⟨i, found, by rw [isLoad]; rfl⟩
      exact closed.slots r _ v isOp rfl

/-! ## Blocks -/

theorem loads_returns {ids : List InstId} (inside : ∀ id ∈ ids, id < f.numInsts) :
    ∃ m, loads f ids = .ok m ∧ ∀ r v, m[r]? = some v ↔ r ∈ ids ∧ f.op r = .ok (.load v) := by
  induction ids using List.reverseRecOn with
  | nil => exact ⟨∅, rfl, by simp⟩
  | append_singleton ids id ih =>
      obtain ⟨m, loaded, members⟩ := ih fun r member => inside r (List.mem_append_left _ member)
      obtain ⟨op, isOp⟩ := Procedure.op_of_lt (inside id (by simp))
      unfold loads at loaded ⊢
      rw [List.foldlM_append, loaded]
      simp only [bind, Except.bind, List.foldlM_cons, List.foldlM_nil, isOp]
      cases op with
      | load slot =>
          refine ⟨_, rfl, fun r v => ?_⟩
          simp only [Std.ExtTreeMap.getElem?_insert, Nat.compare_eq_eq, List.mem_append,
            List.mem_singleton]
          by_cases same : id = r
          · subst same
            simp [isOp]
          · simp [same, members, Ne.symm same]
      | _ =>
          refine ⟨m, rfl, fun r v => ?_⟩
          simp only [members, List.mem_append, List.mem_singleton]
          constructor
          · exact fun ⟨member, isLoad⟩ => ⟨.inl member, isLoad⟩
          · rintro ⟨member | rfl, isLoad⟩
            · exact ⟨member, isLoad⟩
            · rw [isOp] at isLoad
              cases isLoad

/-- The loads of a block are what its operands were loaded from. -/
def Sees (f : Procedure) (b : BlockId) (m : Loads) : Prop :=
  ∀ r, m[r]? = loadedFrom? f b (.value r)

theorem loads_sees (closed : f.Closed) {ids : List InstId} (found : f.instsOf b = .ok ids) :
    ∃ m, loads f ids = .ok m ∧ Sees f b m := by
  have owner := closed.owner b ids found
  have inside : ∀ id ∈ ids, id < f.numInsts := by
    intro id member
    obtain ⟨i, there, -⟩ := (owner id).mp member
    exact Procedure.inst_eq_ok_iff.mp ⟨i, there⟩
  obtain ⟨m, loaded, members⟩ := loads_returns inside
  refine ⟨m, loaded, fun r => Option.ext fun v => ?_⟩
  rw [members, owner, loadedFrom?_eq_some_iff]
  constructor
  · rintro ⟨⟨i, there, same⟩, isLoad⟩
    refine ⟨i, there, same, ?_⟩
    simpa [Procedure.op, there, bind, Except.bind, pure, Except.pure] using isLoad
  · rintro ⟨i, there, same, isLoad⟩
    exact ⟨⟨i, there, same⟩, bind_eq_ok_iff.mpr ⟨i, there, by rw [isLoad]; rfl⟩⟩

theorem operandText_eq (closed : f.Closed) {m : Loads} (sees : Sees f b m) {o : Operand}
    (inside : ∀ r, o = .value r → r < f.numInsts) :
    ∃ text, operandText? f b o = some text ∧ operandText f m o = .ok (text, loadedFrom? f b o) := by
  have name : ∀ {id}, id < f.numInsts → ∃ text, f.insts[id]?.map (·.name) = some text ∧
      f.valueName id = .ok text := by
    intro id here
    obtain ⟨i, found⟩ := Procedure.inst_eq_ok_iff.mpr here
    refine ⟨i.name, ?_, bind_eq_ok_iff.mpr ⟨i, found, rfl⟩⟩
    rw [lookup_eq_ok_iff.mp found]
    rfl
  cases o with
  | const n => exact ⟨toString n, rfl, rfl⟩
  | value r =>
      simp only [operandText?, operandText]
      cases loaded : loadedFrom? f b (.value r) with
      | some v =>
          obtain ⟨text, isText, named⟩ := name
            (Procedure.lt_of_hasVariable (hasVariable_loadedFrom? closed loaded))
          exact ⟨text, isText, by simp only [sees r, loaded, named]; rfl⟩
      | none =>
          obtain ⟨text, isText, named⟩ := name (inside r rfl)
          exact ⟨text, isText, by simp only [sees r, loaded, named]; rfl⟩

/-- Reading an instruction has its effect. -/
theorem step_eq (closed : f.Closed) {m : Loads} (sees : Sees f b m) {i : Instruction}
    (found : f.inst id = .ok i) (same : i.block = b) :
    step f m s id = .ok (effect f id s) := by
  have isOp : f.op id = .ok i.op := bind_eq_ok_iff.mpr ⟨i, found, rfl⟩
  have entry : f.insts[id]? = some i := lookup_eq_ok_iff.mp found
  obtain ⟨name, owner, op⟩ := i
  subst same
  simp only [step, isOp, bind, Except.bind]
  cases op with
  | binary op lhs rhs =>
      have inside : ∀ o ∈ [lhs, rhs], ∀ r, o = .value r → r < f.numInsts := by
        rintro o member r rfl
        exact closed.operands id _ r isOp member
      obtain ⟨left, isLeft, readLeft⟩ := operandText_eq closed sees (inside lhs (by simp))
      obtain ⟨right, isRight, readRight⟩ := operandText_eq closed sees (inside rhs (by simp))
      simp only [exprOf, effect, expr?, readsOf, killedBy?, entry]
      cases op.symbol? with
      | none => rfl
      | some symbol =>
          simp only [readLeft, readRight, isLeft, isRight, bind, Except.bind, Option.bind]
          rfl
  | store value slot =>
      have back : storesBack m value slot = (loadedFrom? f owner value == some slot) := by
        cases value with
        | const n => rfl
        | value r => simp only [storesBack, Operand.inst?, Option.bind_some, sees r]
      simp only [effect, expr?, killedBy?, entry, back]
      by_cases puts : loadedFrom? f owner value = some slot <;> simp [puts, pure, Except.pure]
  | _ =>
      simp only [effect, expr?, killedBy?, entry]
      rfl

/-- Reading a block has the effects of its instructions, the last first. -/
theorem through_eq (closed : f.Closed) {ids : List InstId} (found : f.instsOf b = .ok ids) :
    through f b s = .ok (ids.foldr (effect f) s) := by
  obtain ⟨m, loaded, sees⟩ := loads_sees closed found
  have folds : ∀ (part : List InstId), (∀ id ∈ part, id ∈ ids) →
      part.reverse.foldlM (step f m) s = .ok (part.foldr (effect f) s) := by
    intro part
    induction part with
    | nil => exact fun _ => rfl
    | cons id rest ih =>
        intro inside
        obtain ⟨i, there, same⟩ := (closed.owner b ids found id).mp (inside id List.mem_cons_self)
        rw [List.reverse_cons, List.foldlM_append,
          ih fun id member => inside id (List.mem_cons_of_mem _ member)]
        simp only [bind, Except.bind, List.foldlM_cons, List.foldlM_nil,
          step_eq closed sees there same]
        rfl
  simp only [through, found, loaded, bind, Except.bind]
  exact folds ids fun _ member => member

/-! ## The parts of an effect -/

theorem mem_kill_iff : e ∈ (s.kill v).exprs ↔ e ∈ s.exprs ∧ e ∉ s.byVar.textsOf v := by
  rw [mem_textsOf_iff, kill]
  cases s.byVar[v]? with
  | none => simp
  | some killed =>
      have kept : killed.contains e = false ↔ e ∉ killed := by
        rw [← Bool.not_eq_true, Std.ExtTreeSet.contains_iff_mem]
      simp [kept]

theorem getElem?_kill : (s.kill v).byVar[w]? = if v = w then none else s.byVar[w]? := by
  unfold kill
  cases found : s.byVar[v]? with
  | none =>
      by_cases same : v = w
      · rw [if_pos same, ← same]
        exact found
      · rw [if_neg same]
  | some killed => simp [Std.ExtTreeMap.getElem?_erase]

theorem mem_textsOf_kill_iff :
    e ∈ (s.kill v).byVar.textsOf w ↔ v ≠ w ∧ e ∈ s.byVar.textsOf w := by
  rw [mem_textsOf_iff, mem_textsOf_iff, getElem?_kill]
  split
  next same => simp [same]
  next other => simp [other]

theorem mem_gen_iff {vars : List InstId} : e' ∈ (s.gen e vars).exprs ↔ e = e' ∨ e' ∈ s.exprs := by
  simp [gen, Std.ExtTreeSet.mem_insert]

theorem mem_textsOf_gen_iff {vars : List InstId} : e' ∈ (s.gen e vars).byVar.textsOf v ↔
    e = e' ∧ v ∈ vars ∨ e' ∈ s.byVar.textsOf v := by
  simp only [gen]
  generalize s.byVar = m
  induction vars generalizing m with
  | nil => simp
  | cons w vars ih =>
      have inserted : e' ∈ TextMap.textsOf (m.insert w ((m.textsOf w).insert e)) v ↔
          e = e' ∧ v = w ∨ e' ∈ m.textsOf v := by
        by_cases same : w = v
        · subst same
          simp [TextMap.textsOf, Std.ExtTreeSet.mem_insert]
        · simp [TextMap.textsOf, Std.ExtTreeMap.getD_insert, same, Ne.symm same]
      rw [List.foldl_cons, ih, inserted, List.mem_cons]
      tauto

theorem mem_meet_iff : e ∈ (s.meet t).exprs ↔ e ∈ s.exprs ∧ e ∈ t.exprs :=
  Std.ExtTreeSet.mem_inter_iff

theorem getElem?_meet : (s.meet t).byVar[v]? = s.byVar[v]?.bind fun es =>
    t.byVar[v]?.bind fun other =>
      if (es ∩ other).isEmpty then none else some (es ∩ other) := by
  simp only [meet, Std.ExtTreeMap.getElem?_filterMap']
  cases t.byVar[v]? <;> rfl

theorem mem_textsOf_meet_iff : e ∈ (s.meet t).byVar.textsOf v ↔
    e ∈ s.byVar.textsOf v ∧ e ∈ t.byVar.textsOf v := by
  simp only [mem_textsOf_iff, getElem?_meet]
  cases s.byVar[v]? with
  | none => simp
  | some es =>
      cases t.byVar[v]? with
      | none => simp
      | some other =>
          -- a common expression is one reason not to drop the variable
          have common : e ∈ es → e ∈ other → es ∩ other ≠ ∅ := by
            intro left right none
            have both := Std.ExtTreeSet.mem_inter_iff.mpr ⟨left, right⟩
            rw [none] at both
            exact Std.ExtTreeSet.not_mem_empty both
          simpa using common

end BusyState

end FlowGraph
