import FlowGraph.Demo.Sample
import FlowGraph.Proofs.Ranges.Window

/-!
# What the edges of a branch narrow

The ranges along an edge of a branch are those at the comparison, narrowed.  They say nothing of
what the block does after the comparison.  So a store behind the comparison is undone along the edges
(`edges_undo_store`).  A store between a load and the comparison that reads it is undone too, since
the narrowed range of the loaded register is written over the variable.

A variable keeps what the block makes of it if the block writes it neither after the comparison that
decides the branch nor after a load from it that this comparison reads (`SteadyAt`).  Then along
every edge it has a part of its range at the end of the block (`edges_narrow`).

The proof follows the block up to each instruction (`Recalls`).  A register that was loaded from the
variable for the comparison has the range of the variable, and the outcomes of the comparison have
parts of it.
-/

namespace FlowGraph

namespace Procedure

variable {f : Procedure} {b : BlockId} {v : InstId}

/-- Whether an instruction writes a variable. -/
def writesTo (f : Procedure) (id v : InstId) : Bool :=
  match f.op id with
  | .ok .alloca => id == v
  | .ok (.store _ slot) => slot == v
  | _ => false

/-- Whether an instruction loads from another variable. -/
def loadsOther (f : Procedure) (id v : InstId) : Bool :=
  match f.op id with
  | .ok (.load slot) => slot != v
  | _ => false

/-- A variable is not written, inside the block, after the comparison that decides its branch or
after a load from the variable that this comparison reads. -/
def SteadyAt (f : Procedure) (b : BlockId) (v : InstId) : Prop :=
  ∀ ids, f.instsOf b = .ok ids → ids.Pairwise fun x y =>
    x ∈ f.deciders b → f.loadsOther x v = false → f.writesTo y v = false

theorem SteadyAt.writesTo_eq_false (steady : f.SteadyAt b v) {done rest : List InstId}
    {id r : InstId} (found : f.instsOf b = .ok (done ++ id :: rest)) (before : r ∈ done)
    (decides : r ∈ f.deciders b) (watches : f.loadsOther r v = false) : f.writesTo id v = false :=
  (List.pairwise_append.mp (steady _ found)).2.2 r before id List.mem_cons_self decides watches

theorem loadsOther_eq_false {c : InstId} (compares : f.isCompare c = true) :
    f.loadsOther c v = false := by
  unfold isCompare at compares
  split at compares
  next isOp => simp [loadsOther, isOp]
  next => cases compares

end Procedure

namespace Ranges

variable {w : Window} {f : Procedure} {b : BlockId} {id v : InstId} {s t : Ranges}

/-! ## Comparisons -/

/-- Narrowing changes the range of at most one variable, that of the load. -/
theorem rangeOf_narrow {o : Operand} {a : Interval} (narrowed : narrow f o a s = .ok t) :
    t.rangeOf v = s.rangeOf v ∨ ∃ r, o = .value r ∧ f.op r = .ok (.load v) ∧ t.rangeOf v = a := by
  cases o with
  | const n =>
      cases narrowed
      exact .inl rfl
  | value r =>
      obtain ⟨op, isOp, narrowed⟩ := bind_eq_ok_iff.mp narrowed
      split at narrowed
      next slot =>
        cases pure_eq_ok_iff.mp narrowed
        by_cases same : v = slot
        · subst same
          exact .inr ⟨r, rfl, isOp, rangeOf_insert_self⟩
        · exact .inl (rangeOf_insert_of_ne same)
      next =>
        cases pure_eq_ok_iff.mp narrowed
        exact .inl rfl

/-- An outcome of a comparison has a part of the range of a variable, if the registers that were
loaded from there have. -/
theorem mem_of_mem_assume {pred : Predicate} {lhs rhs : Operand}
    (isVariable : f.hasVariable v = true)
    (loaded : ∀ r, lhs = .value r ∨ rhs = .value r → f.op r = .ok (.load v) →
      ∀ x, x ∈ s.rangeOf r → x ∈ s.rangeOf v)
    (assumed : assume w f s pred lhs rhs = .ok (some t)) :
    ∀ x, x ∈ t.rangeOf v → x ∈ s.rangeOf v := by
  intro x member
  unfold assume at assumed
  dsimp only at assumed
  split at assumed
  next => cases pure_eq_ok_iff.mp assumed
  next =>
    obtain ⟨s₁, first, assumed⟩ := bind_eq_ok_iff.mp assumed
    obtain ⟨s₂, second, assumed⟩ := bind_eq_ok_iff.mp assumed
    obtain ⟨t', erased, same⟩ := bind_eq_ok_iff.mp assumed
    cases pure_eq_ok_iff.mp same
    rw [rangeOf_eraseRegisters erased isVariable] at member
    rcases rangeOf_narrow (v := v) second with kept | ⟨r, isRight, isLoad, range⟩
    · rcases rangeOf_narrow (v := v) first with kept' | ⟨r, isLeft, isLoad, range⟩
      · rwa [kept, kept'] at member
      · rw [kept, range] at member
        refine loaded r (.inl isLeft) isLoad x ?_
        have fromLeft := Interval.mem_of_mem_refine.1 member
        rwa [isLeft] at fromLeft
    · rw [range] at member
      refine loaded r (.inr isRight) isLoad x ?_
      have fromRight := Interval.mem_of_mem_refine.2 member
      rwa [isRight] at fromRight

/-! ## Instructions -/

/-- An instruction may set the range of a value: its own, or that of the slot it stores to. -/
def Sets (f : Procedure) (id k : InstId) : Prop := k = id ∨ ∃ value, f.op id = .ok (.store value k)

/-- What an instruction does: a comparison keeps the ranges and has outcomes, others set one range
or nothing.  A load sets its own range to that of its slot. -/
theorem step_cases {p p' : Progress} (stepped : step w f p id = .ok p') :
    (∃ pred lhs rhs o, f.op id = .ok (.compare pred lhs rhs) ∧
      assume w f p.ranges pred lhs rhs = .ok o.onTrue ∧
      assume w f p.ranges pred.inverse lhs rhs = .ok o.onFalse ∧
      p' = ⟨p.ranges, p.outcomes.insert id o⟩) ∨
    (∃ k a, p' = ⟨p.ranges.insert k a, p.outcomes⟩ ∧
      Sets f id k ∧ ∀ slot, f.op id = .ok (.load slot) → k = id ∧ a = p.ranges.rangeOf slot) ∨
    p' = p ∧ ∀ slot, f.op id ≠ .ok (.load slot) := by
  obtain ⟨op, isOp, stepped⟩ := bind_eq_ok_iff.mp stepped
  rw [isOp]
  cases op with
  | alloca =>
      cases pure_eq_ok_iff.mp stepped
      exact .inr (.inl ⟨id, _, rfl, .inl rfl, by simp⟩)
  | load slot =>
      cases pure_eq_ok_iff.mp stepped
      refine .inr (.inl ⟨id, _, rfl, .inl rfl, fun slot' same => ?_⟩)
      cases same
      exact ⟨rfl, rfl⟩
  | store value slot =>
      cases pure_eq_ok_iff.mp stepped
      exact .inr (.inl ⟨slot, _, rfl, .inr ⟨value, isOp⟩, by simp⟩)
  | binary op lhs rhs =>
      obtain ⟨a, computed, stepped⟩ := bind_eq_ok_iff.mp stepped
      cases pure_eq_ok_iff.mp stepped
      exact .inr (.inl ⟨id, a, rfl, .inl rfl, by simp⟩)
  | compare pred lhs rhs =>
      obtain ⟨onTrue, assumed, stepped⟩ := bind_eq_ok_iff.mp stepped
      obtain ⟨onFalse, assumed', stepped⟩ := bind_eq_ok_iff.mp stepped
      cases pure_eq_ok_iff.mp stepped
      exact .inl ⟨pred, lhs, rhs, ⟨onTrue, onFalse⟩, rfl, assumed, assumed', rfl⟩
  | _ =>
      cases pure_eq_ok_iff.mp stepped
      exact .inr (.inr ⟨rfl, by simp⟩)

/-- An instruction that does not write a variable does not set its range. -/
theorem Sets.ne_of_not_writes {k : InstId} (sets : Sets f id k)
    (isVariable : f.hasVariable v = true) (keeps : f.writesTo id v = false) : v ≠ k := by
  rintro rfl
  rcases sets with rfl | ⟨value, isStore⟩
  · simp [Procedure.writesTo, Procedure.hasVariable_iff.mp isVariable] at keeps
  · simp [Procedure.writesTo, isStore] at keeps

/-- An instruction does not set the range of another register. -/
theorem Sets.ne_of_register (closed : f.Closed) {k r : InstId} (sets : Sets f id k)
    (notVariable : f.hasVariable r = false) (other : r ≠ id) : r ≠ k := by
  rintro rfl
  rcases sets with rfl | ⟨value, isStore⟩
  · exact other rfl
  · rw [closed.slots id _ r isStore rfl] at notVariable
    cases notVariable

/-- The instructions `done` of a block are behind, and it is still known where the ranges of a
variable came from. -/
structure Recalls (f : Procedure) (b : BlockId) (v : InstId) (done : List InstId) (p : Progress) :
    Prop where
  /-- Registers that were not made yet have no range. -/
  unmade : ∀ r, f.hasVariable r = false → r ∉ done → p.ranges.rangeOf r = .empty
  /-- A load from the variable for the deciding comparison has its range. -/
  loaded : ∀ r ∈ done, f.op r = .ok (.load v) → r ∈ f.deciders b →
    p.ranges.rangeOf r = p.ranges.rangeOf v
  made : ∀ (c : InstId) (o : Outcomes), p.outcomes[c]? = some o →
    c ∈ done ∧ f.isCompare c = true
  /-- The outcomes of the deciding comparison have parts of its range. -/
  decided : ∀ (c : InstId) (o : Outcomes), p.outcomes[c]? = some o → c ∈ f.deciders b →
    ∀ t, o.onTrue = some t ∨ o.onFalse = some t → ∀ x, x ∈ t.rangeOf v → x ∈ p.ranges.rangeOf v

namespace Recalls

variable {done rest : List InstId} {p p' : Progress}

/-- At the entry of a block there are no registers and no outcomes. -/
theorem enter (registers : ∀ r, f.hasVariable r = false → s.rangeOf r = .empty) :
    Recalls f b v [] ⟨s, ∅⟩ where
  unmade r notVariable _ := registers r notVariable
  loaded r member := by cases member
  made c o found := by simp at found
  decided c o found := by simp at found

/-- A comparison: the ranges stay, and there is a new outcome. -/
theorem compares (recalls : Recalls f b v done p) (isVariable : f.hasVariable v = true)
    {pred : Predicate} {lhs rhs : Operand} {o : Outcomes}
    (isOp : f.op id = .ok (.compare pred lhs rhs))
    (onTrue : assume w f p.ranges pred lhs rhs = .ok o.onTrue)
    (onFalse : assume w f p.ranges pred.inverse lhs rhs = .ok o.onFalse) :
    Recalls f b v (done ++ [id]) ⟨p.ranges, p.outcomes.insert id o⟩ := by
  have notLoad : f.op id ≠ .ok (.load v) := by simp [isOp]
  have outcome : ∀ (c : InstId) (o' : Outcomes), (p.outcomes.insert id o)[c]? = some o' →
      c = id ∧ o' = o ∨ p.outcomes[c]? = some o' := by
    intro c o' found
    rw [Std.ExtTreeMap.getElem?_insert] at found
    split at found
    next same => exact .inl ⟨(Nat.compare_eq_eq.mp same).symm, (Option.some.inj found).symm⟩
    next => exact .inr found
  refine ⟨fun r notVariable fresh => ?_, fun r member isLoad decides => ?_, fun c o' found => ?_,
    fun c o' found decides t taken => ?_⟩
  · exact recalls.unmade r notVariable fun before => fresh (List.mem_append_left _ before)
  · rcases List.mem_append.mp member with before | here
    · exact recalls.loaded r before isLoad decides
    · rw [List.mem_singleton.mp here] at isLoad
      exact absurd isLoad notLoad
  · rcases outcome c o' found with ⟨rfl, -⟩ | before
    · exact ⟨by simp, by simp [Procedure.isCompare, isOp]⟩
    · obtain ⟨member, isCompare⟩ := recalls.made c o' before
      exact ⟨List.mem_append_left _ member, isCompare⟩
  · rcases outcome c o' found with ⟨rfl, rfl⟩ | before
    · -- a register that the comparison reads was loaded before, or it has no range at all
      have loaded : ∀ r, lhs = .value r ∨ rhs = .value r → f.op r = .ok (.load v) →
          ∀ x, x ∈ p.ranges.rangeOf r → x ∈ p.ranges.rangeOf v := by
        intro r side isLoad x member
        by_cases before : r ∈ done
        · have same := recalls.loaded r before isLoad
            (Procedure.load_mem_deciders decides isOp side isLoad)
          rwa [← same]
        · have none := recalls.unmade r (Procedure.hasVariable_eq_false isLoad (by simp)) before
          rw [none] at member
          exact absurd member Interval.not_mem_empty
      rcases taken with isTrue | isFalse
      · exact mem_of_mem_assume isVariable loaded (isTrue ▸ onTrue)
      · exact mem_of_mem_assume isVariable loaded (isFalse ▸ onFalse)
    · exact recalls.decided c o' before decides t taken

/-- An instruction that sets a range.  It does not set that of the variable once the deciding
comparison is behind, or a load from the variable for it. -/
theorem sets (closed : f.Closed) (recalls : Recalls f b v done p)
    (isVariable : f.hasVariable v = true) {k : InstId} {a : Interval}
    (sets : Sets f id k)
    (copies : ∀ slot, f.op id = .ok (.load slot) → k = id ∧ a = p.ranges.rangeOf slot)
    (steady : ∀ r ∈ done, r ∈ f.deciders b → f.loadsOther r v = false → f.writesTo id v = false) :
    Recalls f b v (done ++ [id]) ⟨p.ranges.insert k a, p.outcomes⟩ where
  unmade r notVariable fresh := by
    have other : r ≠ id := fun same => fresh (by simp [same])
    rw [rangeOf_insert_of_ne (sets.ne_of_register closed notVariable other)]
    exact recalls.unmade r notVariable fun before => fresh (List.mem_append_left _ before)
  loaded r member isLoad decides := by
    have notVariable := Procedure.hasVariable_eq_false isLoad (by simp)
    by_cases same : r = id
    · obtain ⟨own, range⟩ := copies v (same ▸ isLoad)
      have other : v ≠ id := by
        rintro rfl
        rw [same, isVariable] at notVariable
        cases notVariable
      rw [own, same, rangeOf_insert_self, rangeOf_insert_of_ne other, range]
    · have before : r ∈ done := (List.mem_append.mp member).resolve_right (by simpa using same)
      have keeps := steady r before decides (by simp [Procedure.loadsOther, isLoad])
      rw [rangeOf_insert_of_ne (sets.ne_of_register closed notVariable same),
        rangeOf_insert_of_ne (sets.ne_of_not_writes isVariable keeps)]
      exact recalls.loaded r before isLoad decides
  made c o found := by
    obtain ⟨member, isCompare⟩ := recalls.made c o found
    exact ⟨List.mem_append_left _ member, isCompare⟩
  decided c o found decides t taken := by
    obtain ⟨before, isCompare⟩ := recalls.made c o found
    have keeps := steady c before decides (Procedure.loadsOther_eq_false isCompare)
    rw [rangeOf_insert_of_ne (sets.ne_of_not_writes isVariable keeps)]
    exact recalls.decided c o found decides t taken

/-- An instruction that does nothing to ranges. -/
theorem skips (recalls : Recalls f b v done p) (notLoad : ∀ slot, f.op id ≠ .ok (.load slot)) :
    Recalls f b v (done ++ [id]) p where
  unmade r notVariable fresh :=
    recalls.unmade r notVariable fun before => fresh (List.mem_append_left _ before)
  loaded r member isLoad decides := by
    rcases List.mem_append.mp member with before | here
    · exact recalls.loaded r before isLoad decides
    · rw [List.mem_singleton.mp here] at isLoad
      exact absurd isLoad (notLoad v)
  made c o found := by
    obtain ⟨member, isCompare⟩ := recalls.made c o found
    exact ⟨List.mem_append_left _ member, isCompare⟩
  decided := recalls.decided

/-- Reading an instruction of a block in which the variable is steady. -/
theorem step (closed : f.Closed) (isVariable : f.hasVariable v = true) (steady : f.SteadyAt b v)
    (found : f.instsOf b = .ok (done ++ id :: rest)) (recalls : Recalls f b v done p)
    (stepped : Ranges.step w f p id = .ok p') : Recalls f b v (done ++ [id]) p' := by
  rcases step_cases stepped with ⟨pred, lhs, rhs, o, isOp, onTrue, onFalse, rfl⟩ |
    ⟨k, a, rfl, sets, copies⟩ | ⟨rfl, notLoad⟩
  · exact recalls.compares isVariable isOp onTrue onFalse
  · exact recalls.sets closed isVariable sets copies fun r before decides watches =>
      steady.writesTo_eq_false found before decides watches
  · exact recalls.skips notLoad

/-- Reading a block to its end. -/
theorem run (closed : f.Closed) (isVariable : f.hasVariable v = true) (steady : f.SteadyAt b v)
    (found : f.instsOf b = .ok (done ++ rest)) (recalls : Recalls f b v done p)
    (read : rest.foldlM (Ranges.step w f) p = .ok p') : Recalls f b v (done ++ rest) p' := by
  induction rest generalizing done p with
  | nil =>
      cases read
      rwa [List.append_nil]
  | cons id rest ih =>
      rw [List.foldlM_cons, bind_eq_ok_iff] at read
      obtain ⟨p₁, first, read⟩ := read
      have next := recalls.step closed isVariable steady found first
      rw [List.append_cons] at found ⊢
      exact ih found next read

end Recalls

/-! ## Blocks -/

theorem SeenVariables.rangeOf_eq_empty (seen : SeenVariables w f s)
    (notVariable : f.hasVariable v = false) : s.rangeOf v = .empty := by
  rw [rangeOf_eq]
  cases found : s[v]? with
  | none => rfl
  | some a =>
      rw [(seen v a found).1] at notVariable
      cases notVariable

/-- Every edge that a block lists has a part of the range of a steady variable at the end of the
block. -/
theorem edges_narrow {d : Draft} (built : d.build = .ok f) (seen : SeenVariables w f s)
    {state : Ranges} {edges : List (BlockId × Ranges)}
    (carried : through w f b s = .ok (.split state edges)) {dest : BlockId}
    (listed : (dest, t) ∈ edges) (steady : f.SteadyAt b v) :
    ∀ x, x ∈ t.rangeOf v → x ∈ state.rangeOf v := by
  intro x member
  have closed := Procedure.closed_of_build built
  obtain ⟨ids, p, after, leaving, found, read, erased, leaves, flows⟩ := through_eq_ok carried
  cases isVariable : f.hasVariable v with
  | false =>
      -- what is not a variable has no range along an edge
      obtain ⟨block, there, -⟩ := bind_eq_ok_iff.mp found
      have here : b < f.numBlocks := Procedure.block_eq_ok_iff.mp ⟨block, there⟩
      have seenEdge := ((through_seen closed here seen carried).2 state edges rfl dest t listed).2
      rw [seenEdge.rangeOf_eq_empty isVariable] at member
      exact absurd member Interval.not_mem_empty
  | true =>
      have enters : Recalls f b v [] ⟨s, ∅⟩ := .enter fun r => seen.rangeOf_eq_empty
      have whole : f.instsOf b = .ok ([] ++ ids) := found
      have recalls := enters.run closed isVariable steady whole read
      have atEnd : after.rangeOf v = p.ranges.rangeOf v := rangeOf_eraseRegisters erased isVariable
      unfold Progress.flow at flows
      split at flows
      next n onTrue onFalse =>
        cases flows
        cases List.mem_singleton.mp listed
        exact member
      next c onTrue onFalse =>
        split at flows
        next o taken =>
          cases flows
          rw [atEnd]
          have decides := Procedure.compare_mem_deciders leaves (recalls.made c o taken).2
          refine recalls.decided c o taken decides t ?_ x member
          exact (mem_edges_iff.mp listed).imp And.right And.right
        next => cases flows
      next => cases flows

/-- A test that some edge passes, evaluated on the outcome of a block. -/
theorem exists_edge (outcome : Except Fault (Flow Ranges)) (test : Ranges → BlockId → Ranges → Bool)
    (passes : outcome.toOption.any (fun flow =>
      flow.edges?.any (·.any fun (dest, t) => test flow.state dest t)) = true) :
    ∃ state edges dest t, outcome = .ok (.split state edges) ∧ (dest, t) ∈ edges ∧
      test state dest t = true := by
  obtain ⟨flow, isFlow, passes⟩ := exists_ok_of_any passes
  cases flow with
  | uniform state => cases passes
  | split state edges =>
      obtain ⟨⟨dest, t⟩, listed, passes⟩ := List.any_eq_true.mp passes
      exact ⟨state, edges, dest, t, isFlow, listed, passes⟩

/-- The comparison of the loop sample narrows its counter on the way into the body, to a part of
what the counter is at the end of the block. -/
theorem edges_narrow_loop : ∃ state edges t,
    through .full Sample.loopDraft.layout 1 ((∅ : Ranges).insert 1 (.range .full 0 200)) =
      .ok (.split state edges) ∧ (2, t) ∈ edges ∧ .fin 99 ∈ t.rangeOf 1 ∧ .fin 100 ∉ t.rangeOf 1 ∧
      ∀ x, x ∈ t.rangeOf 1 → x ∈ state.rangeOf 1 := by
  obtain ⟨state, edges, dest, t, carried, listed, passes⟩ := exists_edge
    (through .full Sample.loopDraft.layout 1 ((∅ : Ranges).insert 1 (.range .full 0 200)))
    (fun _ dest t => decide (dest = 2 ∧ .fin 99 ∈ t.rangeOf 1 ∧ .fin 100 ∉ t.rangeOf 1))
    (by decide +kernel)
  obtain ⟨isBody, inside, outside⟩ := of_decide_eq_true passes
  have seen : SeenVariables .full Sample.loopDraft.layout
      ((∅ : Ranges).insert 1 (.range .full 0 200)) :=
    seen_empty.insert rfl (Interval.seen_ofEnds (Window.seen_clamp _ _) (Window.seen_clamp _ _))
  have steady : Sample.loopDraft.layout.SteadyAt 1 1 := by
    intro ids found
    cases found
    decide +kernel
  subst isBody
  exact ⟨state, edges, t, carried, listed, inside, outside,
    edges_narrow (d := Sample.loopDraft) rfl seen carried listed steady⟩

/-! ## Stores that are undone -/

/-- Compares a variable with five, and stores to it before the branch. -/
def lateStore : Draft := .ofSteps "main" do
  let entry ← Drafting.block "entry"
  let above ← Drafting.block "above"
  let below ← Drafting.block "below"
  let x ← Drafting.alloca entry "x"
  let _ ← Drafting.store entry (.const 10) x
  let r ← Drafting.load entry x
  let c ← Drafting.compare entry .sgt (.value r) (.const 5)
  let _ ← Drafting.store entry (.const 0) x
  let _ ← Drafting.branch entry (.value c) above below
  let _ ← Drafting.other above
  Drafting.other below

/-- Behind the comparison zero is stored.  At the end of the block that is the range of the
variable, and along the edge it still is ten. -/
theorem edges_undo_store : lateStore.build = .ok lateStore.layout ∧
    ∃ state edges t, through .full lateStore.layout 0 ∅ = .ok (.split state edges) ∧
      (1, t) ∈ edges ∧ .fin 10 ∈ t.rangeOf 0 ∧ .fin 10 ∉ state.rangeOf 0 := by
  obtain ⟨state, edges, dest, t, carried, listed, passes⟩ := exists_edge
    (through .full lateStore.layout 0 ∅)
    (fun state dest t => decide (dest = 1 ∧ .fin 10 ∈ t.rangeOf 0 ∧ .fin 10 ∉ state.rangeOf 0))
    (by decide +kernel)
  obtain ⟨rfl, inside, outside⟩ := of_decide_eq_true passes
  exact ⟨rfl, state, edges, t, carried, listed, inside, outside⟩

end Ranges

end FlowGraph
