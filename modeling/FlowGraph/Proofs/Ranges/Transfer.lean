import FlowGraph.Proofs.Interval.Arithmetic
import FlowGraph.Proofs.Procedure.Build
import FlowGraph.Proofs.Ranges.Machine
import FlowGraph.Proofs.Ranges.Order

/-!
# Ranges follow the machine through a block

While a machine runs the instructions of a block, the ranges read over the same instructions cover
its slots and registers (`Tracks`).  Each instruction keeps this (`Tracks.runs`).

Two of the facts are about the branch at the end.  A register that was loaded for the deciding
comparison still equals its slot, and once the comparison has run, the outcome that it had covers
the slots.  Both outlast every instruction that writes no slot, and in a steady procedure no other
instruction comes after a decider.
-/

namespace FlowGraph

namespace Ranges

variable {w : Window} {f : Procedure} {b : BlockId} {slots : InstId → Option Int}

/-! ## Binary operations -/

theorem binary_mem {op : BinOp} {l r a : Interval} {x y z : Int} (left : .fin x ∈ l)
    (right : .fin y ∈ r) (hx : w.Admits x) (hy : w.Admits y) (hz : w.Admits z)
    (result : op.eval? x y = some z) (computed : binary w op l r = .ok a) : .fin z ∈ a := by
  have zero : 0 ∈ w := by
    obtain ⟨⟨lo, hi⟩, lo', hi'⟩ := hy
    exact ⟨by omega, by omega⟩
  have quotient : (if y = 0 then none else some (x.tdiv y)) = some z →
      Interval.div w l r = .ok a → .fin z ∈ a := by
    intro result computed
    split at result
    next => cases result
    next nonzero =>
      cases result
      exact Interval.mem_div left right hx.2 hy.1 hy.2 nonzero hz.1 computed
  have remainder : (if y = 0 then none else some (x.tmod y)) = some z →
      .fin z ∈ Interval.rem w l r := by
    intro result
    split at result
    next => cases result
    next nonzero =>
      cases result
      exact Interval.mem_rem left right zero nonzero hz.1
  cases op with
  | add => cases result; cases computed; exact Interval.mem_add left right hz.1
  | sub => cases result; cases computed; exact Interval.mem_sub left right hz.1
  | mul => cases result; cases computed; exact Interval.mem_mul left right hz.1
  | sdiv => exact quotient result computed
  | udiv => exact quotient result computed
  | srem => cases computed; exact remainder result
  | urem => cases computed; exact remainder result
  | shl => cases result
  | lshr => cases result
  | ashr => cases result
  | and => cases result
  | or => cases result
  | xor => cases result

/-! ## Comparisons -/

theorem rangeOf_eraseRegisters {s t : Ranges} {v : InstId} (erased : eraseRegisters f s = .ok t)
    (isVariable : f.hasVariable v = true) : t.rangeOf v = s.rangeOf v := by
  obtain ⟨-, -, same⟩ := bind_eq_ok_iff.mp erased
  cases pure_eq_ok_iff.mp same
  rw [rangeOf_eq, rangeOf_eq, Std.ExtTreeMap.getElem?_filter', isVariable]
  cases s[v]? <;> rfl

theorem Covers.eraseRegisters {s t : Ranges} (covers : s.Covers slots)
    (declared : ∀ v n, slots v = some n → f.hasVariable v = true)
    (erased : eraseRegisters f s = .ok t) : t.Covers slots := by
  intro v n content
  rw [rangeOf_eraseRegisters erased (declared v n content)]
  exact covers v n content

/-- Narrowing keeps what is covered if the operand is not a load, or its slot still has the value
that was loaded. -/
theorem Covers.narrow {s t : Ranges} {o : Operand} {a : Interval} {x : Int}
    (covers : s.Covers slots) (member : .fin x ∈ a)
    (loaded : ∀ id slot, o = .value id → f.op id = .ok (.load slot) → slots slot = some x)
    (narrowed : narrow f o a s = .ok t) : t.Covers slots := by
  cases o with
  | const n => cases narrowed; exact covers
  | value id =>
      obtain ⟨op, found, narrowed⟩ := bind_eq_ok_iff.mp narrowed
      split at narrowed
      next slot =>
        cases pure_eq_ok_iff.mp narrowed
        intro v n content
        by_cases same : v = slot
        · subst same
          rw [loaded id v rfl found] at content
          cases content
          rwa [rangeOf_insert_self]
        · rw [rangeOf_insert_of_ne same]
          exact covers v n content
      next =>
        cases pure_eq_ok_iff.mp narrowed
        exact covers

/-- A comparison that holds has an outcome, and the outcome covers the slots. -/
theorem Covers.assume {s : Ranges} {pred : Predicate} {lhs rhs : Operand} {x y : Int}
    {outcome : Option Ranges} (covers : s.Covers slots)
    (declared : ∀ v n, slots v = some n → f.hasVariable v = true)
    (left : .fin x ∈ s.operand w lhs) (right : .fin y ∈ s.operand w rhs)
    (holds : pred.relation.Holds x y) (hx : x ∈ w) (hy : y ∈ w)
    (leftLoaded : ∀ id slot, lhs = .value id → f.op id = .ok (.load slot) → slots slot = some x)
    (rightLoaded : ∀ id slot, rhs = .value id → f.op id = .ok (.load slot) → slots slot = some y)
    (assumed : assume w f s pred lhs rhs = .ok outcome) :
    ∃ t, outcome = some t ∧ t.Covers slots := by
  obtain ⟨left, right⟩ := Interval.mem_refine left right holds hx hy
  simp only [Ranges.assume, Interval.isEmpty_of_mem left, Interval.isEmpty_of_mem right,
    Bool.or_self, Bool.false_eq_true, if_false] at assumed
  obtain ⟨s₁, first, assumed⟩ := bind_eq_ok_iff.mp assumed
  obtain ⟨s₂, second, assumed⟩ := bind_eq_ok_iff.mp assumed
  obtain ⟨t, erased, assumed⟩ := bind_eq_ok_iff.mp assumed
  have covers₁ := covers.narrow left leftLoaded first
  have covers₂ := covers₁.narrow right rightLoaded second
  exact ⟨t, (pure_eq_ok_iff.mp assumed).symm, covers₂.eraseRegisters declared erased⟩

/-! ## Instructions -/

/-- The ranges read up to a point of a block describe the memory of a machine there.  The
instructions `done` have run since the block was entered. -/
structure Tracks (f : Procedure) (b : BlockId) (done : List InstId) (p : Progress) (m : Memory) :
    Prop where
  slots : p.ranges.Covers m.slots
  registers : ∀ r n, m.regs r = some (.int n) → .fin n ∈ p.ranges.rangeOf r
  declared : ∀ v n, m.slots v = some n → f.hasVariable v = true
  made : ∀ r x, m.regs r = some x →
    r ∈ done ∧ f.hasVariable r = false ∧ f.isCompare r = x.isFlag
  outcomes : ∀ c o, p.outcomes[c]? = some o → f.isCompare c = true
  /-- A load for the deciding comparison still equals its slot. -/
  loaded : ∀ r slot n, m.regs r = some (.int n) → f.op r = .ok (.load slot) →
    r ∈ f.deciders b → m.slots slot = some n
  /-- The outcome that the deciding comparison had covers the slots. -/
  decided : ∀ c holds, m.regs c = some (.flag holds) → c ∈ f.deciders b → ∃ o t,
    p.outcomes[c]? = some o ∧ (if holds then o.onTrue else o.onFalse) = some t ∧
      t.Covers m.slots

namespace Tracks

variable {done : List InstId} {p : Progress} {m : Memory} {id : InstId}

/-- At the entry of a block there are no registers. -/
theorem enter {s : Ranges} (covers : s.Covers m.slots)
    (declared : ∀ v n, m.slots v = some n → f.hasVariable v = true) :
    Tracks f b [] ⟨s, ∅⟩ m.forgetRegs where
  slots := covers
  registers r n made := by cases made
  declared := declared
  made r x made := by cases made
  outcomes c o found := by simp at found
  loaded r slot n made := by cases made
  decided c holds made := by cases made

theorem operand_mem (tracks : Tracks f b done p m) {o : Operand} {n : Int}
    (read : m.read? f o = some n) (inside : n ∈ w) : .fin n ∈ p.ranges.operand w o := by
  cases o with
  | const k =>
      cases read
      exact Interval.fin_mem_const inside
  | value id =>
      rcases Memory.read?_value read with ⟨-, content⟩ | ⟨-, made⟩
      · exact tracks.slots id n content
      · exact tracks.registers id n made

/-- The integer that an operand reads is still in the slot that it was loaded from. -/
theorem loaded_operand (tracks : Tracks f b done p m) {o : Operand} {n : Int}
    (read : m.read? f o = some n) {r slot : InstId} (isValue : o = .value r)
    (loads : f.op r = .ok (.load slot)) (decides : r ∈ f.deciders b) :
    m.slots slot = some n := by
  subst isValue
  rcases Memory.read?_value read with ⟨isVariable, -⟩ | ⟨-, made⟩
  · rw [Procedure.hasVariable_iff, loads] at isVariable
    cases isVariable
  · exact tracks.loaded r slot n made loads decides

theorem made_append (tracks : Tracks f b done p m) {r : InstId} {x : Register}
    (made : m.regs r = some x) :
    r ∈ done ++ [id] ∧ f.hasVariable r = false ∧ f.isCompare r = x.isFlag := by
  obtain ⟨before, kind⟩ := tracks.made r x made
  exact ⟨List.mem_append_left _ before, kind⟩

/-- An instruction that changes nothing. -/
theorem skip (tracks : Tracks f b done p m) : Tracks f b (done ++ [id]) p m where
  slots := tracks.slots
  registers := tracks.registers
  declared := tracks.declared
  made _ _ made := tracks.made_append made
  outcomes := tracks.outcomes
  loaded := tracks.loaded
  decided := tracks.decided

/-- An instruction that writes a slot, before which no decider has run. -/
theorem setSlot (tracks : Tracks f b done p m) {slot : InstId} {n : Int} {a : Interval}
    (isVariable : f.hasVariable slot = true) (member : .fin n ∈ a)
    (undecided : ∀ r ∈ done, r ∉ f.deciders b) :
    Tracks f b (done ++ [id]) ⟨p.ranges.insert slot a, p.outcomes⟩ (m.setSlot slot n) where
  slots v k content := by
    rcases Memory.update_eq_some content with ⟨rfl, rfl⟩ | ⟨other, content⟩
    · rwa [rangeOf_insert_self]
    · rw [rangeOf_insert_of_ne other]
      exact tracks.slots v k content
  registers r k made := by
    have other : r ≠ slot := by
      rintro rfl
      rw [(tracks.made r _ made).2.1] at isVariable
      cases isVariable
    rw [rangeOf_insert_of_ne other]
    exact tracks.registers r k made
  declared v k content := by
    rcases Memory.update_eq_some content with ⟨rfl, rfl⟩ | ⟨-, content⟩
    · exact isVariable
    · exact tracks.declared v k content
  made _ _ made := tracks.made_append made
  outcomes := tracks.outcomes
  loaded r slot k made _ decides := absurd decides (undecided r (tracks.made r _ made).1)
  decided c holds made decides := absurd decides (undecided c (tracks.made c _ made).1)

/-- An instruction that makes an integer. -/
theorem setInt (tracks : Tracks f b done p m) {n : Int} {a : Interval}
    (notVariable : f.hasVariable id = false) (notCompare : f.isCompare id = false)
    (member : .fin n ∈ a) (loads : ∀ slot, f.op id = .ok (.load slot) → m.slots slot = some n) :
    Tracks f b (done ++ [id]) ⟨p.ranges.insert id a, p.outcomes⟩ (m.setReg id (.int n)) where
  slots v k content := by
    have other : v ≠ id := by
      rintro rfl
      rw [tracks.declared v k content] at notVariable
      cases notVariable
    rw [rangeOf_insert_of_ne other]
    exact tracks.slots v k content
  registers r k made := by
    rcases Memory.update_eq_some made with ⟨rfl, same⟩ | ⟨other, made⟩
    · cases same
      rwa [rangeOf_insert_self]
    · rw [rangeOf_insert_of_ne other]
      exact tracks.registers r k made
  declared := tracks.declared
  made r x made := by
    rcases Memory.update_eq_some made with ⟨rfl, rfl⟩ | ⟨-, made⟩
    · exact ⟨by simp, notVariable, notCompare⟩
    · exact tracks.made_append made
  outcomes := tracks.outcomes
  loaded r slot k made isLoad decides := by
    rcases Memory.update_eq_some made with ⟨rfl, same⟩ | ⟨-, made⟩
    · cases same
      exact loads slot isLoad
    · exact tracks.loaded r slot k made isLoad decides
  decided c holds made decides := by
    rcases Memory.update_eq_some made with ⟨-, same⟩ | ⟨-, made⟩
    · cases same
    · exact tracks.decided c holds made decides

/-- A comparison, whose outcome matters if it is the deciding one. -/
theorem setFlag (tracks : Tracks f b done p m) {holds : Bool} {o : Outcomes}
    (notVariable : f.hasVariable id = false) (isCompare : f.isCompare id = true)
    (outcome : id ∈ f.deciders b → ∃ t, (if holds then o.onTrue else o.onFalse) = some t ∧
      t.Covers m.slots) :
    Tracks f b (done ++ [id]) ⟨p.ranges, p.outcomes.insert id o⟩
      (m.setReg id (.flag holds)) where
  slots := tracks.slots
  registers r k made := by
    rcases Memory.update_eq_some made with ⟨-, same⟩ | ⟨-, made⟩
    · cases same
    · exact tracks.registers r k made
  declared := tracks.declared
  made r x made := by
    rcases Memory.update_eq_some made with ⟨rfl, rfl⟩ | ⟨-, made⟩
    · exact ⟨by simp, notVariable, isCompare⟩
    · exact tracks.made_append made
  outcomes c o' found := by
    rw [Std.ExtTreeMap.getElem?_insert] at found
    split at found
    next same => rwa [← Nat.compare_eq_eq.mp same]
    next => exact tracks.outcomes c o' found
  loaded r slot k made isLoad decides := by
    rcases Memory.update_eq_some made with ⟨-, same⟩ | ⟨-, made⟩
    · cases same
    · exact tracks.loaded r slot k made isLoad decides
  decided c holds' made decides := by
    rcases Memory.update_eq_some made with ⟨rfl, same⟩ | ⟨other, made⟩
    · cases same
      obtain ⟨t, taken, covers⟩ := outcome decides
      exact ⟨o, t, Std.ExtTreeMap.getElem?_insert_self, taken, covers⟩
    · obtain ⟨o', t, found, taken, covers⟩ := tracks.decided c holds' made decides
      refine ⟨o', t, ?_, taken, covers⟩
      rw [Std.ExtTreeMap.getElem?_insert, if_neg (Nat.compare_eq_eq.not.mpr (Ne.symm other))]
      exact found

/-- In a steady procedure, no decider has run before an instruction that writes a slot. -/
theorem undecided (steady : f.Steady) {rest : List InstId}
    (here : f.instsOf b = .ok (done ++ id :: rest)) (writes : f.writes id = true) :
    ∀ r ∈ done, r ∉ f.deciders b := by
  intro r before decides
  rw [steady.writes_eq_false here before decides] at writes
  cases writes

/-- The comparison of a block runs: the outcome that it had covers the slots if it decides. -/
theorem compare (tracks : Tracks f b done p m) {pred : Predicate} {lhs rhs : Operand} {x y : Int}
    {o : Outcomes} (compares : f.op id = .ok (.compare pred lhs rhs))
    (left : m.read? f lhs = some x) (right : m.read? f rhs = some y) (hx : x ∈ w) (hy : y ∈ w)
    (onTrue : assume w f p.ranges pred lhs rhs = .ok o.onTrue)
    (onFalse : assume w f p.ranges pred.inverse lhs rhs = .ok o.onFalse)
    (decides : id ∈ f.deciders b) :
    ∃ t, (if decide (pred.relation.Holds x y) then o.onTrue else o.onFalse) = some t ∧
      t.Covers m.slots := by
  have leftLoaded : ∀ r slot, lhs = .value r → f.op r = .ok (.load slot) →
      m.slots slot = some x := by
    intro r slot isValue loads
    exact tracks.loaded_operand left isValue loads
      (Procedure.load_mem_deciders decides compares (.inl isValue) loads)
  have rightLoaded : ∀ r slot, rhs = .value r → f.op r = .ok (.load slot) →
      m.slots slot = some y := by
    intro r slot isValue loads
    exact tracks.loaded_operand right isValue loads
      (Procedure.load_mem_deciders decides compares (.inr isValue) loads)
  have hl := tracks.operand_mem left hx
  have hr := tracks.operand_mem right hy
  by_cases holds : pred.relation.Holds x y
  · rw [decide_eq_true holds]
    exact tracks.slots.assume tracks.declared hl hr holds hx hy leftLoaded rightLoaded onTrue
  · rw [decide_eq_false holds]
    have opposite : pred.inverse.relation.Holds x y := by
      rw [Predicate.relation_inverse]
      exact (Relation.holds_negate_iff _).mpr holds
    exact tracks.slots.assume tracks.declared hl hr opposite hx hy leftLoaded rightLoaded onFalse

/-- One instruction keeps the ranges and the machine together. -/
theorem runs {d : Draft} (built : d.build = .ok f) (steady : f.Steady)
    (tracks : Tracks f b done p m) {rest : List InstId} {handled : List Int} {m' : Memory}
    {p' : Progress} (here : f.instsOf b = .ok (done ++ id :: rest))
    (ran : Machine.Runs f m id handled m') (admitted : ∀ v ∈ handled, w.Admits v)
    (read : step w f p id = .ok p') : Tracks f b (done ++ [id]) p' m' := by
  obtain ⟨op, found, read⟩ := bind_eq_ok_iff.mp read
  cases ran with
  | alloca isOp =>
      rw [isOp] at found
      cases found
      cases pure_eq_ok_iff.mp read
      exact tracks.setSlot (Procedure.hasVariable_iff.mpr isOp) Interval.fin_mem_top
        (undecided steady here (by simp [Procedure.writes, isOp]))
  | load isOp content =>
      rw [isOp] at found
      cases found
      cases pure_eq_ok_iff.mp read
      refine tracks.setInt (Procedure.hasVariable_eq_false isOp (by simp))
        (by simp [Procedure.isCompare, isOp]) (tracks.slots _ _ content) fun slot loads => ?_
      rw [isOp] at loads
      cases loads
      exact content
  | store isOp value =>
      rw [isOp] at found
      cases found
      cases pure_eq_ok_iff.mp read
      exact tracks.setSlot (Procedure.hasVariable_slot built isOp rfl)
        (tracks.operand_mem value (admitted _ List.mem_cons_self).1)
        (undecided steady here (by simp [Procedure.writes, isOp]))
  | @binary op lhs rhs x y z isOp left right result =>
      rw [isOp] at found
      cases found
      obtain ⟨a, computed, read⟩ := bind_eq_ok_iff.mp read
      cases pure_eq_ok_iff.mp read
      have hx : w.Admits x := admitted x (by simp)
      have hy : w.Admits y := admitted y (by simp)
      have hz : w.Admits z := admitted z (by simp)
      have member := binary_mem (tracks.operand_mem left hx.1) (tracks.operand_mem right hy.1)
        hx hy hz result computed
      refine tracks.setInt (Procedure.hasVariable_eq_false isOp (by simp))
        (by simp [Procedure.isCompare, isOp]) member fun slot loads => ?_
      rw [isOp] at loads
      cases loads
  | @compare pred lhs rhs x y isOp left right =>
      rw [isOp] at found
      cases found
      obtain ⟨onTrue, assumed, read⟩ := bind_eq_ok_iff.mp read
      obtain ⟨onFalse, assumed', read⟩ := bind_eq_ok_iff.mp read
      cases pure_eq_ok_iff.mp read
      refine tracks.setFlag (Procedure.hasVariable_eq_false isOp (by simp))
        (by simp [Procedure.isCompare, isOp]) fun decides => ?_
      exact tracks.compare isOp left right (admitted x (by simp)).1 (admitted y (by simp)).1
        assumed assumed' decides
  | branch isOp | jump isOp | other isOp =>
      rw [isOp] at found
      cases found
      cases pure_eq_ok_iff.mp read
      exact tracks.skip

end Tracks

/-! ## Blocks -/

/-- What a block that was read to its end passes on.  `after` are the ranges of its variables. -/
def Progress.flow (p : Progress) (after : Ranges) : Option Operation → Flow Ranges
  | some (.branch (.const n) onTrue onFalse) =>
    .split after [(if n ≠ 0 then onTrue else onFalse, after)]
  | some (.branch (.value c) onTrue onFalse) =>
    match p.outcomes[c]? with
    | some o => .split after (o.edges onTrue onFalse)
    | none => .uniform after
  | _ => .uniform after

theorem through_eq_ok {s : Ranges} {flow : Flow Ranges} (carried : through w f b s = .ok flow) :
    ∃ ids p after leaving, f.instsOf b = .ok ids ∧ ids.foldlM (step w f) ⟨s, ∅⟩ = .ok p ∧
      eraseRegisters f p.ranges = .ok after ∧ f.terminator b = .ok leaving ∧
      flow = p.flow after leaving := by
  obtain ⟨ids, found, carried⟩ := bind_eq_ok_iff.mp carried
  obtain ⟨p, read, carried⟩ := bind_eq_ok_iff.mp carried
  obtain ⟨after, erased, carried⟩ := bind_eq_ok_iff.mp carried
  obtain ⟨leaving, leaves, carried⟩ := bind_eq_ok_iff.mp carried
  refine ⟨ids, p, after, leaving, found, read, erased, leaves, ?_⟩
  cases leaving with
  | none => exact (pure_eq_ok_iff.mp carried).symm
  | some op =>
      cases op with
      | branch cond onTrue onFalse =>
          cases cond with
          | const n => exact (pure_eq_ok_iff.mp carried).symm
          | value c =>
              cases there : p.outcomes[c]? with
              | some o =>
                  simp only [there] at carried
                  simp only [Progress.flow, there]
                  exact (pure_eq_ok_iff.mp carried).symm
              | none =>
                  simp only [there] at carried
                  simp only [Progress.flow, there]
                  exact (pure_eq_ok_iff.mp carried).symm
      | _ => exact (pure_eq_ok_iff.mp carried).symm

theorem Progress.state_flow (p : Progress) (after : Ranges) (leaving : Option Operation) :
    (p.flow after leaving).state = after := by
  unfold Progress.flow
  split
  · rfl
  · split <;> rfl
  · rfl

end Ranges

end FlowGraph
