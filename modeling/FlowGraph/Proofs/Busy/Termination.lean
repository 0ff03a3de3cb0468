import FlowGraph.Proofs.Busy.Transfer
import FlowGraph.Proofs.Solver.Termination

/-!
# Runs for busy expressions end

Only the expressions of the procedure are ever busy, and only its variables have any.  Meeting takes
expressions and variables away, so a state can change only as often as it has some to lose.

A variable counts even if no expression reads it: a meeting drops it, and that is a change.
-/

namespace FlowGraph

namespace BusyState

variable {f : Procedure} {b : BlockId} {id v : InstId} {e : String} {s t : BusyState}

/-! ## States of a procedure -/

/-- The expressions of a procedure. -/
def texts (f : Procedure) : Finset String :=
  ((List.range f.numInsts).filterMap (expr? f)).toFinset

theorem mem_texts (isExpr : expr? f id = some e) (inside : id < f.numInsts) : e ∈ texts f :=
  List.mem_toFinset.mpr (List.mem_filterMap.mpr ⟨id, List.mem_range.mpr inside, isExpr⟩)

/-- A map has variables of the procedure only, with expressions of the procedure. -/
def MapWithin (f : Procedure) (m : TextMap) : Prop :=
  ∀ v es, m[v]? = some es → f.hasVariable v = true ∧ ∀ e ∈ es, e ∈ texts f

/-- A state speaks of the procedure only. -/
structure Within (f : Procedure) (s : BusyState) : Prop where
  exprs : ∀ e ∈ s.exprs, e ∈ texts f
  byVar : MapWithin f s.byVar

theorem within_empty : Within f empty where
  exprs e member := by simp [empty] at member
  byVar v es found := by simp [empty] at found

theorem hasVariable_readsOf (closed : f.Closed) (reads : v ∈ readsOf f id) :
    f.hasVariable v = true := by
  unfold readsOf at reads
  split at reads
  next =>
    rcases List.mem_append.mp reads with left | right
    · exact hasVariable_loadedFrom? closed (Option.mem_toList.mp left)
    · exact hasVariable_loadedFrom? closed (Option.mem_toList.mp right)
  next => cases reads

theorem Within.kill (within : Within f s) (v : InstId) : Within f (s.kill v) where
  exprs e member := within.exprs e (mem_kill_iff.mp member).1
  byVar w es found := by
    rw [getElem?_kill] at found
    split at found
    next => cases found
    next => exact within.byVar w es found

theorem Within.gen (within : Within f s) {vars : List InstId} (isText : e ∈ texts f)
    (isVariable : ∀ v ∈ vars, f.hasVariable v = true) : Within f (s.gen e vars) where
  exprs e' member := by
    rcases mem_gen_iff.mp member with rfl | before
    · exact isText
    · exact within.exprs e' before
  byVar := by
    refine List.foldlRecOn vars _ within.byVar fun m before v member w es found => ?_
    rw [Std.ExtTreeMap.getElem?_insert] at found
    split at found
    next same =>
      cases Nat.compare_eq_eq.mp same
      cases found
      refine ⟨isVariable v member, fun e' there => ?_⟩
      rcases Std.ExtTreeSet.mem_insert.mp there with same | old
      · rwa [← Std.LawfulEqCmp.eq_of_compare same]
      · obtain ⟨es, atVar, old⟩ := mem_textsOf_iff.mp old
        exact (before v es atVar).2 e' old
    next => exact before w es found

theorem Within.effect (closed : f.Closed) (inside : id < f.numInsts) (within : Within f s) :
    Within f (effect f id s) := by
  unfold BusyState.effect
  split
  next e isExpr =>
    exact within.gen (mem_texts isExpr inside) fun v reads => hasVariable_readsOf closed reads
  next v _ _ => exact within.kill v
  next => exact within

theorem Within.through (closed : f.Closed) {ids : List InstId} (found : f.instsOf b = .ok ids)
    (within : Within f s) : Within f (ids.foldr (BusyState.effect f) s) := by
  refine List.foldrRecOn ids _ within fun s within id member => within.effect closed ?_
  obtain ⟨i, there, -⟩ := (closed.owner b ids found id).mp member
  exact Procedure.inst_eq_ok_iff.mp ⟨i, there⟩

theorem Within.meet (left : Within f s) : Within f (s.meet t) where
  exprs e member := left.exprs e (mem_meet_iff.mp member).1
  byVar v es found := by
    rw [getElem?_meet] at found
    obtain ⟨es', atVar, found⟩ := Option.bind_eq_some_iff.mp found
    obtain ⟨other, -, found⟩ := Option.bind_eq_some_iff.mp found
    obtain ⟨isVariable, isText⟩ := left.byVar v es' atVar
    split at found
    next => cases found
    next =>
      cases found
      exact ⟨isVariable, fun e member => isText e (Std.ExtTreeSet.mem_inter_iff.mp member).1⟩

/-! ## The analysis -/

theorem transfer_eq (closed : f.Closed) {ids : List InstId} (found : f.instsOf b = .ok ids) :
    analysis.transfer f b s = .ok (.uniform (ids.foldr (effect f) s)) :=
  bind_eq_ok_iff.mpr ⟨_, through_eq closed found, rfl⟩

/-- Crossing a block ends normally, with the effects of its instructions. -/
theorem transfer_returns (closed : f.Closed) (here : b < f.numBlocks) (s : BusyState) :
    ∃ ids, f.instsOf b = .ok ids ∧
      analysis.transfer f b s = .ok (.uniform (ids.foldr (effect f) s)) := by
  obtain ⟨ids, found, -⟩ := closed.insts b here
  exact ⟨ids, found, transfer_eq closed found⟩

/-- A property of states that the effects of a block and meetings keep. -/
theorem analysis_preserves (closed : f.Closed) {Good : BusyState → Prop} (start : Good empty)
    (meets : ∀ x y, Good x → Good y → Good (x.meet y))
    (effects : ∀ b ids s, f.instsOf b = .ok ids → Good s → Good (ids.foldr (effect f) s)) :
    analysis.Preserves f (fun b s => b < f.numBlocks ∧ Good s) (fun _ s => Good s) := by
  refine Analysis.preserves_of_states closed start meets ?_ ?_
  · intro b s flow here good carried
    obtain ⟨ids, found, carried'⟩ := transfer_returns closed here s
    rw [carried'] at carried
    cases carried
    exact effects b ids s found good
  · intro b s state edges here good carried
    obtain ⟨ids, found, carried'⟩ := transfer_returns closed here s
    rw [carried'] at carried
    cases carried

/-! ## The room of a state -/

/-- The number of expressions of a procedure in a set. -/
def count (f : Procedure) (es : TextSet) : Nat := ((texts f).filter (· ∈ es)).card

theorem count_le (es : TextSet) : count f es ≤ (texts f).card := Finset.card_filter_le _ _

theorem count_inter_le (es other : TextSet) : count f (es ∩ other) ≤ count f es := by
  refine Finset.card_le_card (Finset.monotone_filter_right _ fun e _ member => ?_)
  exact (Std.ExtTreeSet.mem_inter_iff.mp member).1

theorem count_inter_lt {es other : TextSet} (isText : ∀ e ∈ es, e ∈ texts f)
    (changed : es ∩ other ≠ es) : count f (es ∩ other) < count f es := by
  -- what changed is that some expression of the first set is gone
  have gone : ∃ e ∈ es, e ∉ other := by
    by_contra none
    push Not at none
    refine changed (Std.ExtTreeSet.ext_mem fun e => ?_)
    rw [Std.ExtTreeSet.mem_inter_iff]
    exact ⟨fun member => member.1, fun member => ⟨member, none e member⟩⟩
  obtain ⟨e, member, missing⟩ := gone
  refine Finset.card_lt_card (Finset.ssubset_iff_of_subset ?_ |>.mpr ⟨e, ?_, ?_⟩)
  · refine Finset.monotone_filter_right _ fun e _ member => ?_
    exact (Std.ExtTreeSet.mem_inter_iff.mp member).1
  · exact Finset.mem_filter.mpr ⟨isText e member, member⟩
  · intro there
    exact missing (Std.ExtTreeSet.mem_inter_iff.mp (Finset.mem_filter.mp there).2).2

/-- What a variable has to lose: its expressions, and then itself. -/
def weight (f : Procedure) : Option TextSet → Nat
  | none => 0
  | some es => count f es + 1

theorem weight_meet_le : weight f (s.meet t).byVar[v]? ≤ weight f s.byVar[v]? := by
  rw [getElem?_meet]
  cases s.byVar[v]? with
  | none => exact le_refl _
  | some es =>
      cases t.byVar[v]? with
      | none => exact Nat.zero_le _
      | some other =>
          simp only [Option.bind_some]
          split
          next => exact Nat.zero_le _
          next => exact Nat.succ_le_succ (count_inter_le es other)

theorem weight_meet_lt (within : Within f s) (changed : (s.meet t).byVar[v]? ≠ s.byVar[v]?) :
    weight f (s.meet t).byVar[v]? < weight f s.byVar[v]? := by
  rw [getElem?_meet] at changed ⊢
  cases found : s.byVar[v]? with
  | none =>
      rw [found] at changed
      exact absurd rfl changed
  | some es =>
      rw [found] at changed
      cases other : t.byVar[v]? with
      | none => exact Nat.succ_pos _
      | some other' =>
          rw [other] at changed
          simp only [Option.bind_some] at changed ⊢
          split
          next => exact Nat.succ_pos _
          next common =>
            rw [if_neg common] at changed
            exact Nat.succ_lt_succ (count_inter_lt (within.byVar v es found).2
              fun same => changed (by rw [same]))

/-- What a state has to lose. -/
def room (f : Procedure) (s : BusyState) : Nat :=
  count f s.exprs + ∑ v ∈ Finset.range f.numInsts, weight f s.byVar[v]?

theorem room_le (s : BusyState) :
    room f s ≤ (texts f).card + f.numInsts * ((texts f).card + 1) := by
  have each : ∀ v ∈ Finset.range f.numInsts, weight f s.byVar[v]? ≤ (texts f).card + 1 := by
    intro v _
    cases s.byVar[v]? with
    | none => exact Nat.zero_le _
    | some es => exact Nat.succ_le_succ (count_le es)
  have all := Finset.sum_le_card_nsmul _ _ _ each
  rw [Finset.card_range] at all
  exact Nat.add_le_add (count_le s.exprs) all

theorem room_meet_lt (within : Within f s) (changed : s.meet t ≠ s) :
    room f (s.meet t) < room f s := by
  by_cases same : (s.meet t).exprs = s.exprs
  · -- then the map changed, at a value of the procedure
    have elsewhere : ∃ v : InstId, (s.meet t).byVar[v]? ≠ s.byVar[v]? := by
      by_contra none
      push Not at none
      have sameMap : (s.meet t).byVar = s.byVar := Std.ExtTreeMap.ext_getElem? none
      refine changed ?_
      calc s.meet t = ⟨(s.meet t).exprs, (s.meet t).byVar⟩ := rfl
        _ = s := by rw [same, sameMap]
    obtain ⟨v, differs⟩ := elsewhere
    have inside : v < f.numInsts := by
      cases found : s.byVar[v]? with
      | none => exact absurd (by rw [getElem?_meet, found]; rfl) differs
      | some es => exact Procedure.lt_of_hasVariable (within.byVar v es found).1
    rw [room, room, same]
    refine Nat.add_lt_add_left (Finset.sum_lt_sum (fun v _ => weight_meet_le) ?_) _
    exact ⟨v, Finset.mem_range.mpr inside, weight_meet_lt within differs⟩
  · exact Nat.add_lt_add_of_lt_of_le (count_inter_lt within.exprs same)
      (Finset.sum_le_sum fun v _ => weight_meet_le)

/-! ## Runs end -/

theorem analysis_bounded (closed : f.Closed) : analysis.Bounded f (Within f) (room f)
    ((texts f).card + f.numInsts * ((texts f).card + 1)) where
  keeps := analysis_preserves closed within_empty (fun _ _ left _ => left.meet)
    fun _ _ _ found within => within.through closed found
  returns b s here _ := by
    obtain ⟨ids, -, carried⟩ := transfer_returns closed here s
    exact ⟨_, carried⟩
  room_le s _ := room_le s
  shrinks _ _ within _ changed := room_meet_lt within changed

theorem analysis_drains (closed : f.Closed) : Worklist.Drains analysis f :=
  Worklist.drains_of_bounded closed (analysis_bounded closed)

end BusyState

end FlowGraph
