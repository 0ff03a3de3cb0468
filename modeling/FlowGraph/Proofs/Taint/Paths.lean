import FlowGraph.Demo.Sample
import FlowGraph.Proofs.Solver.Routes
import FlowGraph.Proofs.Solver.Termination
import FlowGraph.Proofs.Taint.Transfer

/-!
# Taint is exact on paths

A variable is tainted at a block exactly if it is tainted along some path from the entry, where each
path is followed on its own (`solve_exact`).  This holds with loops, where there are infinitely many
paths.

A tainted value after an instruction has one cause: it is tainted whatever was tainted before, or
because of one value that was (`Carries.cause`).  Causes chain through a block, so the problem is
pointwise.

Runs end because a set of values of a procedure can only grow until it has all of them.
-/

namespace FlowGraph

namespace TaintSet

variable {source : String} {f : Procedure} {id : InstId} {t t' u u' : TaintSet}

/-! ## Blocks end normally -/

/-- All tainted values are there. -/
def Inside (f : Procedure) (t : TaintSet) : Prop := ∀ v ∈ t, v < f.numInsts

theorem step_inside (closed : f.Closed) (inside : t.Inside f)
    (stepped : step source f t id = .ok t') : t'.Inside f := by
  obtain ⟨i, found, members⟩ := mem_step_iff stepped
  have isOp : f.op id = .ok i.op := bind_eq_ok_iff.mpr ⟨i, found, rfl⟩
  have here : id < f.numInsts := Procedure.lt_of_op isOp
  have marked : ∀ {v}, Marked source id i t v → v < f.numInsts := by
    rintro v (before | ⟨rfl, -⟩)
    · exact inside v before
    · exact here
  intro v member
  have carried := (members v).mp member
  cases op : i.op with
  | load slot =>
      simp only [Carries, op] at carried
      rcases carried with before | ⟨rfl, -⟩
      · exact marked before
      · exact here
  | binary o lhs rhs =>
      simp only [Carries, op] at carried
      rcases carried with before | ⟨rfl, -⟩
      · exact marked before
      · exact here
  | store value slot =>
      simp only [Carries, op] at carried
      rcases carried with ⟨-, before⟩ | ⟨rfl, -⟩
      · exact marked before
      · rw [op] at isOp
        exact Procedure.lt_of_hasVariable (closed.slots id _ v isOp rfl)
  | _ =>
      simp only [Carries, op] at carried
      exact marked carried

theorem step_returns (closed : f.Closed) (here : id < f.numInsts) (inside : t.Inside f) :
    ∃ t', step source f t id = .ok t' ∧ t'.Inside f := by
  obtain ⟨i, found⟩ := Procedure.inst_eq_ok_iff.mpr here
  suffices returns : ∃ t', step source f t id = .ok t' by
    obtain ⟨t', stepped⟩ := returns
    exact ⟨t', stepped, step_inside closed inside stepped⟩
  have isOp : f.op id = .ok i.op := bind_eq_ok_iff.mpr ⟨i, found, rfl⟩
  simp only [step, found, bind, Except.bind]
  generalize (if i.name = source then t.insert id else t) = t₁
  cases op : i.op with
  | store value slot =>
      rw [op] at isOp
      have there := Procedure.lt_of_hasVariable (closed.slots id _ slot isOp rfl)
      obtain ⟨name, named⟩ := Procedure.valueName_of_lt there
      simp only [named]
      split
      next => exact ⟨_, rfl⟩
      next => split <;> exact ⟨_, rfl⟩
  | _ => exact ⟨_, rfl⟩

theorem through_returns (closed : f.Closed) {b : BlockId} (here : b < f.numBlocks)
    (inside : t.Inside f) : ∃ t', through source f b t = .ok t' ∧ t'.Inside f := by
  obtain ⟨ids, found, there⟩ := closed.insts b here
  have steps : ∀ t, ∀ id ∈ ids, t.Inside f → ∃ t', step source f t id = .ok t' ∧ t'.Inside f :=
    fun t id member inside => step_returns closed (there id member) inside
  obtain ⟨t₁, stepped, inside₁⟩ := foldlM_returns steps inside
  have checked : f.checkInsts t₁.toList = .ok () :=
    Procedure.checkInsts_of_lt fun v member => inside₁ v (Std.ExtTreeSet.mem_toList.mp member)
  have carried : through source f b t = .ok (t₁.filter f.hasVariable) :=
    bind_eq_ok_iff.mpr ⟨ids, found, bind_eq_ok_iff.mpr ⟨t₁, stepped,
      bind_eq_ok_iff.mpr ⟨(), checked, rfl⟩⟩⟩
  obtain ⟨_, _, _, _, members⟩ := through_eq_ok carried
  exact ⟨_, carried, fun v member => Procedure.lt_of_hasVariable ((members v).mp member).2⟩

/-! ## Causes -/

theorem Marked.cause {i : Instruction} {v : InstId} (marked : Marked source id i t v) :
    (∀ u, Marked source id i u v) ∨ ∃ c ∈ t, ∀ u : TaintSet, c ∈ u → Marked source id i u v := by
  rcases marked with before | named
  · exact .inr ⟨v, before, fun u => .inl⟩
  · exact .inl fun u => .inr named

/-- A value tainted after an instruction has one cause before it, if any. -/
theorem Carries.cause {i : Instruction} {v : InstId} (carried : Carries source f id i t v) :
    (∀ u, Carries source f id i u v) ∨
      ∃ c ∈ t, ∀ u : TaintSet, c ∈ u → Carries source f id i u v := by
  -- whatever is marked before, the instruction does the same with it
  have lift : ∀ {w}, Marked source id i t w →
      (∀ u, Marked source id i u w → Carries source f id i u v) →
      (∀ u, Carries source f id i u v) ∨
        ∃ c ∈ t, ∀ u : TaintSet, c ∈ u → Carries source f id i u v := by
    intro w marked onward
    rcases marked.cause with always | ⟨c, member, because⟩
    · exact .inl fun u => onward u (always u)
    · exact .inr ⟨c, member, fun u there => onward u (because u there)⟩
  cases op : i.op with
  | load slot =>
      simp only [Carries, op] at carried lift ⊢
      rcases carried with before | ⟨rfl, before⟩
      · exact lift before fun u => .inl
      · exact lift before fun u marked => .inr ⟨rfl, marked⟩
  | binary o lhs rhs =>
      simp only [Carries, op] at carried lift ⊢
      rcases carried with before | ⟨rfl, r, side, before⟩
      · exact lift before fun u => .inl
      · exact lift before fun u marked => .inr ⟨rfl, r, side, marked⟩
  | store value slot =>
      simp only [Carries, op] at carried lift ⊢
      rcases carried with ⟨other, before⟩ | ⟨rfl, ⟨r, isValue, before⟩ | ⟨isSource, before⟩⟩
      · exact lift before fun u marked => .inl ⟨other, marked⟩
      · exact lift before fun u marked => .inr ⟨rfl, .inl ⟨r, isValue, marked⟩⟩
      · exact lift before fun u marked => .inr ⟨rfl, .inr ⟨isSource, marked⟩⟩
  | _ =>
      simp only [Carries, op] at carried lift ⊢
      exact lift carried fun u marked => marked

theorem step_cause {v : InstId} (stepped : step source f t id = .ok t') (member : v ∈ t') :
    (∀ u u', step source f u id = .ok u' → v ∈ u') ∨
      ∃ c ∈ t, ∀ u u', c ∈ u → step source f u id = .ok u' → v ∈ u' := by
  obtain ⟨i, found, members⟩ := mem_step_iff stepped
  have carries : ∀ {u u'}, step source f u id = .ok u' → Carries source f id i u v → v ∈ u' := by
    intro u u' stepped' carried
    obtain ⟨i', found', members'⟩ := mem_step_iff stepped'
    rw [found] at found'
    cases found'
    exact (members' v).mpr carried
  rcases ((members v).mp member).cause with always | ⟨c, before, because⟩
  · exact .inl fun u u' stepped' => carries stepped' (always u)
  · exact .inr ⟨c, before, fun u u' there stepped' => carries stepped' (because u there)⟩

/-- Causes chain: the cause of a value after some instructions is found from the last one back. -/
theorem steps_cause {ids : List InstId} {v : InstId}
    (stepped : ids.foldlM (step source f) t = .ok t') (member : v ∈ t') :
    (∀ u u', ids.foldlM (step source f) u = .ok u' → v ∈ u') ∨
      ∃ c ∈ t, ∀ u u', c ∈ u → ids.foldlM (step source f) u = .ok u' → v ∈ u' := by
  induction ids generalizing t with
  | nil =>
      cases stepped
      refine .inr ⟨v, member, fun u u' there folded => ?_⟩
      cases folded
      exact there
  | cons id rest ih =>
      simp only [List.foldlM_cons, bind_eq_ok_iff] at stepped ⊢
      obtain ⟨t₁, first, stepped⟩ := stepped
      rcases ih stepped with always | ⟨c₁, middle, because₁⟩
      · refine .inl ?_
        rintro u u' ⟨u₁, -, folded⟩
        exact always u₁ u' folded
      rcases step_cause first middle with always | ⟨c, before, because⟩
      · refine .inl ?_
        rintro u u' ⟨u₁, first', folded⟩
        exact because₁ u₁ u' (always u u₁ first') folded
      · refine .inr ⟨c, before, ?_⟩
        rintro u u' there ⟨u₁, first', folded⟩
        exact because₁ u₁ u' (because u u₁ there first') folded

theorem through_cause {b : BlockId} {v : InstId} (carried : through source f b t = .ok t')
    (member : v ∈ t') :
    (∀ u u', through source f b u = .ok u' → v ∈ u') ∨
      ∃ c ∈ t, ∀ u u', c ∈ u → through source f b u = .ok u' → v ∈ u' := by
  obtain ⟨ids, t₁, found, stepped, members⟩ := through_eq_ok carried
  obtain ⟨tainted, isVariable⟩ := (members v).mp member
  have onward : ∀ {u u'}, through source f b u = .ok u' →
      (∀ u₁, ids.foldlM (step source f) u = .ok u₁ → v ∈ u₁) → v ∈ u' := by
    intro u u' carried' tainted'
    obtain ⟨ids', u₁, found', stepped', members'⟩ := through_eq_ok carried'
    rw [found] at found'
    cases found'
    exact (members' v).mpr ⟨tainted' u₁ stepped', isVariable⟩
  rcases steps_cause stepped tainted with always | ⟨c, before, because⟩
  · exact .inl fun u u' carried' => onward carried' (always u)
  · exact .inr ⟨c, before, fun u u' there carried' => onward carried' fun u₁ => because u u₁ there⟩

/-! ## The analysis -/

theorem transfer_of_through {settings : Settings} {b : BlockId}
    (carried : through settings.taintSource f b t = .ok t') :
    (analysis settings).transfer f b t = .ok (.uniform t') :=
  bind_eq_ok_iff.mpr ⟨t', carried, rfl⟩

/-- A property of tainted values that crossing a block keeps. -/
theorem preserves_of_through (closed : f.Closed) (settings : Settings) {P : InstId → Prop}
    (across : ∀ b t t', b < f.numBlocks → (∀ v ∈ t, P v) →
      through settings.taintSource f b t = .ok t' → ∀ v ∈ t', P v) :
    (analysis settings).Preserves f (fun b t => b < f.numBlocks ∧ ∀ v ∈ t, P v)
      (fun _ t => ∀ v ∈ t, P v) := by
  refine Analysis.preserves_of_states closed ?_ ?_ ?_ ?_
  · intro v member
    simp [analysis] at member
  · intro x y left right v member
    exact (Std.ExtTreeSet.mem_union_iff.mp member).elim (left v) (right v)
  · intro b t flow here good carried
    obtain ⟨t', through, rfl⟩ := transfer_eq_ok carried
    exact across b t t' here good through
  · intro b t state edges here good carried
    obtain ⟨t', -, split⟩ := transfer_eq_ok carried
    cases split

theorem through_inside (closed : f.Closed) {b : BlockId} (here : b < f.numBlocks)
    (inside : t.Inside f) (carried : through source f b t = .ok t') : t'.Inside f := by
  obtain ⟨t'', carried', inside'⟩ := through_returns closed here inside
  rw [carried] at carried'
  cases carried'
  exact inside'

theorem analysis_preserves (closed : f.Closed) (settings : Settings) :
    (analysis settings).Preserves f (fun b t => b < f.numBlocks ∧ t.Inside f)
      (fun _ t => t.Inside f) :=
  preserves_of_through closed settings fun _ _ _ => through_inside closed

/-- All tainted values are variables. -/
def OnVariables (f : Procedure) (t : TaintSet) : Prop := ∀ v ∈ t, f.hasVariable v = true

theorem OnVariables.inside (only : t.OnVariables f) : t.Inside f :=
  fun v member => Procedure.lt_of_hasVariable (only v member)

theorem through_onVariables {b : BlockId} (carried : through source f b t = .ok t') :
    t'.OnVariables f := by
  obtain ⟨_, _, -, -, members⟩ := through_eq_ok carried
  exact fun v member => ((members v).mp member).2

/-- Between blocks no register is tainted. -/
theorem analysis_preserves_variables (closed : f.Closed) (settings : Settings) :
    (analysis settings).Preserves f (fun b t => b < f.numBlocks ∧ t.OnVariables f)
      (fun _ t => t.OnVariables f) :=
  preserves_of_through closed settings fun _ _ _ _ _ => through_onVariables

theorem analysis_returns (closed : f.Closed) (settings : Settings) {b : BlockId}
    (here : b < f.numBlocks) (inside : t.Inside f) :
    ∃ flow, (analysis settings).transfer f b t = .ok flow := by
  obtain ⟨t', carried, -⟩ := through_returns closed here inside
  exact ⟨_, transfer_of_through carried⟩

theorem analysis_pointwise (closed : f.Closed) (settings : Settings) :
    (analysis settings).Pointwise f (fun t => t.Inside f) (fun t v => v ∈ t) where
  keeps := analysis_preserves closed settings
  returns _ _ here inside := analysis_returns closed settings here inside
  uniform b t flow carried := by
    obtain ⟨t', -, rfl⟩ := transfer_eq_ok carried
    rfl
  combine x y v := Std.ExtTreeSet.mem_union_iff
  cause b s flow v _ carried member := by
    obtain ⟨t', across, rfl⟩ := transfer_eq_ok carried
    rcases through_cause across member with always | ⟨c, before, because⟩
    · refine .inl fun u flow' _ carried' => ?_
      obtain ⟨u', across', rfl⟩ := transfer_eq_ok carried'
      exact always u u' across'
    · refine .inr ⟨c, before, fun u flow' _ there carried' => ?_⟩
      obtain ⟨u', across', rfl⟩ := transfer_eq_ok carried'
      exact because u u' there across'

/-! ## Runs end -/

/-- The number of values that are not tainted. -/
def untainted (f : Procedure) (t : TaintSet) : Nat :=
  ((Finset.range f.numInsts).filter (· ∉ t)).card

theorem analysis_bounded (closed : f.Closed) (settings : Settings) :
    (analysis settings).Bounded f (fun t => t.Inside f) (untainted f) f.numInsts where
  keeps := analysis_preserves closed settings
  returns _ _ here inside := analysis_returns closed settings here inside
  room_le t _ := by
    have fewer := Finset.card_filter_le (Finset.range f.numInsts) (· ∉ t)
    rwa [Finset.card_range] at fewer
  shrinks x y _ inside changed := by
    -- a change means that some value of the second set was missing in the first
    have new : ∃ v ∈ y, v ∉ x := by
      by_contra none
      push Not at none
      exact changed (below_iff.mpr none)
    obtain ⟨v, there, missing⟩ := new
    refine Finset.card_lt_card
      (Finset.ssubset_iff_subset_ne.mpr ⟨fun w member => ?_, fun same => ?_⟩)
    · obtain ⟨range, clean⟩ := Finset.mem_filter.mp member
      exact Finset.mem_filter.mpr ⟨range, fun old => clean (Std.ExtTreeSet.mem_union_of_left old)⟩
    · have member : v ∈ (Finset.range f.numInsts).filter (· ∉ x) :=
        Finset.mem_filter.mpr ⟨Finset.mem_range.mpr (inside v there), missing⟩
      rw [← same] at member
      exact (Finset.mem_filter.mp member).2 (Std.ExtTreeSet.mem_union_of_right there)

theorem analysis_drains (closed : f.Closed) (settings : Settings) :
    Worklist.Drains (analysis settings) f :=
  Worklist.drains_of_bounded closed (analysis_bounded closed settings)

/-! ## Exactness -/

/-- A solution says of every block exactly what the paths to it say, each followed on its own from
no tainted value. -/
structure ExactOnPaths (settings : Settings) (f : Procedure) (solution : Solution TaintSet) :
    Prop where
  entry_none : ∀ b, solution.entry? b = none ↔ ¬ f.Reachable b
  exit_none : ∀ b, solution.exit? b = none ↔ ¬ f.Reachable b
  /-- At the entry of a block, the blocks before it were followed. -/
  entry : ∀ b t v, solution.entry? b = some t →
    (v ∈ t ↔ ∃ before u, f.Path before b ∧ (analysis settings).along f before = .ok u ∧ v ∈ u)
  /-- At its exit, the block was followed too. -/
  exit : ∀ b t v, solution.exit? b = some t →
    (v ∈ t ↔ ∃ before u, f.Path before b ∧
      (analysis settings).along f (before ++ [b]) = .ok u ∧ v ∈ u)

/-- The solution is found, and it taints exactly what is tainted along some path. -/
theorem solve_exact {d : Draft} (built : d.build = .ok f) (settings : Settings) :
    ∃ solution visits, (∀ limit, visits ≤ limit →
        solve (analysis settings) f limit = .ok solution) ∧
      ExactOnPaths settings f solution := by
  have closed := Procedure.closed_of_build built
  obtain ⟨w, done, started, ran, drained, solved⟩ := (analysis_drains closed settings).solution
  refine ⟨done.tables.freeze f, done.visits, solved, ?_⟩
  have exact := (analysis_pointwise closed settings).exact closed started ran drained
  have isPath : ∀ before b, (analysis settings).Route f before b ↔ f.Path before b :=
    fun before b => Analysis.route_iff_path rfl
  have reached : ∀ b, (∃ before, (analysis settings).Route f before b) ↔ f.Reachable b :=
    fun b => exists_congr fun before => isPath before b
  refine ⟨fun b => ?_, fun b => ?_, fun b t v found => ?_, fun b t v found => ?_⟩
  · rw [← reached]
    exact exact.near_none b
  · rw [← reached]
    exact exact.far_none b
  · simp only [exact.near b t v found, isPath]
  · simp only [exact.far b t v found, isPath]

/-- With `i` as its source the loop sample taints `i` at the entry of its body, as the path there
tells. -/
theorem solve_exact_loop : ∃ f solution tainted, Sample.loopDraft.build = .ok f ∧
    (∃ limit, solve (analysis ⟨.full, "i", "retval"⟩) f limit = .ok solution) ∧
      solution.entry? 2 = some tainted ∧ 1 ∈ tainted := by
  have built : Sample.loopDraft.build = .ok Sample.loopDraft.layout := rfl
  obtain ⟨solution, visits, found, exact⟩ := solve_exact built ⟨.full, "i", "retval"⟩
  have path : Sample.loopDraft.layout.Path [0, 1] 2 := (Procedure.Path.step .entry rfl
    (List.mem_singleton.mpr rfl)).step rfl List.mem_cons_self
  cases atBody : solution.entry? 2 with
  | none => exact absurd ⟨_, path⟩ ((exact.entry_none 2).mp atBody)
  | some tainted =>
      refine ⟨_, solution, tainted, built, ⟨visits, found visits (le_refl _)⟩, atBody, ?_⟩
      have followed : ((analysis ⟨.full, "i", "retval"⟩).along Sample.loopDraft.layout
          [0, 1]).toOption.any (1 ∈ ·) = true := by decide +kernel
      obtain ⟨u, along, member⟩ := exists_ok_of_any followed
      exact (exact.entry 2 tainted 1 atBody).mpr
        ⟨[0, 1], u, path, along, of_decide_eq_true member⟩

end TaintSet

end FlowGraph
