import FlowGraph.Demo.Sample
import FlowGraph.Proofs.Trails.Termination

/-!
# Trails and taint agree

The values with trails are the tainted values, at both ends of every block (`taint_eq_trails`).  The
two runs differ in what counts as a change, so they visit the blocks in different orders and a
different number of times.  A step of one run is therefore not a step of the other.

What the solutions say is compared instead.  Both problems are exact on paths as far as tainted
values go, and along one path the two do the same (`along_tainted_iff`).
-/

namespace FlowGraph

namespace Trails

variable {settings : Settings} {f : Procedure} {b : BlockId}

/-! ## Along paths -/

/-- Along a path the values with trails are the tainted values. -/
theorem along_tainted_iff {path : List BlockId} {u : TaintSet} :
    (TaintSet.analysis settings).along f path = .ok u ↔
      ∃ t, (analysis settings).along f path = .ok t ∧ t.tainted = u := by
  induction path using List.reverseRecOn generalizing u with
  | nil =>
      have empty : (∅ : Trails).tainted = ∅ := by
        refine Std.ExtTreeSet.ext_mem fun v => ?_
        simp
      show Except.ok ∅ = .ok u ↔ ∃ t : Trails, Except.ok ∅ = .ok t ∧ t.tainted = u
      simp [empty]
  | append_singleton before b ih =>
      simp only [Analysis.along_append_eq_ok_iff, transfer_eq_ok_iff, ih]
      constructor
      · rintro ⟨_, flow, ⟨t, walked, rfl⟩, carried, rfl⟩
        obtain ⟨u, across, rfl⟩ := TaintSet.transfer_eq_ok carried
        obtain ⟨t', across', same⟩ := tainted_through_iff.mp across
        exact ⟨t', ⟨t, .uniform t', walked, ⟨t', across', rfl⟩, rfl⟩, same⟩
      · rintro ⟨_, ⟨t, _, walked, ⟨t', across, rfl⟩, rfl⟩, rfl⟩
        exact ⟨t.tainted, .uniform t'.tainted, ⟨t, walked, rfl⟩,
          TaintSet.transfer_of_through (tainted_through_iff.mpr ⟨t', across, rfl⟩), rfl⟩

theorem exists_mem_along_iff {path : List BlockId} {v : InstId} :
    (∃ u, (TaintSet.analysis settings).along f path = .ok u ∧ v ∈ u) ↔
      ∃ t, (analysis settings).along f path = .ok t ∧ v ∈ t := by
  simp only [along_tainted_iff]
  constructor
  · rintro ⟨_, ⟨t, walked, rfl⟩, member⟩
    exact ⟨t, walked, mem_tainted.mp member⟩
  · rintro ⟨t, walked, member⟩
    exact ⟨_, ⟨t, walked, rfl⟩, mem_tainted.mpr member⟩

/-- Both problems have the same routes. -/
theorem route_iff_route {before : List BlockId} :
    (TaintSet.analysis settings).Route f before b ↔ (analysis settings).Route f before b := by
  rw [Analysis.route_iff_path rfl, Analysis.route_iff_path rfl]

/-- As far as tainted values go, trails are a pointwise problem. -/
theorem analysis_pointwise (closed : f.Closed) (settings : Settings) :
    (analysis settings).Pointwise f (fun t => t.tainted.Inside f) (fun t v => v ∈ t) where
  keeps := analysis_preserves closed settings
  returns _ _ here inside := (analysis_returns closed settings here inside).imp fun _ => And.left
  uniform _ _ _ carried := analysis_uniform carried
  combine _ _ _ := mem_join_iff
  cause b s flow v _ carried member := by
    have taints : ∀ {t : Trails} {flow : Flow Trails},
        (analysis settings).transfer f b t = .ok flow →
          TaintSet.through settings.taintSource f b t.tainted = .ok flow.state.tainted := by
      intro t flow carried
      obtain ⟨t', across, rfl⟩ := transfer_eq_ok_iff.mp carried
      exact tainted_through_iff.mpr ⟨t', across, rfl⟩
    simp only [← mem_tainted] at member ⊢
    rcases TaintSet.through_cause (taints carried) member with always | ⟨c, before, because⟩
    · exact .inl fun t flow' _ carried' => always _ _ (taints carried')
    · exact .inr ⟨c, before, fun t flow' _ there carried' => because _ _ there (taints carried')⟩

/-! ## Solutions -/

/-- States that are there together and taint the same values agree. -/
theorem eq_map_tainted {x : Option TaintSet} {y : Option Trails} {Reached : Prop}
    {Tainted : InstId → Prop} (left : x = none ↔ ¬ Reached) (right : y = none ↔ ¬ Reached)
    (ofLeft : ∀ u v, x = some u → (v ∈ u ↔ Tainted v))
    (ofRight : ∀ t v, y = some t → (v ∈ t ↔ Tainted v)) : x = y.map tainted := by
  cases x with
  | none =>
      rw [right.mpr (left.mp rfl)]
      rfl
  | some u =>
      cases y with
      | none => cases left.mpr (right.mp rfl)
      | some t =>
          refine congrArg some (Std.ExtTreeSet.ext_mem fun v => ?_)
          rw [mem_tainted, ofLeft u v rfl, ofRight t v rfl]

/-- Tables that are exact for taint and for trails agree. -/
theorem exact_agree {x : Tables TaintSet} {y : Tables Trails}
    (taint : (TaintSet.analysis settings).Exact f (fun t v => v ∈ t) x)
    (trails : (analysis settings).Exact f (fun t v => v ∈ t) y) (b : BlockId) :
    x.nearAt .forward b = (y.nearAt .forward b).map tainted ∧
      x.farAt .forward b = (y.farAt .forward b).map tainted := by
  constructor
  · refine eq_map_tainted (taint.near_none b) ?_ (fun u v near => taint.near b u v near) ?_
    · simp only [route_iff_route]
      exact trails.near_none b
    · intro t v near
      simp only [route_iff_route, exists_and_left, exists_mem_along_iff]
      simpa only [exists_and_left] using trails.near b t v near
  · refine eq_map_tainted (taint.far_none b) ?_ (fun u v far => taint.far b u v far) ?_
    · simp only [route_iff_route]
      exact trails.far_none b
    · intro t v far
      simp only [route_iff_route, exists_and_left, exists_mem_along_iff]
      simpa only [exists_and_left] using trails.far b t v far

/-- On every built procedure without a cycle in reach, the runs for taint and for trails drain.
Whenever both have a solution, the values with trails are the tainted values at both ends of every
block, and the same blocks have states. -/
theorem taint_eq_trails {d : Draft} (built : d.build = .ok f) (settings : Settings) :
    (f.Acyclic → Worklist.Drains (TaintSet.analysis settings) f ∧
      Worklist.Drains (analysis settings) f) ∧
    ∀ limit limit' taint trails, solve (TaintSet.analysis settings) f limit = .ok taint →
      solve (analysis settings) f limit' = .ok trails → ∀ b,
        taint.entry? b = (trails.entry? b).map tainted ∧
          taint.exit? b = (trails.exit? b).map tainted := by
  have closed := Procedure.closed_of_build built
  refine ⟨fun acyclic => ⟨TaintSet.analysis_drains closed settings,
    analysis_drains closed acyclic settings⟩, fun limit limit' taint trails solved solved' b => ?_⟩
  obtain ⟨done, ran, same⟩ := bind_eq_ok_iff.mp solved
  obtain ⟨done', ran', same'⟩ := bind_eq_ok_iff.mp solved'
  cases pure_eq_ok_iff.mp same
  cases pure_eq_ok_iff.mp same'
  obtain ⟨w, started, visits, drained⟩ := Worklist.run_anyRun ran
  obtain ⟨w', started', visits', drained'⟩ := Worklist.run_anyRun ran'
  exact exact_agree
    ((TaintSet.analysis_pointwise closed settings).exact closed started visits drained)
    ((analysis_pointwise closed settings).exact closed started' visits' drained') b

/-- The straight sample has no cycle, so both runs drain.  At the exit of its entry block the
variable `x` is tainted in one solution and has trails in the other. -/
theorem taint_eq_trails_straight :
    (Worklist.Drains (TaintSet.analysis .default) Sample.straightDraft.layout ∧
      Worklist.Drains (analysis .default) Sample.straightDraft.layout) ∧
    ∃ limit taint trails,
      solve (TaintSet.analysis .default) Sample.straightDraft.layout limit = .ok taint ∧
      solve (analysis .default) Sample.straightDraft.layout limit = .ok trails ∧
      (∀ b, taint.entry? b = (trails.entry? b).map tainted ∧
        taint.exit? b = (trails.exit? b).map tainted) ∧
      (taint.exit? 0).any (3 ∈ ·) = true := by
  have built : Sample.straightDraft.build = .ok Sample.straightDraft.layout := rfl
  have acyclic : Sample.straightDraft.layout.Acyclic :=
    Procedure.acyclic_of_successors (by decide +kernel)
  obtain ⟨drain, agree⟩ := taint_eq_trails built .default
  have tainted : (solve (TaintSet.analysis .default) Sample.straightDraft.layout 9).toOption.any
      (fun taint => (taint.exit? 0).any (3 ∈ ·)) = true := by decide +kernel
  have found : (solve (analysis .default) Sample.straightDraft.layout 9).toOption.any
      (fun _ => true) = true := by decide +kernel
  obtain ⟨taint, solved, there⟩ := exists_ok_of_any tainted
  obtain ⟨trails, solved', -⟩ := exists_ok_of_any found
  exact ⟨drain acyclic, 9, taint, trails, solved, solved',
    agree 9 9 taint trails solved solved', there⟩

end Trails

end FlowGraph
