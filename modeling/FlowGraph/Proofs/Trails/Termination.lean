import FlowGraph.Proofs.Solver.Acyclic
import FlowGraph.Proofs.Taint.Paths
import FlowGraph.Proofs.Trails.Transfer

/-!
# Trails on acyclic graphs

Trails have no bound of their own: around a loop they grow with every visit.  Where no cycle can be
reached the run still ends, as every run does there (`analysis_drains`).

A block carries every state across whose tainted values are there, and these are the states of a
run.  This only hangs on the tainted values, so it comes from the taint analysis.
-/

namespace FlowGraph

namespace Trails

variable {settings : Settings} {source : String} {f : Procedure} {b : BlockId} {t t' : Trails}

theorem transfer_eq_ok_iff {flow : Flow Trails} :
    (analysis settings).transfer f b t = .ok flow ↔
      ∃ t', through settings.taintSource f b t = .ok t' ∧ .uniform t' = flow := by
  show (do return Flow.uniform (← through settings.taintSource f b t)) = .ok flow ↔ _
  simp only [bind_eq_ok_iff, pure_eq_ok_iff]

theorem analysis_uniform {flow : Flow Trails}
    (carried : (analysis settings).transfer f b t = .ok flow) : flow = .uniform flow.state := by
  obtain ⟨t', -, rfl⟩ := transfer_eq_ok_iff.mp carried
  rfl

theorem through_returns (closed : f.Closed) (here : b < f.numBlocks) (inside : t.tainted.Inside f) :
    ∃ t', through source f b t = .ok t' ∧ t'.tainted.Inside f := by
  obtain ⟨u, carried, inside'⟩ := TaintSet.through_returns closed here inside
  obtain ⟨t', carried', rfl⟩ := tainted_through_iff.mp carried
  exact ⟨t', carried', inside'⟩

theorem analysis_returns (closed : f.Closed) (settings : Settings) (here : b < f.numBlocks)
    (inside : t.tainted.Inside f) :
    ∃ flow, (analysis settings).transfer f b t = .ok flow ∧ flow.state.tainted.Inside f := by
  obtain ⟨t', carried, inside'⟩ := through_returns closed here inside
  exact ⟨.uniform t', transfer_eq_ok_iff.mpr ⟨t', carried, rfl⟩, inside'⟩

/-- A property of tainted values that crossing a block keeps without trails. -/
theorem preserves_of_through (closed : f.Closed) (settings : Settings) {P : InstId → Prop}
    (across : ∀ b t t', b < f.numBlocks → (∀ v ∈ t, P v) →
      TaintSet.through settings.taintSource f b t = .ok t' → ∀ v ∈ t', P v) :
    (analysis settings).Preserves f (fun b t => b < f.numBlocks ∧ ∀ v ∈ t.tainted, P v)
      (fun _ t => ∀ v ∈ t.tainted, P v) := by
  refine Analysis.preserves_of_states closed ?_ ?_ ?_ ?_
  · intro v member
    simp [analysis] at member
  · intro x y left right v member
    change v ∈ (join x y).tainted at member
    rw [tainted_join] at member
    exact (Std.ExtTreeSet.mem_union_iff.mp member).elim (left v) (right v)
  · intro b t flow here good carried
    obtain ⟨t', through, rfl⟩ := transfer_eq_ok_iff.mp carried
    exact across b _ _ here good (tainted_through_iff.mpr ⟨t', through, rfl⟩)
  · intro b t state edges here good carried
    cases analysis_uniform carried

theorem analysis_preserves (closed : f.Closed) (settings : Settings) :
    (analysis settings).Preserves f (fun b t => b < f.numBlocks ∧ t.tainted.Inside f)
      (fun _ t => t.tainted.Inside f) :=
  preserves_of_through closed settings fun _ _ _ => TaintSet.through_inside closed

/-- Between blocks no register has trails. -/
theorem analysis_preserves_variables (closed : f.Closed) (settings : Settings) :
    (analysis settings).Preserves f (fun b t => b < f.numBlocks ∧ t.tainted.OnVariables f)
      (fun _ t => t.tainted.OnVariables f) :=
  preserves_of_through closed settings fun _ _ _ _ _ => TaintSet.through_onVariables

theorem analysis_listsEdges (settings : Settings) (f : Procedure) :
    (analysis settings).ListsEdges f := by
  intro b t state edges here carried
  cases analysis_uniform carried

/-- Where no cycle can be reached from the entry, the run for trails drains. -/
theorem analysis_drains (closed : f.Closed) (acyclic : f.Acyclic) (settings : Settings) :
    Worklist.Drains (analysis settings) f := by
  refine Worklist.drains_of_acyclic closed (analysis_listsEdges settings f)
    (Analysis.acyclic_of_procedure rfl acyclic) (analysis_preserves closed settings) ?_
  intro b t here inside
  obtain ⟨flow, carried, -⟩ := analysis_returns closed settings here inside
  exact ⟨flow, carried⟩

end Trails

end FlowGraph
