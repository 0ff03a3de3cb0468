import FlowGraph.Demo.Sample
import FlowGraph.Proofs.Busy.Termination
import FlowGraph.Proofs.Ranges.Termination
import FlowGraph.Proofs.Taint.Paths
import FlowGraph.Proofs.Trails.Termination

/-!
# Runs end

The solver has no bound of its own, and a procedure may have any loops.  Runs still end, since each
problem has its own reason why states stop changing.  Tainted values are values of the procedure.
Busy expressions are expressions of the procedure and only get fewer.  Intervals have their ends in
the window.

Ranges need a window in which division has a result.

Where no cycle can be reached, runs end for a reason that is the same for every problem.  Trails are
a problem that needs this, since around a loop they grow without bound.
-/

namespace FlowGraph

/-- On every built procedure the runs for taint and for busy expressions drain, and so does the run
for ranges in every window that reaches down to `1` and up to `-1`. -/
theorem analyses_drain {d : Draft} {f : Procedure} (built : d.build = .ok f) :
    (∀ settings, Worklist.Drains (TaintSet.analysis settings) f) ∧
      Worklist.Drains BusyState.analysis f ∧
      ∀ settings : Settings, settings.window.lo ≤ 1 → -1 ≤ settings.window.hi →
        Worklist.Drains (Ranges.analysis settings) f := by
  have closed := Procedure.closed_of_build built
  refine ⟨fun settings => TaintSet.analysis_drains closed settings,
    BusyState.analysis_drains closed, fun settings down up => ?_⟩
  exact Ranges.analysis_drains closed settings down up

/-- The loop sample has a cycle, and all three runs on it drain. -/
theorem analyses_drain_loop : Sample.loopDraft.layout.Edge 1 2 ∧ Sample.loopDraft.layout.Edge 2 1 ∧
    Worklist.Drains (TaintSet.analysis .default) Sample.loopDraft.layout ∧
    Worklist.Drains BusyState.analysis Sample.loopDraft.layout ∧
    Worklist.Drains (Ranges.analysis .default) Sample.loopDraft.layout := by
  have built : Sample.loopDraft.build = .ok Sample.loopDraft.layout := rfl
  obtain ⟨taint, busy, ranges⟩ := analyses_drain built
  exact ⟨⟨_, rfl, List.mem_cons_self⟩, ⟨_, rfl, List.mem_cons_self⟩, taint .default, busy,
    ranges .default (by decide) (by decide)⟩

/-- On every built procedure where a problem can reach no cycle, its run drains from any tables, or
a block stops it that does not carry a state across.  Nothing is asked of the problem but that the
edges it lists are edges.  The run for trails drains. -/
theorem acyclic_drains {d : Draft} {f : Procedure} (built : d.build = .ok f) :
    (∀ {σ : Type} [DecidableEq σ] (A : Analysis σ) (t : Tables σ), A.ListsEdges f → A.Acyclic f →
      t.Fits f →
        (Worklist.DrainsFrom A f t ∨ Worklist.StopsFrom A f (fun b _ => b < f.numBlocks) t) ∧
        ((∀ b s, b < f.numBlocks → ∃ flow, A.transfer f b s = .ok flow) →
          Worklist.DrainsFrom A f t)) ∧
      ∀ settings, f.Acyclic → Worklist.Drains (Trails.analysis settings) f := by
  have closed := Procedure.closed_of_build built
  refine ⟨fun A t lists acyclic fits => ?_, fun settings acyclic =>
    Trails.analysis_drains closed acyclic settings⟩
  have ends := Worklist.drains_or_stops closed lists acyclic
    (Analysis.preserves_inside closed lists) (fun _ _ inside => inside) fits
    (fun b s near => fits.lt_of_nearAt near) (fun _ _ _ => trivial)
  refine ⟨ends, fun returns => ends.resolve_right ?_⟩
  rintro ⟨n, b, s, fault, inside, stops, -⟩
  obtain ⟨flow, carried⟩ := returns b s inside
  rw [stops] at carried
  cases carried

/-- The diamond sample has no cycle.  There a problem drains whose states only grow, however often
they meet, and so does the run for trails. -/
theorem acyclic_drains_diamond : Sample.diamondDraft.layout.Acyclic ∧
    (∀ t, t.Fits Sample.diamondDraft.layout →
      Worklist.DrainsFrom ⟨.forward, fun _ => 0, fun _ _ n => .ok (.uniform (n + 1)),
        fun m n => m + n + 1⟩ Sample.diamondDraft.layout t) ∧
    Worklist.Drains (Trails.analysis .default) Sample.diamondDraft.layout := by
  have built : Sample.diamondDraft.build = .ok Sample.diamondDraft.layout := rfl
  have acyclic : Sample.diamondDraft.layout.Acyclic :=
    Procedure.acyclic_of_successors (by decide +kernel)
  obtain ⟨all, trails⟩ := acyclic_drains built
  refine ⟨acyclic, fun t fits => ?_, trails .default acyclic⟩
  refine (all _ t ?_ (Analysis.acyclic_of_procedure rfl acyclic) fits).2 fun b n here => ⟨_, rfl⟩
  intro b n state edges here carried
  cases carried

end FlowGraph
