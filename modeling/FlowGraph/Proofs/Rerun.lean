import FlowGraph.Demo.Sample
import FlowGraph.Proofs.Busy.Order
import FlowGraph.Proofs.Ranges.Order
import FlowGraph.Proofs.Solver.Rerun
import FlowGraph.Proofs.Taint.Transfer
import FlowGraph.Proofs.Trails.Order

/-!
# Converged runs stay converged

Running a problem again from where it converged visits the seeds and changes nothing.  This holds of
every combination that is associative, commutative and idempotent, whatever the transfer does.

The combinations of taint, trails and ranges are so on all states.  That of busy expressions is so
only on the states that occur in a run, where no variable is kept without an expression.
-/

namespace FlowGraph

open Worklist (Rests)

theorem BusyState.analysis_rests {f : Procedure} (closed : f.Closed) : Rests analysis f :=
  Worklist.rests_of_raises analysis_raises (analysis_preserves_compact closed)
    (fun _ _ _ includes good => meet_eq_of_includes good.2 includes)
    (fun _ _ _ includes compact => meet_eq_of_includes compact includes)

/-- On every built procedure, running again from the tables of a run that has ended is quiet. -/
theorem analyses_rest {d : Draft} {f : Procedure} (built : d.build = .ok f) :
    (∀ {σ : Type} [DecidableEq σ] (A : Analysis σ), A.IsJoin → Rests A f) ∧
      (∀ settings, Rests (TaintSet.analysis settings) f) ∧
      (∀ settings, Rests (Trails.analysis settings) f) ∧
      Rests BusyState.analysis f ∧
      ∀ settings, Rests (Ranges.analysis settings) f := by
  refine ⟨fun A join => Worklist.rests_of_join join, fun settings => ?_, fun settings => ?_,
    BusyState.analysis_rests (Procedure.closed_of_build built), fun settings => ?_⟩
  · exact Worklist.rests_of_join (TaintSet.analysis_isJoin settings)
  · exact Worklist.rests_of_join (Trails.analysis_isJoin settings)
  · exact Worklist.rests_of_join (Ranges.analysis_isJoin settings)

/-- On the loop sample the run for busy expressions ends, and one visit of the only exit is all that
a second run does. -/
theorem analyses_rest_loop : ∃ done, Worklist.run BusyState.analysis Sample.loopDraft.layout 20
      (.fresh Sample.loopDraft.layout) = .ok done ∧
    Worklist.run BusyState.analysis Sample.loopDraft.layout 1 done.tables =
      .ok ⟨done.tables, [], 1⟩ := by
  have ends : (Worklist.run BusyState.analysis Sample.loopDraft.layout 20
      (.fresh Sample.loopDraft.layout)).toOption.any (fun _ => true) = true := by decide +kernel
  obtain ⟨done, ran, -⟩ := exists_ok_of_any ends
  obtain ⟨-, -, -, busy, -⟩ := analyses_rest (d := Sample.loopDraft) rfl
  obtain ⟨seeds, quiet⟩ := busy 20 done ran
  have exits : Sample.loopDraft.layout.exitBlocks = .ok [3] := by decide +kernel
  cases exits.symm.trans (quiet.backward rfl)
  exact ⟨done, ran, quiet.run 1⟩

end FlowGraph
