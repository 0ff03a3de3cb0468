import FlowGraph.Demo.Sample
import FlowGraph.Proofs.Procedure.Layout
import FlowGraph.Proofs.Solver.Least
import FlowGraph.Proofs.Taint.Transfer

/-!
# What a run leaves

A run from fresh tables that ends normally leaves a solution of the dataflow equations, whatever the
transfer does.  If the transfer is monotone, this is the least solution, and it does not depend on
the order of the visits.  Both hold in either direction and for every procedure.
-/

namespace FlowGraph

namespace Worklist

variable {σ : Type} [DecidableEq σ] {A : Analysis σ} {f : Procedure}

/-! ## Taint from the counter of the loop sample -/

def counterTaint : Analysis TaintSet := TaintSet.analysis ⟨.full, "i", "retval"⟩

/-- The run ends, and at the entry of the last block the counter alone is tainted. -/
theorem run_counterTaint : ∃ done last, run counterTaint Sample.loopDraft.layout 20
      (.fresh Sample.loopDraft.layout) = .ok done ∧
    done.tables.entry[3]? = some (some last) ∧ last.toList = [1] := by
  have ends : (run counterTaint Sample.loopDraft.layout 20
      (.fresh Sample.loopDraft.layout)).toOption.any (fun done =>
        done.tables.entry[3]?.join.any fun last => last.toList == [1]) = true := by
    decide +kernel
  obtain ⟨done, ran, recorded⟩ := exists_ok_of_any ends
  obtain ⟨last, found, same⟩ := (Option.any_eq_true _ _).mp recorded
  exact ⟨done, last, ran, Option.join_eq_some_iff.mp found, beq_iff_eq.mp same⟩

/-! ## Solutions -/

/-- A run from fresh tables that ends normally leaves a solution of the dataflow equations. -/
theorem run_solves (join : A.IsJoin) {limit : Nat} {done : Worklist σ}
    (ran : run A f limit (.fresh f) = .ok done) : A.Solves f done.tables := by
  obtain ⟨w, started, visits, drained⟩ := run_anyRun ran
  exact visits.solves join started drained

theorem run_solves_loop : ∃ done last, run counterTaint Sample.loopDraft.layout 20
      (.fresh Sample.loopDraft.layout) = .ok done ∧
    (done.tables.entry[3]? = some (some last) ∧ last.toList = [1]) ∧
    counterTaint.Solves Sample.loopDraft.layout done.tables := by
  obtain ⟨done, last, ran, recorded⟩ := run_counterTaint
  exact ⟨done, last, ran, recorded, run_solves (TaintSet.analysis_isJoin _) ran⟩

/-- With a monotone transfer, a run from fresh tables that ends normally leaves the least solution:
its tables solve the equations and are below every solution.  Every other order of visits that
drains leaves the same tables. -/
theorem run_least (join : A.IsJoin) (monotone : A.IsMonotone f) {limit : Nat}
    {done : Worklist σ} (ran : run A f limit (.fresh f) = .ok done) :
    A.Solves f done.tables ∧ (∀ u, A.Solves f u → A.TablesBelow done.tables u) ∧
      ∀ w w', start A f (.fresh f) = .ok w → AnyRun A f w w' → w'.pending = [] →
        w'.tables = done.tables := by
  obtain ⟨w, started, visits, drained⟩ := run_anyRun ran
  refine ⟨visits.solves join started drained,
    fun u solves => visits.below join monotone solves started, ?_⟩
  intro w₁ w' started' visits' drained'
  rw [started] at started'
  cases started'
  exact visits.tables_eq join monotone started drained visits' drained'

theorem run_least_loop : ∃ done last, run counterTaint Sample.loopDraft.layout 20
      (.fresh Sample.loopDraft.layout) = .ok done ∧
    (done.tables.entry[3]? = some (some last) ∧ last.toList = [1]) ∧
    counterTaint.Solves Sample.loopDraft.layout done.tables ∧
    (∀ u, counterTaint.Solves Sample.loopDraft.layout u →
      counterTaint.TablesBelow done.tables u) ∧
    ∀ w w', start counterTaint Sample.loopDraft.layout (.fresh Sample.loopDraft.layout) = .ok w →
      AnyRun counterTaint Sample.loopDraft.layout w w' → w'.pending = [] →
        w'.tables = done.tables := by
  obtain ⟨done, last, ran, recorded⟩ := run_counterTaint
  exact ⟨done, last, ran, recorded, run_least (TaintSet.analysis_isJoin _)
    (TaintSet.analysis_isMonotone _ Sample.loopDraft.layout) ran⟩

end Worklist

end FlowGraph
