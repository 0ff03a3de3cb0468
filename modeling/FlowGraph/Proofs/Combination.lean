import FlowGraph.Demo.Sample
import FlowGraph.Proofs.Busy.Order
import FlowGraph.Proofs.Ranges.Order
import FlowGraph.Proofs.Taint.Transfer
import FlowGraph.Proofs.Trails.Order

/-!
# Combining states

The solver merges states that meet at one place.  What it records then depends neither on their
order nor on how often each comes in, since the combinations of all four problems are associative,
commutative and idempotent.

Taint, trails and ranges are so on all states.  Busy expressions are so on states in which every
variable has an expression.  A run never leaves these states: nothing is busy at the boundary, and
crossing a block and combining keep them compact.
-/

namespace FlowGraph

/-- The combinations of the four problems are associative, commutative and idempotent, the last on
compact states.  The boundary of busy expressions is compact, and on every built procedure a block
makes a compact state of a compact state. -/
theorem analyses_join :
    (∀ settings, (TaintSet.analysis settings).IsJoin) ∧
    (∀ settings, (Trails.analysis settings).IsJoin) ∧
    (∀ settings, (Ranges.analysis settings).IsJoin) ∧
    BusyState.analysis.IsJoinOn BusyState.Compact ∧
    (∀ f, (BusyState.analysis.boundary f).Compact) ∧
    ∀ (d : Draft) (f : Procedure) (b : BlockId) (s : BusyState), d.build = .ok f →
      b < f.numBlocks → s.Compact →
        ∃ after, BusyState.analysis.transfer f b s = .ok (.uniform after) ∧ after.Compact := by
  refine ⟨TaintSet.analysis_isJoin, Trails.analysis_isJoin, Ranges.analysis_isJoin,
    BusyState.analysis_isJoinOn, fun f => BusyState.compact_empty, ?_⟩
  intro d f b s built here compact
  have closed := Procedure.closed_of_build built
  obtain ⟨ids, -, carried⟩ := BusyState.transfer_returns closed here s
  exact ⟨_, carried, compact.effects ids⟩

/-- In the diamond sample a side of the branch makes `a - b` busy and lists it under both variables.
Meeting the state with itself, and with the boundary in either order, is as the laws say. -/
theorem analyses_join_diamond : ∃ f after, Sample.diamondDraft.build = .ok f ∧
    BusyState.analysis.transfer f 1 .empty = .ok (.uniform after) ∧
    "a - b" ∈ after.byVar.textsOf 1 ∧ "a - b" ∈ after.byVar.textsOf 2 ∧
    after.Compact ∧ after.meet after = after ∧ after.meet .empty = BusyState.meet .empty after := by
  have built : Sample.diamondDraft.build = .ok Sample.diamondDraft.layout := rfl
  obtain ⟨-, -, -, laws, start, crosses⟩ := analyses_join
  have nothing : BusyState.Compact .empty := start Sample.diamondDraft.layout
  obtain ⟨after, carried, compact⟩ := crosses _ _ 1 .empty built (by decide) nothing
  have listed : (BusyState.analysis.transfer Sample.diamondDraft.layout 1 .empty).toOption.any
      (fun flow => decide ("a - b" ∈ flow.state.byVar.textsOf 1) &&
        decide ("a - b" ∈ flow.state.byVar.textsOf 2)) = true := by
    decide +kernel
  rw [carried] at listed
  obtain ⟨first, second⟩ := Bool.and_eq_true_iff.mp listed
  exact ⟨_, after, built, carried, of_decide_eq_true first, of_decide_eq_true second, compact,
    laws.idem after compact, laws.comm after .empty compact nothing⟩

end FlowGraph
