import FlowGraph.Proofs.Procedure.Graph
import FlowGraph.Proofs.Solver.Equations

/-!
# Solutions along paths

If every block of a forward problem sends one state along all its edges, then a solution has a state
wherever a path arrives, and what is carried along the path from block to block holds of the states
of the solution (`along_path`).
-/

namespace FlowGraph

namespace Analysis

variable {σ : Type} {A : Analysis σ} {f : Procedure} {t : Tables σ}

/-- A property of paths and states holds of the near states of a solution along every path, if it
holds of the boundary, every block carries it across, and larger states keep it. -/
theorem Solves.along_path {P : List BlockId → σ → Prop} (solves : A.Solves f t)
    (forward : A.direction = .forward)
    (uniform : ∀ b s flow, A.transfer f b s = .ok flow → flow = .uniform flow.state)
    (start : P [] (A.boundary f))
    (across : ∀ before b s flow, P before s → A.transfer f b s = .ok flow →
      P (before ++ [b]) flow.state)
    (larger : ∀ path x y, A.Below x y → P path x → P path y)
    {before : List BlockId} {b : BlockId} (path : f.Path before b) :
    ∃ s, t.nearAt A.direction b = some s ∧ P before s := by
  induction path with
  | entry =>
      obtain ⟨seeds, found, seeded⟩ := solves.seed
      simp only [Analysis.seeds, forward] at found
      cases found
      obtain ⟨s, near, below⟩ := exists_of_below? (seeded f.entry List.mem_cons_self)
      exact ⟨s, near, larger [] _ s below start⟩
  | @step before b next succs path found member ih =>
      obtain ⟨s, near, holds⟩ := ih
      obtain ⟨flow, far, carried, -, below, sent⟩ := solves.block b s near
      have sends : A.Sends f b flow far next far :=
        .along forward (uniform b s flow carried) found member
      obtain ⟨s', near', below'⟩ := exists_of_below? (sent next far sends)
      have atFar := larger _ _ far below (across before b s flow holds carried)
      exact ⟨s', near', larger _ far s' below' atFar⟩

end Analysis

end FlowGraph
