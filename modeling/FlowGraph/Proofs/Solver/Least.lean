import FlowGraph.Proofs.Solver.Equations

/-!
# Least solutions

With a monotone transfer the solution a run leaves is the least one.  Along every run, whatever is
recorded and whatever is pending stays below any given solution (`Within`).  The far state of a
block is the combination of all that the block ever made of its near states.  Each of these is
below what the block makes of the solution's near state, so the combination is too.

Two runs that visit the pending states in different orders both end in a solution below the
other's, so they end in the same tables.
-/

namespace FlowGraph

variable {σ : Type}

namespace Analysis

/-- One pair of tables is below another at both ends of every block. -/
def TablesBelow (A : Analysis σ) (t u : Tables σ) : Prop :=
  ∀ b, A.Below? (t.nearAt A.direction b) (u.nearAt A.direction b) ∧
    A.Below? (t.farAt A.direction b) (u.farAt A.direction b)

/-- What a block sends with the smaller flow and far state, it sends with the larger ones, with a
state above. -/
theorem Sends.mono {A : Analysis σ} {f : Procedure} {b : BlockId} {flow flow' : Flow σ}
    {far far' : σ} {dest : BlockId} {x : σ} (flows : A.FlowBelow flow flow')
    (fars : A.Below far far') (sent : A.Sends f b flow far dest x) :
    ∃ x', A.Sends f b flow' far' dest x' ∧ A.Below x x' := by
  cases sent with
  | along forward uniform found member =>
      subst uniform
      cases flow' with
      | uniform state' => exact ⟨far', .along forward rfl found member, fars⟩
      | split state' edges' => exact flows.elim
  | listed forward split member =>
      subst split
      cases flow' with
      | uniform state' => exact flows.elim
      | split state' edges' =>
          obtain ⟨x', member', below⟩ := flows.2 dest x member
          exact ⟨x', .listed forward rfl member', below⟩
  | against backward found member => exact ⟨far', .against backward found member, fars⟩

theorem TablesBelow.antisymm {A : Analysis σ} (join : A.IsJoin) {f : Procedure} {t u : Tables σ}
    (left : t.Fits f) (right : u.Fits f) (first : A.TablesBelow t u)
    (second : A.TablesBelow u t) : t = u :=
  Tables.ext_ends left right (fun b => join.below?_antisymm (first b).1 (second b).1)
    (fun b => join.below?_antisymm (first b).2 (second b).2)

end Analysis

namespace Worklist

variable {A : Analysis σ} {f : Procedure}

/-- Everything recorded and everything pending is below the given tables. -/
structure Within (A : Analysis σ) (u : Tables σ) (w : Worklist σ) : Prop where
  tables : A.TablesBelow w.tables u
  pending : ∀ dest x, (dest, x) ∈ w.pending → A.Below? (some x) (u.nearAt A.direction dest)

theorem within_start {u : Tables σ} {w : Worklist σ} (solves : A.Solves f u)
    (started : start A f (.fresh f) = .ok w) : Within A u w := by
  obtain ⟨seeds, found, rfl⟩ := start_eq_ok_iff.mp started
  refine ⟨fun b => ?_, fun dest x member => ?_⟩
  · rw [Tables.nearAt_fresh, Tables.farAt_fresh]
    exact ⟨trivial, trivial⟩
  · obtain ⟨b, seed, same⟩ := List.mem_map.mp member
    cases same
    obtain ⟨seeds', found', below⟩ := solves.seed
    rw [found] at found'
    cases found'
    exact below dest seed

variable [DecidableEq σ]

theorem Within.step (join : A.IsJoin) (monotone : A.IsMonotone f) {u : Tables σ}
    (solves : A.Solves f u) {w w' : Worklist σ} (stepped : AnyStep A f w w')
    (within : Within A u w) : Within A u w' := by
  obtain ⟨b, incoming, rest, flow, passed, popped, done, pushed⟩ := stepped.visited
  have fits := within.pending b incoming (popped.symm.subset List.mem_cons_self)
  -- the solution has a near state at the visited block, above the incoming one
  cases atNear : u.nearAt A.direction b with
  | none =>
      rw [atNear] at fits
      exact fits.elim
  | some above =>
      obtain ⟨flow', far', carried', atFar, below', sent⟩ := solves.block b above atNear
      rw [atNear] at fits
      have recorded := within.tables b
      rw [atNear, atFar] at recorded
      have near : A.Below (A.merge (w.tables.nearAt A.direction b) incoming) above :=
        join.merge_below recorded.1 fits
      have flows : A.FlowBelow flow flow' := monotone b _ _ flow flow' near done.transfer carried'
      have far : A.Below (A.merge (w.tables.farAt A.direction b) flow.state) far' :=
        join.merge_below recorded.2 (join.below_trans flows.state below')
      refine ⟨fun c => ?_, fun dest x member => ?_⟩
      · by_cases same : c = b
        · subst same
          rw [done.near, done.far, atNear, atFar]
          exact ⟨near, far⟩
        · rw [done.nearOther c same, done.farOther c same]
          exact within.tables c
      · rcases List.mem_append.mp (pushed.subset member) with new | old
        · rcases done.passed with ⟨-, nothing⟩ | onward
          · rw [nothing] at new
            cases new
          · obtain ⟨x', sends, below⟩ :=
              ((Analysis.mem_onward_iff onward).mp new).mono flows far
            exact join.below?_trans (y := some x') below (sent dest x' sends)
        · exact within.pending dest x (popped.symm.subset (List.mem_cons_of_mem _ old))

/-- Every run from fresh tables stays below every solution. -/
theorem AnyRun.below (join : A.IsJoin) (monotone : A.IsMonotone f) {u : Tables σ}
    (solves : A.Solves f u) {w w' : Worklist σ} (started : start A f (.fresh f) = .ok w)
    (ran : AnyRun A f w w') : A.TablesBelow w'.tables u :=
  (ran.keeps (fun _ _ stepped => Within.step join monotone solves stepped)
    (within_start solves started)).tables

/-- Two runs from fresh tables that leave nothing pending end in the same tables. -/
theorem AnyRun.tables_eq (join : A.IsJoin) (monotone : A.IsMonotone f) {w done done' : Worklist σ}
    (started : start A f (.fresh f) = .ok w) (ran : AnyRun A f w done)
    (drained : done.pending = []) (ran' : AnyRun A f w done') (drained' : done'.pending = []) :
    done'.tables = done.tables := by
  have fresh : w.tables.Fits f := by
    obtain ⟨seeds, found, rfl⟩ := start_eq_ok_iff.mp started
    exact Tables.fits_fresh f
  exact Analysis.TablesBelow.antisymm join (ran'.fits fresh) (ran.fits fresh)
    (ran'.below join monotone (ran.solves join started drained) started)
    (ran.below join monotone (ran'.solves join started drained') started)

end Worklist

end FlowGraph
