import FlowGraph.Proofs.Solver.Order
import FlowGraph.Proofs.Solver.Visit
import FlowGraph.Solver.Solution

/-!
# The dataflow equations

Tables solve a dataflow problem if three things hold of the order of its states.  The boundary
state is below the near state of every seed.  What a block makes of its near
state is below its far state.  What a block sends on is below the near state where it arrives.

A run from fresh tables that drains leaves a solution (`AnyRun.solves`).  Nothing is asked of the
transfer.  The invariant is that every state sent on by a block, as the tables now have it, has
either come in or is still pending (`Accounted`).  A visit that changes nothing sends nothing, and
then what it owes is what the block owed before.

All this needs of the order is that a combination is above both of its parts (`Raises`).  So it
holds of every such preorder, whether or not it comes from the combination (`AnyRun.settles`).
-/

namespace FlowGraph

variable {σ : Type}

namespace Analysis

/-! ## The equations -/

/-- What a block sends on, and where to, when `flow` crosses it and `far` is its far state. -/
inductive Sends (A : Analysis σ) (f : Procedure) (b : BlockId) (flow : Flow σ) (far : σ) :
    BlockId → σ → Prop where
  /-- Forward, a uniform flow sends the far state along every edge. -/
  | along {state : σ} {succs : List BlockId} {dest : BlockId} :
      A.direction = .forward → flow = .uniform state → f.successors b = .ok succs →
      dest ∈ succs → Sends A f b flow far dest far
  /-- Forward, a split flow sends what it lists. -/
  | listed {state x : σ} {edges : List (BlockId × σ)} {dest : BlockId} :
      A.direction = .forward → flow = .split state edges → (dest, x) ∈ edges →
      Sends A f b flow far dest x
  /-- Backward, every flow sends the far state against every edge. -/
  | against {preds : List BlockId} {dest : BlockId} :
      A.direction = .backward → f.predecessors b = .ok preds → dest ∈ preds →
      Sends A f b flow far dest far

/-- The tables solve the dataflow equations of a procedure. -/
structure Solves (A : Analysis σ) (f : Procedure) (t : Tables σ) : Prop where
  /-- The boundary state is below the near state of every seed. -/
  seed : ∃ seeds, A.seeds f = .ok seeds ∧
    ∀ b ∈ seeds, A.Below? (some (A.boundary f)) (t.nearAt A.direction b)
  /-- At a block with a near state, what the block makes of it is below the far state, and what
  the block sends on is below the near state where it arrives. -/
  block : ∀ b s, t.nearAt A.direction b = some s → ∃ flow far,
    A.transfer f b s = .ok flow ∧ t.farAt A.direction b = some far ∧ A.Below flow.state far ∧
      ∀ dest x, A.Sends f b flow far dest x → A.Below? (some x) (t.nearAt A.direction dest)

/-- The list of what a block passes on is what it sends. -/
theorem mem_onward_iff {A : Analysis σ} {f : Procedure} {b : BlockId} {flow : Flow σ} {far : σ}
    {passed : List (BlockId × σ)} (onward : A.onward f b flow far = .ok passed) {dest : BlockId}
    {x : σ} : (dest, x) ∈ passed ↔ A.Sends f b flow far dest x := by
  unfold Analysis.onward at onward
  split at onward
  next state edges forward =>
    cases onward
    constructor
    · intro listed
      exact .listed forward rfl listed
    · intro sent
      cases sent with
      | along _ uniform => cases uniform
      | listed _ split listed => cases split; exact listed
      | against backward => rw [forward] at backward; cases backward
  next state forward =>
    obtain ⟨succs, found, mapped⟩ := bind_eq_ok_iff.mp onward
    cases pure_eq_ok_iff.mp mapped
    constructor
    · intro passed
      obtain ⟨succ, member, same⟩ := List.mem_map.mp passed
      cases same
      exact .along forward rfl found member
    · intro sent
      cases sent with
      | along _ _ found' member =>
          rw [found] at found'
          cases found'
          exact List.mem_map_of_mem member
      | listed _ split => cases split
      | against backward => rw [forward] at backward; cases backward
  next backward =>
    obtain ⟨preds, found, mapped⟩ := bind_eq_ok_iff.mp onward
    cases pure_eq_ok_iff.mp mapped
    constructor
    · intro passed
      obtain ⟨pred, member, same⟩ := List.mem_map.mp passed
      cases same
      exact .against backward found member
    · intro sent
      cases sent with
      | along forward => rw [backward] at forward; cases forward
      | listed forward => rw [backward] at forward; cases forward
      | against _ found' member =>
          rw [found] at found'
          cases found'
          exact List.mem_map_of_mem member

/-! ## Orders in which combining goes up -/

/-- A preorder of the states in which a combination is above both of its parts. -/
structure Raises (A : Analysis σ) (le : σ → σ → Prop) : Prop where
  refl : ∀ x, le x x
  trans : ∀ {x y z}, le x y → le y z → le x z
  left : ∀ x y, le x (A.combine x y)
  right : ∀ x y, le y (A.combine x y)

theorem IsJoin.raises {A : Analysis σ} (join : A.IsJoin) : A.Raises A.Below where
  refl := join.below_refl
  trans := join.below_trans
  left := join.below_combine_left
  right := join.below_combine_right

/-- What comes in is below what is recorded next. -/
theorem Raises.merge_right {A : Analysis σ} {le : σ → σ → Prop} (raises : A.Raises le)
    (recorded : Option σ) (incoming : σ) : le incoming (A.merge recorded incoming) := by
  cases recorded with
  | none => exact raises.refl incoming
  | some x => exact raises.right x incoming

/-- The tables solve the dataflow equations as far as a preorder can tell. -/
structure Settles (A : Analysis σ) (f : Procedure) (le : σ → σ → Prop) (t : Tables σ) : Prop where
  /-- The boundary state is below the near state of every seed. -/
  seed : ∃ seeds, A.seeds f = .ok seeds ∧
    ∀ b ∈ seeds, ∃ s, t.nearAt A.direction b = some s ∧ le (A.boundary f) s
  /-- What a block makes of its near state is below the far state, and what it sends on is below
  the near state where it arrives. -/
  block : ∀ b s, t.nearAt A.direction b = some s → ∃ flow far,
    A.transfer f b s = .ok flow ∧ t.farAt A.direction b = some far ∧ le flow.state far ∧
      ∀ dest x, A.Sends f b flow far dest x → ∃ s', t.nearAt A.direction dest = some s' ∧ le x s'

theorem Settles.solves {A : Analysis σ} {f : Procedure} {t : Tables σ}
    (settles : A.Settles f A.Below t) : A.Solves f t := by
  have came : ∀ {dest x}, (∃ s, t.nearAt A.direction dest = some s ∧ A.Below x s) →
      A.Below? (some x) (t.nearAt A.direction dest) := by
    rintro dest x ⟨s, near, below⟩
    rw [near]
    exact below
  obtain ⟨seeds, found, seeded⟩ := settles.seed
  refine ⟨⟨seeds, found, fun b member => came (seeded b member)⟩, fun b s near => ?_⟩
  obtain ⟨flow, far, carried, atFar, below, sent⟩ := settles.block b s near
  exact ⟨flow, far, carried, atFar, below, fun dest x sends => came (sent dest x sends)⟩

end Analysis

/-! ## What is owed during a run -/

namespace Worklist

variable {A : Analysis σ} {f : Procedure} {le : σ → σ → Prop}

/-- A state meant for a block has come in, or it is still pending. -/
def Covers (A : Analysis σ) (le : σ → σ → Prop) (w : Worklist σ) (dest : BlockId) (x : σ) : Prop :=
  (∃ s, w.tables.nearAt A.direction dest = some s ∧ le x s) ∨ (dest, x) ∈ w.pending

/-- The equations hold, except that what has yet to come in may be pending. -/
structure Accounted (A : Analysis σ) (f : Procedure) (le : σ → σ → Prop) (w : Worklist σ) :
    Prop where
  /-- The boundary state at the seeds. -/
  seed : ∃ seeds, A.seeds f = .ok seeds ∧ ∀ b ∈ seeds, Covers A le w b (A.boundary f)
  /-- What a block makes of its near state, and what it sends on. -/
  block : ∀ b s, w.tables.nearAt A.direction b = some s → ∃ flow far,
    A.transfer f b s = .ok flow ∧ w.tables.farAt A.direction b = some far ∧
      le flow.state far ∧ ∀ dest x, A.Sends f b flow far dest x → Covers A le w dest x

/-- Once nothing is pending, the equations hold. -/
theorem Accounted.settles {w : Worklist σ} (accounted : Accounted A f le w)
    (drained : w.pending = []) : A.Settles f le w.tables := by
  have came : ∀ {dest x}, Covers A le w dest x →
      ∃ s, w.tables.nearAt A.direction dest = some s ∧ le x s := by
    intro dest x covered
    rcases covered with below | pending
    · exact below
    · rw [drained] at pending
      cases pending
  obtain ⟨seeds, found, covered⟩ := accounted.seed
  refine ⟨⟨seeds, found, fun b member => came (covered b member)⟩, fun b s near => ?_⟩
  obtain ⟨flow, far, carried, atFar, below, sent⟩ := accounted.block b s near
  exact ⟨flow, far, carried, atFar, below, fun dest x sends => came (sent dest x sends)⟩

/-- At the start the seeds are pending and no block has a state. -/
theorem accounted_start {w : Worklist σ} (started : start A f (.fresh f) = .ok w) :
    Accounted A f le w := by
  obtain ⟨seeds, found, rfl⟩ := start_eq_ok_iff.mp started
  refine ⟨⟨seeds, found, fun b member => Or.inr (List.mem_map_of_mem member)⟩, ?_⟩
  intro b s near
  rw [Tables.nearAt_fresh] at near
  cases near

variable [DecidableEq σ]

/-- A visit loses nothing that was covered. -/
theorem Covers.step (raises : A.Raises le) {w w' : Worklist σ} (stepped : AnyStep A f w w')
    {dest : BlockId} {x : σ} (covered : Covers A le w dest x) : Covers A le w' dest x := by
  obtain ⟨b, incoming, rest, flow, passed, popped, done, pushed⟩ := stepped.visited
  rcases covered with ⟨s, near, below⟩ | member
  · left
    by_cases same : dest = b
    · subst same
      refine ⟨_, done.near, raises.trans below ?_⟩
      rw [near]
      exact raises.left s incoming
    · rw [done.nearOther dest same]
      exact ⟨s, near, below⟩
  · rcases List.mem_cons.mp (popped.subset member) with next | later
    · cases next
      exact Or.inl ⟨_, done.near, raises.merge_right _ x⟩
    · exact Or.inr (pushed.symm.subset (List.mem_append_right passed later))

theorem Accounted.step (raises : A.Raises le) {w w' : Worklist σ} (stepped : AnyStep A f w w')
    (accounted : Accounted A f le w) : Accounted A f le w' := by
  obtain ⟨seeds, found, covered⟩ := accounted.seed
  refine ⟨⟨seeds, found, fun b member => (covered b member).step raises stepped⟩, ?_⟩
  intro c s near
  have before : w.tables.nearAt A.direction c = some s → ∃ flow far,
      A.transfer f c s = .ok flow ∧ w.tables.farAt A.direction c = some far ∧
        le flow.state far ∧ ∀ dest x, A.Sends f c flow far dest x → Covers A le w' dest x := by
    intro near
    obtain ⟨flow, far, carried, atFar, below, sent⟩ := accounted.block c s near
    exact ⟨flow, far, carried, atFar, below,
      fun dest x sends => (sent dest x sends).step raises stepped⟩
  obtain ⟨b, incoming, rest, flow, passed, popped, done, pushed⟩ := stepped.visited
  by_cases same : c = b
  · subst same
    rcases done.passed with ⟨unchanged, -⟩ | onward
    · rw [unchanged] at near ⊢
      exact before near
    · rw [done.near] at near
      cases near
      -- what the block sends now is what was put on the stack
      refine ⟨flow, _, done.transfer, done.far, raises.merge_right _ flow.state, ?_⟩
      intro dest x sends
      have member := (Analysis.mem_onward_iff onward).mpr sends
      exact Or.inr (pushed.symm.subset (List.mem_append_left rest member))
  · rw [done.nearOther c same] at near
    rw [done.farOther c same]
    exact before near

/-- Every run from fresh tables that leaves nothing pending settles every preorder in which
combining goes up. -/
theorem AnyRun.settles (raises : A.Raises le) {w done : Worklist σ}
    (started : start A f (.fresh f) = .ok w) (ran : AnyRun A f w done)
    (drained : done.pending = []) : A.Settles f le done.tables :=
  (ran.keeps (fun _ _ stepped => Accounted.step raises stepped)
    (accounted_start started)).settles drained

/-- Every run from fresh tables that leaves nothing pending ends in a solution. -/
theorem AnyRun.solves (join : A.IsJoin) {w done : Worklist σ}
    (started : start A f (.fresh f) = .ok w) (ran : AnyRun A f w done)
    (drained : done.pending = []) : A.Solves f done.tables :=
  (ran.settles join.raises started drained).solves

end Worklist

theorem solve_tables_solves [DecidableEq σ] {A : Analysis σ} {f : Procedure} (join : A.IsJoin)
    {limit : Nat} {solution : Solution σ} (solved : solve A f limit = .ok solution) :
    A.Solves f solution.tables := by
  obtain ⟨done, ran, frozen⟩ := bind_eq_ok_iff.mp solved
  cases pure_eq_ok_iff.mp frozen
  obtain ⟨w, started, visits, drained⟩ := Worklist.run_anyRun ran
  exact visits.solves join started drained

end FlowGraph
