import FlowGraph.Proofs.Solver.Invariants

/-!
# Running again

A drained run leaves tables in which everything has come in.  Running again from these tables lets
the boundary state come in at the seeds once more.  There it is below what is recorded, and so is
what the blocks make of it.  So the second run visits each seed once, in order, and does nothing
else (`Quiet`).

This takes a preorder in which combining goes up, and in which combining something smaller changes
nothing.  The second part may need what holds of every recorded state (`rests_of_raises`).  With a
combination that is associative, commutative and idempotent, its own order will do
(`rests_of_join`).
-/

namespace FlowGraph

namespace Worklist

variable {σ : Type} [DecidableEq σ] {A : Analysis σ} {f : Procedure} {t : Tables σ}

/-- A run from the tables visits the given seeds in order.  No visit changes the tables or passes
anything on. -/
structure Quiet (A : Analysis σ) (f : Procedure) (t : Tables σ) (seeds : List BlockId) : Prop where
  /-- Forward there is one seed, the entry. -/
  forward : A.direction = .forward → seeds = [f.entry]
  /-- Backward the exits are the seeds. -/
  backward : A.direction = .backward → f.exitBlocks = .ok seeds
  /-- A visit takes its seed off the stack and leaves everything else as it is. -/
  steps : ∀ before b rest, seeds = before ++ b :: rest →
    step A f ⟨t, (b :: rest).map (·, A.boundary f), before.length⟩ =
      .ok ⟨t, rest.map (·, A.boundary f), before.length + 1⟩
  /-- The run ends after as many visits as there are seeds. -/
  run : ∀ limit, run A f limit t =
    if seeds.length ≤ limit then .ok ⟨t, [], seeds.length⟩ else .error .visitLimit

/-- Once a run from fresh tables has ended, running again is quiet. -/
def Rests (A : Analysis σ) (f : Procedure) : Prop :=
  ∀ limit done, Worklist.run A f limit (.fresh f) = .ok done →
    ∃ seeds, Quiet A f done.tables seeds

/-! ## One visit -/

/-- A visit changes nothing if the incoming state and what the block makes of the recorded one are
already taken in. -/
theorem visit_eq_of_taken {b : BlockId} {incoming near far : σ} {flow : Flow σ}
    (atNear : t.nearAt A.direction b = some near) (atFar : t.farAt A.direction b = some far)
    (taken : A.combine near incoming = near) (carried : A.transfer f b near = .ok flow)
    (takenFar : A.combine far flow.state = far) : visit A f t b incoming = .ok (t, []) := by
  have nearOk : lookup (t.near A.direction) b = .ok (some near) :=
    lookup_eq_ok_iff.mpr (Option.join_eq_some_iff.mp atNear)
  have farOk : lookup (t.far A.direction) b = .ok (some far) :=
    lookup_eq_ok_iff.mpr (Option.join_eq_some_iff.mp atFar)
  simp only [visit, nearOk, farOk, bind, Except.bind, Analysis.merge, taken, carried, takenFar,
    and_self, if_true]
  rfl

/-- Pending states that all change nothing are taken off the stack one by one. -/
theorem drain_of_taken {pending : List (BlockId × σ)}
    (taken : ∀ b x, (b, x) ∈ pending → visit A f t b x = .ok (t, [])) (limit visits : Nat) :
    drain A f limit ⟨t, pending, visits⟩ =
      if pending.length ≤ limit then .ok ⟨t, [], visits + pending.length⟩
      else .error .visitLimit := by
  induction pending generalizing limit visits with
  | nil => cases limit <;> rfl
  | cons next rest ih =>
      obtain ⟨b, x⟩ := next
      cases limit with
      | zero => rfl
      | succ limit =>
          have stepped : step A f ⟨t, (b, x) :: rest, visits⟩ = .ok ⟨t, rest, visits + 1⟩ :=
            bind_eq_ok_iff.mpr ⟨_, taken b x List.mem_cons_self, rfl⟩
          have later := ih (fun c y member => taken c y (List.mem_cons_of_mem _ member)) limit
            (visits + 1)
          rw [drain, if_neg (by simp), stepped]
          simp only [later, List.length_cons, Nat.add_le_add_iff_right, Nat.add_right_comm visits 1,
            ← Nat.add_assoc]

/-! ## The second run -/

theorem quiet_of_taken {seeds : List BlockId} (found : A.seeds f = .ok seeds)
    (taken : ∀ b ∈ seeds, visit A f t b (A.boundary f) = .ok (t, [])) : Quiet A f t seeds where
  forward direction := by
    rw [Analysis.seeds, direction] at found
    exact (Except.ok.inj found).symm
  backward direction := by rwa [Analysis.seeds, direction] at found
  steps before b rest split := by
    have member : b ∈ seeds := by simp [split]
    exact bind_eq_ok_iff.mpr ⟨_, taken b member, rfl⟩
  run limit := by
    have all : ∀ b x, (b, x) ∈ seeds.map (·, A.boundary f) → visit A f t b x = .ok (t, []) := by
      intro b x member
      obtain ⟨c, seed, same⟩ := List.mem_map.mp member
      cases same
      exact taken b seed
    have drained := drain_of_taken all limit 0
    rw [List.length_map, Nat.zero_add] at drained
    rw [Worklist.run, start_eq_ok_iff.mpr ⟨seeds, found, rfl⟩]
    exact drained

/-- Running again is quiet if states that are recorded take in whatever is below them. -/
theorem rests_of_raises {le : σ → σ → Prop} {Near Far : BlockId → σ → Prop}
    (raises : A.Raises le) (preserves : A.Preserves f Near Far)
    (near : ∀ b x y, le x y → Near b y → A.combine y x = y)
    (far : ∀ b x y, le x y → Far b y → A.combine y x = y) : Rests A f := by
  intro limit done ran
  obtain ⟨w, started, visits, drained⟩ := run_anyRun ran
  have settles := visits.settles raises started drained
  have holds := visits.holds preserves started
  obtain ⟨seeds, found, seeded⟩ := settles.seed
  refine ⟨seeds, quiet_of_taken found fun b member => ?_⟩
  obtain ⟨s, atNear, below⟩ := seeded b member
  obtain ⟨flow, s', carried, atFar, below', -⟩ := settles.block b s atNear
  exact visit_eq_of_taken atNear atFar (near b _ s below (holds.near b s atNear)) carried
    (far b _ s' below' (holds.far b s' atFar))

/-- With a join nothing has to be known of the recorded states. -/
theorem rests_of_join (join : A.IsJoin) : Rests A f := by
  have preserves : A.Preserves f (fun _ _ => True) (fun _ _ => True) := by
    constructor <;> intros <;> trivial
  exact rests_of_raises join.raises preserves (fun _ _ _ below _ => below)
    (fun _ _ _ below _ => below)

end Worklist

end FlowGraph
