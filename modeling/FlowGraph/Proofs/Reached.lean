import FlowGraph.Proofs.Busy.Termination
import FlowGraph.Proofs.Ranges.Window
import FlowGraph.Proofs.Solver.Acyclic
import FlowGraph.Proofs.Taint.Paths

/-!
# Reached blocks

A block gets states when a state first comes in there, whatever the state says.  So where blocks
send along all their edges, a drained run has states exactly at the blocks where a route arrives,
at both ends of each (`AnyRun.reached`).  Nothing is asked of the combination.

Forward, these are the blocks that can be reached from the entry.  Backward, they are the blocks
from which an exit can be reached, and such a block need not be reachable itself.

Ranges list the edges that can be taken, so some reachable blocks may have no states.  The listed
edges are edges, so every block with states is reachable.
-/

namespace FlowGraph

namespace Analysis

variable {σ : Type} {A : Analysis σ} {f : Procedure} {b : BlockId}

/-! ## Routes and reachability -/

/-- Every block sends one state along all its edges. -/
def IsUniform (A : Analysis σ) (f : Procedure) : Prop :=
  ∀ b s flow, A.transfer f b s = .ok flow → flow = .uniform flow.state

theorem IsUniform.listsEdges (uniform : A.IsUniform f) : A.ListsEdges f := by
  intro b s state edges _ carried
  cases uniform b s _ carried

theorem exists_route_iff_reachable (forward : A.direction = .forward) :
    (∃ before, A.Route f before b) ↔ f.Reachable b :=
  exists_congr fun _ => route_iff_path forward

/-- Backward, the routes come from the exits that can be reached. -/
theorem exists_route_iff_exit (closed : f.Closed) (backward : A.direction = .backward) :
    (∃ before, A.Route f before b) ↔ ∃ e, f.IsExit e ∧ Relation.ReflTransGen f.Edge b e := by
  obtain ⟨exits, found, -, members⟩ := closed.exitBlocks
  have seeds : A.seeds f = .ok exits := by rw [Analysis.seeds, backward]; exact found
  have against : ∀ {b c}, A.Next f b c ↔ f.Edge c b := by
    intro b c
    rw [Next, backward]
  constructor
  · rintro ⟨before, route⟩
    induction route with
    | @seed seeds' b listed member =>
        rw [seeds] at listed
        cases listed
        exact ⟨b, (members b).mp member, .refl⟩
    | step _ moves ih =>
        obtain ⟨e, isExit, leads⟩ := ih
        exact ⟨e, isExit, .head (against.mp moves) leads⟩
  · rintro ⟨e, isExit, leads⟩
    induction leads using Relation.ReflTransGen.head_induction_on with
    | refl => exact ⟨[], .seed seeds ((members e).mpr isExit)⟩
    | head edge _ ih =>
        obtain ⟨before, route⟩ := ih
        exact ⟨_, route.step (against.mpr edge)⟩

/-! ## Reached blocks are on routes, and blocks on routes are reached -/

/-- States come in only where a route arrives. -/
theorem preserves_routed (closed : f.Closed) (lists : A.ListsEdges f) :
    A.Preserves f (fun b _ => ∃ before, A.Route f before b)
      (fun b _ => ∃ before, A.Route f before b) where
  seed _ found _ member := ⟨[], .seed found member⟩
  near _ _ _ routed _ := routed
  far _ _ _ routed _ := routed
  across _ _ _ routed _ := routed
  sends _ _ _ _ _ _ routed carried _ sends := by
    obtain ⟨before, route⟩ := routed
    exact ⟨_, route.step (sends.next closed lists (route.lt closed) carried)⟩

/-- In the order in which all states are alike, every combination goes up. -/
theorem raises_alike (A : Analysis σ) : A.Raises fun _ _ => True where
  refl _ := trivial
  trans _ _ := trivial
  left _ _ := trivial
  right _ _ := trivial

end Analysis

namespace Worklist

variable {σ : Type} [DecidableEq σ] {A : Analysis σ} {f : Procedure} {w done : Worklist σ}

/-- A drained run has states at both ends of a block exactly if a route arrives there. -/
theorem AnyRun.reached (closed : f.Closed) (uniform : A.IsUniform f)
    (started : start A f (.fresh f) = .ok w) (ran : AnyRun A f w done)
    (drained : done.pending = []) (b : BlockId) :
    ((done.tables.nearAt A.direction b).isSome = true ↔ ∃ before, A.Route f before b) ∧
      ((done.tables.farAt A.direction b).isSome = true ↔ ∃ before, A.Route f before b) := by
  have holds := ran.holds (Analysis.preserves_routed closed uniform.listsEdges) started
  have settles := ran.settles A.raises_alike started drained
  have arrives : ∀ {before}, A.Route f before b →
      ∃ near far, done.tables.nearAt A.direction b = some near ∧
        done.tables.farAt A.direction b = some far := by
    intro before route
    obtain ⟨near, far, atNear, -, atFar, -⟩ := settles.along_route (P := fun _ _ => True) closed
      uniform (fun _ _ _ _ => trivial) (fun _ _ _ _ _ _ _ _ => trivial)
      (fun _ _ _ _ _ => trivial) route
    exact ⟨near, far, atNear, atFar⟩
  simp only [Option.isSome_iff_exists]
  refine ⟨⟨fun ⟨s, near⟩ => holds.near b s near, ?_⟩, ⟨fun ⟨s, far⟩ => holds.far b s far, ?_⟩⟩
  · rintro ⟨before, route⟩
    obtain ⟨near, -, atNear, -⟩ := arrives route
    exact ⟨near, atNear⟩
  · rintro ⟨before, route⟩
    obtain ⟨-, far, -, atFar⟩ := arrives route
    exact ⟨far, atFar⟩

end Worklist

/-! ## The problems -/

theorem TaintSet.analysis_uniform {f : Procedure} (settings : Settings) :
    (analysis settings).IsUniform f := by
  intro b t flow carried
  obtain ⟨t', -, rfl⟩ := transfer_eq_ok carried
  rfl

theorem BusyState.analysis_uniform {f : Procedure} : analysis.IsUniform f := by
  intro b s flow carried
  obtain ⟨s', -, same⟩ := bind_eq_ok_iff.mp carried
  cases pure_eq_ok_iff.mp same
  rfl

/-- The edges that ranges list are edges of the procedure. -/
theorem Ranges.analysis_listsEdges {d : Draft} {f : Procedure} (built : d.build = .ok f)
    (settings : Settings) : (analysis settings).ListsEdges f := by
  intro b s state edges _ carried dest x member
  obtain ⟨ids, p, after, leaving, -, -, -, leaves, flows⟩ := through_eq_ok carried
  obtain ⟨op, rfl, target⟩ := Progress.target_of_listed flows.symm member
  exact Procedure.target_mem_successors built leaves target

/-! ## Solutions -/

/-- The solution has states at both ends of the given blocks, and no others. -/
def Solution.ReachesExactly {σ : Type} (solution : Solution σ) (blocks : BlockId → Prop) : Prop :=
  ∀ b, ((solution.entry? b).isSome = true ↔ blocks b) ∧
    ((solution.exit? b).isSome = true ↔ blocks b)

/-- On every built procedure, a problem whose blocks send along all their edges has states exactly
at the blocks that can be reached from the entry, if it goes forward.  If it goes backward, it has
states exactly at the blocks from which a reachable exit can be reached.  Ranges have states only at
blocks that can be reached from the entry. -/
theorem solve_reaches {d : Draft} {f : Procedure} (built : d.build = .ok f) :
    (∀ {σ : Type} [DecidableEq σ] (A : Analysis σ) (limit : Nat) (solution : Solution σ),
      A.IsUniform f → solve A f limit = .ok solution →
        (A.direction = .forward → solution.ReachesExactly f.Reachable) ∧
        (A.direction = .backward → solution.ReachesExactly fun b =>
          ∃ e, f.IsExit e ∧ Relation.ReflTransGen f.Edge b e)) ∧
      ∀ (settings : Settings) (limit : Nat) (solution : Solution Ranges),
        solve (Ranges.analysis settings) f limit = .ok solution →
          ∀ b, solution.isReached b = true → f.Reachable b := by
  have closed := Procedure.closed_of_build built
  refine ⟨fun A limit solution uniform solved => ?_, fun settings limit solution solved b => ?_⟩
  · obtain ⟨done, ran, same⟩ := bind_eq_ok_iff.mp solved
    cases pure_eq_ok_iff.mp same
    obtain ⟨w, started, visits, drained⟩ := Worklist.run_anyRun ran
    have reached := visits.reached closed uniform started drained
    refine ⟨fun forward b => ?_, fun backward b => ?_⟩
    · have here := reached b
      rw [Analysis.exists_route_iff_reachable forward, forward] at here
      exact here
    · have here := reached b
      rw [Analysis.exists_route_iff_exit closed backward, backward] at here
      exact here.symm
  · obtain ⟨done, ran, same⟩ := bind_eq_ok_iff.mp solved
    cases pure_eq_ok_iff.mp same
    obtain ⟨w, started, visits, -⟩ := Worklist.run_anyRun ran
    have holds := visits.holds
      (Analysis.preserves_routed closed (Ranges.analysis_listsEdges built settings)) started
    intro isReached
    rcases Bool.or_eq_true_iff.mp isReached with atEntry | atExit
    · obtain ⟨s, near⟩ := Option.isSome_iff_exists.mp atEntry
      exact (Analysis.exists_route_iff_reachable rfl).mp (holds.near b s near)
    · obtain ⟨s, far⟩ := Option.isSome_iff_exists.mp atExit
      exact (Analysis.exists_route_iff_reachable rfl).mp (holds.far b s far)

/-- The entry leads to the exit, and so does a block that nothing leads to. -/
def strayDraft : Draft := .ofSteps "main" do
  let entry ← Drafting.block "entry"
  let final ← Drafting.block "final"
  let stray ← Drafting.block "stray"
  let _ ← Drafting.jump entry final
  Drafting.jump stray final

/-- Taint and ranges do not get to the stray block, and busy expressions do. -/
theorem solve_reaches_stray : ∃ f taint busy ranges, strayDraft.build = .ok f ∧
    solve (TaintSet.analysis .default) f 10 = .ok taint ∧ taint.entry? 2 = none ∧
    solve BusyState.analysis f 10 = .ok busy ∧ (busy.entry? 2).isSome = true ∧
    solve (Ranges.analysis .default) f 10 = .ok ranges ∧ ranges.isReached 2 = false := by
  have built : strayDraft.build = .ok strayDraft.layout := rfl
  obtain ⟨all, onRanges⟩ := solve_reaches built
  have ends : (solve (TaintSet.analysis .default) strayDraft.layout 10).toOption.any
      (fun _ => true) = true ∧
    (solve BusyState.analysis strayDraft.layout 10).toOption.any (fun _ => true) = true ∧
    (solve (Ranges.analysis .default) strayDraft.layout 10).toOption.any
      (fun _ => true) = true := by
    decide +kernel
  obtain ⟨taint, tainted, -⟩ := exists_ok_of_any ends.1
  obtain ⟨busy, isBusy, -⟩ := exists_ok_of_any ends.2.1
  obtain ⟨ranges, ranged, -⟩ := exists_ok_of_any ends.2.2
  have unreachable : ¬ strayDraft.layout.Reachable 2 := by
    rintro ⟨before, path⟩
    have listed : (before, 2) ∈ [([], 0), ([0], 1)] :=
      path.mem_of_steps (by decide) (by decide +kernel)
    simp at listed
  have leads : ∃ e, strayDraft.layout.IsExit e ∧
      Relation.ReflTransGen strayDraft.layout.Edge 2 e :=
    ⟨1, ⟨⟨[0], .step .entry rfl List.mem_cons_self⟩, rfl⟩, .single ⟨_, rfl, List.mem_cons_self⟩⟩
  have forward := (all _ 10 taint (TaintSet.analysis_uniform _) tainted).1 rfl 2
  have backward := (all _ 10 busy BusyState.analysis_uniform isBusy).2 rfl 2
  refine ⟨_, taint, busy, ranges, built, tainted, ?_, isBusy, backward.1.mpr leads, ranged, ?_⟩
  · exact Option.not_isSome_iff_eq_none.mp fun there => unreachable (forward.1.mp there)
  · exact Bool.eq_false_iff.mpr fun there => unreachable (onRanges _ 10 ranges ranged 2 there)

end FlowGraph
