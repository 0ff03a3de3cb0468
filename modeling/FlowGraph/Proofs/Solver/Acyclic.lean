import FlowGraph.Proofs.Solver.Routes
import FlowGraph.Proofs.Solver.Termination
import Mathlib.Data.Fintype.Card
import Mathlib.Data.Fintype.EquivFin

/-!
# Runs on acyclic graphs

Where no cycle can be reached from the seeds, a run ends whatever the problem is.  Nothing is asked
of the states, the combination or the transfer, except that listed edges are edges.  A block may
list an edge many times, so what is pending has no weight that shrinks with every visit.

The argument is about the stack.  Whatever a visit passes on comes off the stack before the states
below it.  So a block is worked off together with everything it leads to (`Clears`), by induction
along the edges.  An acyclic graph has no infinite route, hence the induction (`acc_of_acyclic`).

Only a block that does not carry a state across can stop such a run early.
-/

namespace FlowGraph

/-! ## Acyclic graphs -/

/-- No block that can be reached lies on a cycle. -/
def Procedure.Acyclic (f : Procedure) : Prop :=
  ∀ b, f.Reachable b → ¬ Relation.TransGen f.Edge b b

/-- If every edge goes to a later block, there is no cycle. -/
theorem Procedure.acyclic_of_ascending {f : Procedure} (ascending : ∀ b c, f.Edge b c → b < c) :
    f.Acyclic := by
  intro b _ cycle
  have later : ∀ {c}, Relation.TransGen f.Edge b c → b < c := by
    intro c path
    induction path with
    | single edge => exact ascending b _ edge
    | tail _ edge ih => exact Nat.lt_trans ih (ascending _ _ edge)
  exact Nat.lt_irrefl b (later cycle)

/-- That every edge goes to a later block can be read off the successors of the blocks. -/
theorem Procedure.acyclic_of_successors {f : Procedure} (later : ∀ b < f.numBlocks,
    (f.successors b).toOption.all (fun succs => succs.all (b < ·)) = true) : f.Acyclic := by
  refine acyclic_of_ascending fun b c edge => ?_
  have ascends := later b edge.lt
  obtain ⟨succs, found, member⟩ := edge
  rw [found] at ascends
  exact of_decide_eq_true (List.all_eq_true.mp ascends c member)

namespace Analysis

variable {σ : Type} {A : Analysis σ} {f : Procedure} {b : BlockId}

/-- No cycle can be reached from the seeds in the direction of the problem. -/
def Acyclic (A : Analysis σ) (f : Procedure) : Prop :=
  ∀ before b, A.Route f before b → ¬ Relation.TransGen (A.Next f) b b

/-- The edges that a block lists are edges of the procedure. -/
def ListsEdges (A : Analysis σ) (f : Procedure) : Prop :=
  ∀ b s state edges, b < f.numBlocks → A.transfer f b s = .ok (.split state edges) →
    ∀ dest x, (dest, x) ∈ edges → f.Edge b dest

/-- Forward, the blocks in question are those that can be reached from the entry. -/
theorem acyclic_of_procedure (forward : A.direction = .forward) (acyclic : f.Acyclic) :
    A.Acyclic f := by
  intro before b route
  have edges : A.Next f = f.Edge := by
    funext c c'
    rw [Next, forward]
  rw [edges]
  exact acyclic b ⟨before, (route_iff_path forward).mp route⟩

/-- In an acyclic graph only finitely many moves follow one another. -/
theorem acc_of_acyclic (closed : f.Closed) (acyclic : A.Acyclic f) {before : List BlockId}
    (route : A.Route f before b) : Acc (fun c b => A.Next f b c) b := by
  let Reached := {b : BlockId // ∃ before, A.Route f before b}
  let Later : Reached → Reached → Prop := fun c b => Relation.TransGen (A.Next f) b.1 c.1
  have : Finite Reached := Finite.of_injective
    (fun b : Reached => (⟨b.1, b.2.elim fun _ route => route.lt closed⟩ : Fin f.numBlocks))
    fun b c same => Subtype.ext (Fin.mk.inj same)
  have : IsTrans Reached Later := ⟨fun _ _ _ first second => second.trans first⟩
  have : Std.Irrefl Later := ⟨fun b cycle => b.2.elim fun before route =>
    acyclic before b.1 route cycle⟩
  have ends : ∀ b : Reached, Acc (fun c b => A.Next f b c) b.1 := by
    intro b
    induction b using (Finite.wellFounded_of_trans_of_irrefl Later).induction with
    | _ b ih =>
        obtain ⟨b, before, route⟩ := b
        refine Acc.intro b fun c moves => ?_
        exact ih ⟨c, before ++ [b], route.step moves⟩ (.single moves)
  exact ends ⟨b, before, route⟩

/-- States are sent to where states move next. -/
theorem Sends.next (closed : f.Closed) (lists : A.ListsEdges f) (inside : b < f.numBlocks)
    {s far x : σ} {flow : Flow σ} {dest : BlockId} (carried : A.transfer f b s = .ok flow)
    (sends : A.Sends f b flow far dest x) : A.Next f b dest := by
  cases sends with
  | along forward _ found member =>
      rw [Next, forward]
      exact ⟨_, found, member⟩
  | listed forward split member =>
      rw [Next, forward]
      exact lists b s _ _ inside (split ▸ carried) dest x member
  | against backward found member =>
      obtain ⟨preds, found', members⟩ := closed.preds b inside
      rw [found] at found'
      cases found'
      rw [Next, backward]
      exact (members dest).mp member

/-- Visits stay in the procedure. -/
theorem preserves_inside (closed : f.Closed) (lists : A.ListsEdges f) :
    A.Preserves f (fun b _ => b < f.numBlocks) (fun _ _ => True) where
  seed _ found _ member := (Route.seed found member).lt closed
  near _ _ _ inside _ := inside
  far _ _ _ _ _ := trivial
  across _ _ _ _ _ := trivial
  sends _ _ _ _ _ _ inside carried _ sends :=
    (sends.next closed lists inside carried).lt closed

end Analysis

/-! ## Working off the stack -/

namespace Worklist

variable {σ : Type} [DecidableEq σ] {A : Analysis σ} {f : Procedure} {b : BlockId}
  {Near Far : BlockId → σ → Prop} {todo rest : List (BlockId × σ)}

theorem drain_of_step {w w' : Worklist σ} (pending : w.pending ≠ [])
    (stepped : step A f w = .ok w') (more : Nat) : drain A f (1 + more) w = drain A f more w' := by
  rw [Nat.add_comm, drain, if_neg (by simpa using pending), stepped]

theorem drain_of_fault {w : Worklist σ} {fault : Fault} (pending : w.pending ≠ [])
    (stopped : step A f w = .error fault) (more : Nat) :
    drain A f (1 + more) w = .error fault := by
  rw [Nat.add_comm, drain, if_neg (by simpa using pending), stopped]

/-- After some visits the given states are all that is pending, or a block has stopped the run. -/
def GetsTo (A : Analysis σ) (f : Procedure) (Near Far : BlockId → σ → Prop) (w : Worklist σ)
    (rest : List (BlockId × σ)) : Prop :=
  ∃ n, (∃ t', t'.Fits f ∧ Holds A Near Far ⟨t', rest, w.visits + n⟩ ∧
      ∀ more, drain A f (n + more) w = drain A f more ⟨t', rest, w.visits + n⟩) ∨
    ∃ b s fault, Near b s ∧ A.transfer f b s = .error fault ∧
      ∀ more, drain A f (n + more) w = .error fault

/-- Where a run gets to later, it gets to. -/
theorem GetsTo.after {w w' : Worklist σ} {n : Nat}
    (goes : ∀ more, drain A f (n + more) w = drain A f more w') (visits : w'.visits = w.visits + n)
    (later : GetsTo A f Near Far w' rest) : GetsTo A f Near Far w rest := by
  obtain ⟨m, ⟨t', fits, holds, goesOn⟩ | ⟨b, s, fault, near, stops, stopped⟩⟩ := later
  · rw [visits, Nat.add_assoc] at holds goesOn
    refine ⟨n + m, .inl ⟨t', fits, holds, fun more => ?_⟩⟩
    rw [Nat.add_assoc, goes, goesOn]
  · refine ⟨n + m, .inr ⟨b, s, fault, near, stops, fun more => ?_⟩⟩
    rw [Nat.add_assoc, goes, stopped]

/-- Whenever the given states are on top of the stack, the run gets to what lies below them. -/
def Clears (A : Analysis σ) (f : Procedure) (Near Far : BlockId → σ → Prop)
    (todo : List (BlockId × σ)) : Prop :=
  ∀ t rest visits, t.Fits f → Holds A Near Far ⟨t, todo ++ rest, visits⟩ →
    GetsTo A f Near Far ⟨t, todo ++ rest, visits⟩ rest

theorem clears_of_each (each : ∀ next ∈ todo, Clears A f Near Far [next]) :
    Clears A f Near Far todo := by
  induction todo with
  | nil =>
      intro t rest visits fits holds
      exact ⟨0, .inl ⟨t, fits, holds, fun more => by rw [Nat.zero_add]; rfl⟩⟩
  | cons next others ih =>
      intro t rest visits fits holds
      have first := each next List.mem_cons_self t (others ++ rest) visits fits holds
      obtain ⟨n, ⟨t', fits', holds', goesOn⟩ | stopped⟩ := first
      · refine GetsTo.after goesOn rfl ?_
        exact ih (fun later member => each later (List.mem_cons_of_mem _ member)) t' rest _ fits'
          holds'
      · exact ⟨n, .inr stopped⟩

/-- A block is worked off together with everything it leads to. -/
theorem clears_of_acc (closed : f.Closed) (lists : A.ListsEdges f)
    (preserves : A.Preserves f Near Far) (inside : ∀ b s, Near b s → b < f.numBlocks)
    (acc : Acc (fun c b => A.Next f b c) b) : ∀ x, Clears A f Near Far [(b, x)] := by
  induction acc with
  | intro b _ ih =>
      intro x t rest visits fits holds
      have came : Near b x := holds.pending b x List.mem_cons_self
      rcases visit_outcome (A := A) closed fits (inside b x came) x with
        ⟨⟨t', passed⟩, visited⟩ | ⟨fault, stops, failed⟩
      · have stepped : step A f ⟨t, (b, x) :: rest, visits⟩ =
            .ok ⟨t', passed.reverse ++ rest, visits + 1⟩ := bind_eq_ok_iff.mpr ⟨_, visited, rfl⟩
        have any := step_anyStep (by simp) stepped
        obtain ⟨flow, done⟩ := visit_visited visited
        -- what the block passes on lies further along the edges
        have each : ∀ next ∈ passed.reverse, Clears A f Near Far [next] := by
          rintro ⟨dest, y⟩ member
          rcases done.passed with ⟨-, nothing⟩ | onward
          · rw [nothing] at member
            cases member
          · have sends := (Analysis.mem_onward_iff onward).mp (List.mem_reverse.mp member)
            exact ih dest (sends.next closed lists (inside b x came) done.transfer) y
        refine GetsTo.after (drain_of_step (by simp) stepped) rfl ?_
        exact clears_of_each each t' rest (visits + 1) (AnyRun.fits (.single any) fits)
          (holds.step preserves any)
      · have merged : Near b (A.merge (t.nearAt A.direction b) x) :=
          Analysis.merge_keeps (preserves.near b) (holds.near b) came
        have stopped : step A f ⟨t, (b, x) :: rest, visits⟩ = .error fault := by
          simp only [step, failed]
          rfl
        exact ⟨1, .inr ⟨b, _, fault, merged, stops, drain_of_fault (by simp) stopped⟩⟩

/-! ## Whole runs -/

/-- A run from the tables drains, under every limit that leaves it enough visits. -/
def DrainsFrom (A : Analysis σ) (f : Procedure) (t : Tables σ) : Prop :=
  ∃ done : Worklist σ, done.pending = [] ∧
    ∀ limit, done.visits ≤ limit → run A f limit t = .ok done

/-- A run from the tables is stopped by a block that does not carry a state across, after some
number of visits. -/
def StopsFrom (A : Analysis σ) (f : Procedure) (Near : BlockId → σ → Prop) (t : Tables σ) : Prop :=
  ∃ n b s fault, Near b s ∧ A.transfer f b s = .error fault ∧
    ∀ limit, n ≤ limit → run A f limit t = .error fault

/-- Where no cycle can be reached, a run drains or a block stops it. -/
theorem drains_or_stops (closed : f.Closed) (lists : A.ListsEdges f) (acyclic : A.Acyclic f)
    (preserves : A.Preserves f Near Far) (inside : ∀ b s, Near b s → b < f.numBlocks)
    {t : Tables σ} (fits : t.Fits f) (near : ∀ b s, t.nearAt A.direction b = some s → Near b s)
    (far : ∀ b s, t.farAt A.direction b = some s → Far b s) :
    DrainsFrom A f t ∨ StopsFrom A f Near t := by
  obtain ⟨seeds, found, -⟩ := A.seeds_of_closed closed
  let todo : List (BlockId × σ) := seeds.map (·, A.boundary f)
  have started : start A f t = .ok ⟨t, todo ++ [], 0⟩ := by
    rw [List.append_nil]
    exact start_eq_ok_iff.mpr ⟨seeds, found, rfl⟩
  have pending : ∀ dest x, (dest, x) ∈ todo → dest ∈ seeds ∧ x = A.boundary f := by
    intro dest x member
    obtain ⟨b, seed, same⟩ := List.mem_map.mp member
    cases same
    exact ⟨seed, rfl⟩
  have holds : Holds A Near Far ⟨t, todo ++ [], 0⟩ := by
    refine ⟨near, far, fun dest x member => ?_⟩
    rw [List.append_nil] at member
    obtain ⟨seed, rfl⟩ := pending dest x member
    exact preserves.seed seeds found dest seed
  have each : ∀ next ∈ todo, Clears A f Near Far [next] := by
    rintro ⟨dest, x⟩ member
    exact clears_of_acc closed lists preserves inside
      (Analysis.acc_of_acyclic closed acyclic (.seed found (pending dest x member).1)) x
  have limited : ∀ {n limit}, n ≤ limit →
      run A f limit t = drain A f (n + (limit - n)) ⟨t, todo ++ [], 0⟩ := by
    intro n limit enough
    rw [run, started, Nat.add_sub_cancel' enough]
    rfl
  obtain ⟨n, ⟨t', -, -, goesOn⟩ | ⟨b, s, fault, good, stops, stopped⟩⟩ :=
    clears_of_each each t [] 0 fits holds
  · refine .inl ⟨⟨t', [], 0 + n⟩, rfl, fun limit enough => ?_⟩
    rw [limited (Nat.zero_add n ▸ enough), goesOn]
    cases limit - n <;> rfl
  · exact .inr ⟨n, b, s, fault, good, stops, fun limit enough => by
      rw [limited enough, stopped]⟩

/-- Where no cycle can be reached, a problem whose blocks carry good states across drains. -/
theorem drains_of_acyclic (closed : f.Closed) (lists : A.ListsEdges f) (acyclic : A.Acyclic f)
    {Good : σ → Prop}
    (preserves : A.Preserves f (fun b s => b < f.numBlocks ∧ Good s) (fun _ s => Good s))
    (returns : ∀ b s, b < f.numBlocks → Good s → ∃ flow, A.transfer f b s = .ok flow) :
    Drains A f := by
  rcases drains_or_stops closed lists acyclic preserves (fun _ _ near => near.1)
    (Tables.fits_fresh f) (by simp [Tables.nearAt_fresh]) (by simp [Tables.farAt_fresh])
    with drains | ⟨n, b, s, fault, ⟨here, good⟩, stops, -⟩
  · exact drains
  · obtain ⟨flow, carried⟩ := returns b s here good
    rw [stops] at carried
    cases carried

end Worklist

end FlowGraph
