import FlowGraph.Proofs.Procedure.Exits
import FlowGraph.Proofs.Solver.Equations

/-!
# What holds of every state of a run

A property of near states and a property of far states hold all along a run if they hold at the
seeds and every part of a visit keeps them: merging, crossing a block and sending on (`Preserves`).
Then they hold of every recorded and of every pending state, in whatever order the pending states
are visited (`AnyRun.holds`).

In a procedure without loose ends this comes down to a property of states alone, which the boundary
has, which combining keeps and which blocks keep (`preserves_of_states`).
-/

namespace FlowGraph

variable {σ : Type}

namespace Analysis

/-- What holds of near states and of far states, and is kept by every part of a visit. -/
structure Preserves (A : Analysis σ) (f : Procedure) (Near Far : BlockId → σ → Prop) : Prop where
  seed : ∀ seeds, A.seeds f = .ok seeds → ∀ b ∈ seeds, Near b (A.boundary f)
  near : ∀ b x y, Near b x → Near b y → Near b (A.combine x y)
  far : ∀ b x y, Far b x → Far b y → Far b (A.combine x y)
  across : ∀ b s flow, Near b s → A.transfer f b s = .ok flow → Far b flow.state
  sends : ∀ b s flow far dest x, Near b s → A.transfer f b s = .ok flow → Far b far →
    A.Sends f b flow far dest x → Near dest x

/-- Merging keeps what combining keeps. -/
theorem merge_keeps {A : Analysis σ} {P : σ → Prop} (combine : ∀ x y, P x → P y → P (A.combine x y))
    {recorded : Option σ} {incoming : σ} (before : ∀ s, recorded = some s → P s)
    (new : P incoming) : P (A.merge recorded incoming) := by
  cases recorded with
  | none => exact new
  | some s => exact combine s incoming (before s rfl) new

end Analysis

namespace Worklist

variable {A : Analysis σ} {f : Procedure} {Near Far : BlockId → σ → Prop}

/-- The properties hold of everything recorded and of everything pending. -/
structure Holds (A : Analysis σ) (Near Far : BlockId → σ → Prop) (w : Worklist σ) : Prop where
  near : ∀ b s, w.tables.nearAt A.direction b = some s → Near b s
  far : ∀ b s, w.tables.farAt A.direction b = some s → Far b s
  pending : ∀ dest x, (dest, x) ∈ w.pending → Near dest x

/-- At the start of a run the seeds are pending.  What held of the tables still does. -/
theorem holds_start_of_tables (preserves : A.Preserves f Near Far) {t : Tables σ} {w : Worklist σ}
    (near : ∀ b s, t.nearAt A.direction b = some s → Near b s)
    (far : ∀ b s, t.farAt A.direction b = some s → Far b s) (started : start A f t = .ok w) :
    Holds A Near Far w := by
  obtain ⟨seeds, found, rfl⟩ := start_eq_ok_iff.mp started
  refine ⟨near, far, fun dest x member => ?_⟩
  obtain ⟨b, seed, same⟩ := List.mem_map.mp member
  cases same
  exact preserves.seed seeds found dest seed

theorem holds_start (preserves : A.Preserves f Near Far) {w : Worklist σ}
    (started : start A f (.fresh f) = .ok w) : Holds A Near Far w :=
  holds_start_of_tables preserves (by simp [Tables.nearAt_fresh]) (by simp [Tables.farAt_fresh])
    started

variable [DecidableEq σ]

/-- One visit keeps the properties. -/
theorem Holds.step (preserves : A.Preserves f Near Far) {w w' : Worklist σ}
    (stepped : AnyStep A f w w') (holds : Holds A Near Far w) : Holds A Near Far w' := by
  obtain ⟨b, incoming, rest, flow, passed, popped, done, pushed⟩ := stepped.visited
  have came : Near b incoming := holds.pending b incoming (popped.symm.subset List.mem_cons_self)
  have near : Near b (A.merge (w.tables.nearAt A.direction b) incoming) :=
    Analysis.merge_keeps (preserves.near b) (holds.near b) came
  have far : Far b (A.merge (w.tables.farAt A.direction b) flow.state) :=
    Analysis.merge_keeps (preserves.far b) (holds.far b)
      (preserves.across b _ flow near done.transfer)
  refine ⟨fun c s atNear => ?_, fun c s atFar => ?_, fun dest x member => ?_⟩
  · by_cases same : c = b
    · subst same
      rw [done.near] at atNear
      cases atNear
      exact near
    · rw [done.nearOther c same] at atNear
      exact holds.near c s atNear
  · by_cases same : c = b
    · subst same
      rw [done.far] at atFar
      cases atFar
      exact far
    · rw [done.farOther c same] at atFar
      exact holds.far c s atFar
  · rcases List.mem_append.mp (pushed.subset member) with new | old
    · rcases done.passed with ⟨-, nothing⟩ | onward
      · rw [nothing] at new
        cases new
      · exact preserves.sends b _ flow _ dest x near done.transfer far
          ((Analysis.mem_onward_iff onward).mp new)
    · exact holds.pending dest x (popped.symm.subset (List.mem_cons_of_mem _ old))

/-- Every run from fresh tables keeps the properties. -/
theorem AnyRun.holds (preserves : A.Preserves f Near Far) {w w' : Worklist σ}
    (started : start A f (.fresh f) = .ok w) (ran : AnyRun A f w w') : Holds A Near Far w' :=
  ran.keeps (fun _ _ stepped => Holds.step preserves stepped) (holds_start preserves started)

end Worklist

/-! ## Properties of states alone -/

namespace Analysis

variable {A : Analysis σ} {f : Procedure} {Good : σ → Prop}

/-- A run on a closed procedure has its seeds, and they are blocks. -/
theorem seeds_of_closed (A : Analysis σ) (closed : f.Closed) :
    ∃ seeds, A.seeds f = .ok seeds ∧ ∀ b ∈ seeds, b < f.numBlocks := by
  cases direction : A.direction with
  | forward =>
      refine ⟨[f.entry], by rw [seeds, direction], ?_⟩
      intro b member
      rw [List.mem_singleton.mp member]
      exact closed.entry
  | backward =>
      obtain ⟨exits, found, -, members⟩ := closed.exitBlocks
      refine ⟨exits, by rw [seeds, direction]; exact found, ?_⟩
      intro b member
      exact closed.lt_of_reachable ((members b).mp member).1

/-- The blocks that a block of a closed procedure sends to are blocks, if the listed ones are. -/
theorem Sends.lt (closed : f.Closed) {b dest : BlockId} {flow : Flow σ} {far x : σ}
    (inside : b < f.numBlocks) (listed : ∀ state edges, flow = .split state edges →
      ∀ dest x, (dest, x) ∈ edges → dest < f.numBlocks)
    (sends : A.Sends f b flow far dest x) : dest < f.numBlocks := by
  cases sends with
  | along _ _ found member => exact closed.edge_lt ⟨_, found, member⟩
  | listed _ split member => exact listed _ _ split dest x member
  | against _ found member =>
      obtain ⟨preds, found', members⟩ := closed.preds b inside
      rw [found] at found'
      cases found'
      exact ((members dest).mp member).lt

/-- A property of states that the boundary has and that combining and crossing a block keep. -/
theorem preserves_of_states (closed : f.Closed) (boundary : Good (A.boundary f))
    (combine : ∀ x y, Good x → Good y → Good (A.combine x y))
    (across : ∀ b s flow, b < f.numBlocks → Good s → A.transfer f b s = .ok flow →
      Good flow.state)
    (listed : ∀ b s state edges, b < f.numBlocks → Good s →
      A.transfer f b s = .ok (.split state edges) →
      ∀ dest x, (dest, x) ∈ edges → dest < f.numBlocks ∧ Good x) :
    A.Preserves f (fun b s => b < f.numBlocks ∧ Good s) (fun _ s => Good s) where
  seed seeds found b member := by
    obtain ⟨seeds', found', inside⟩ := A.seeds_of_closed closed
    rw [found] at found'
    cases found'
    exact ⟨inside b member, boundary⟩
  near b x y left right := ⟨left.1, combine x y left.2 right.2⟩
  far _ x y left right := combine x y left right
  across b s flow good carried := across b s flow good.1 good.2 carried
  sends b s flow far dest x good carried goodFar sends := by
    refine ⟨sends.lt closed good.1 fun state edges split dest x member => ?_, ?_⟩
    · subst split
      exact (listed b s state edges good.1 good.2 carried dest x member).1
    · cases sends with
      | along => exact goodFar
      | listed _ split member =>
          subst split
          exact (listed b s _ _ good.1 good.2 carried dest x member).2
      | against => exact goodFar

end Analysis

end FlowGraph
