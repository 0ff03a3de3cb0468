import FlowGraph.Proofs.Solver.Termination

/-!
# Configurations of a solver

A solver starts with fresh tables.  A run lets the boundary state come in at the seeds and visits
blocks until nothing is pending.  Once it has drained, the solver may run again from its tables.  A
configuration occurs if it is met on the way (`Occurs`).

What every part of a visit keeps holds in every configuration that occurs (`Occurs.holds`).  If it
is a property of states, then it holds of all states that the configuration has, recorded or
pending (`Occurs.good`).

A visit looks up the tables, the blocks and what the block refers to.  If the blocks of a closed
procedure look up only what is there, whatever good state comes in, then so do all runs
(`inBounds_of_good`).  A report may be asked for in every configuration (`Shows`).
-/

namespace FlowGraph

variable {σ : Type}

/-- Whatever the direction, a recorded state is at a near end or at a far end. -/
theorem Tables.exists_end_of_mem {t : Tables σ} (d : Direction) {s : σ}
    (recorded : some s ∈ t.entry ∨ some s ∈ t.exit) :
    ∃ b, t.nearAt d b = some s ∨ t.farAt d b = some s := by
  have position : ∀ {table : Array (Option σ)}, some s ∈ table →
      ∃ b : BlockId, table[b]?.join = some s := by
    intro table member
    obtain ⟨b, found⟩ := Array.mem_iff_getElem?.mp member
    exact ⟨b, Option.join_eq_some_iff.mpr found⟩
  cases d with
  | forward =>
      rcases recorded with atEntry | atExit
      · exact (position atEntry).imp fun b => .inl
      · exact (position atExit).imp fun b => .inr
  | backward =>
      rcases recorded with atEntry | atExit
      · exact (position atEntry).imp fun b => .inr
      · exact (position atExit).imp fun b => .inl

namespace Worklist

variable {A : Analysis σ} {f : Procedure} {Near Far : BlockId → σ → Prop} {Good : σ → Prop}
  {w w' done : Worklist σ}

/-- A state is recorded at an end of some block, or it is pending. -/
def Has (w : Worklist σ) (s : σ) : Prop :=
  some s ∈ w.tables.entry ∨ some s ∈ w.tables.exit ∨ ∃ b, (b, s) ∈ w.pending

theorem has_of_exit? {s : σ} {b : BlockId} (found : (w.tables.freeze f).exit? b = some s) :
    w.Has s := by
  have there : w.tables.exit[b]? = some (some s) := Option.join_eq_some_iff.mp found
  exact .inr (.inl (Array.mem_of_getElem? there))

theorem Holds.of_has (holds : Holds A Near Far w) {s : σ} (has : w.Has s) :
    ∃ b, Near b s ∨ Far b s := by
  rcases has with atEntry | atExit | ⟨b, pending⟩
  · obtain ⟨b, near | far⟩ := Tables.exists_end_of_mem A.direction (.inl atEntry)
    · exact ⟨b, .inl (holds.near b s near)⟩
    · exact ⟨b, .inr (holds.far b s far)⟩
  · obtain ⟨b, near | far⟩ := Tables.exists_end_of_mem A.direction (.inr atExit)
    · exact ⟨b, .inl (holds.near b s near)⟩
    · exact ⟨b, .inr (holds.far b s far)⟩
  · exact ⟨b, .inl (holds.pending b s pending)⟩

/-! ## What occurs -/

variable [DecidableEq σ]

/-- The configurations that a solver goes through. -/
inductive Occurs (A : Analysis σ) (f : Procedure) : Worklist σ → Prop where
  /-- The start of the first run. -/
  | start {w : Worklist σ} : start A f (.fresh f) = .ok w → Occurs A f w
  /-- A visit. -/
  | step {w w' : Worklist σ} : Occurs A f w → step A f w = .ok w' → Occurs A f w'
  /-- The start of another run. -/
  | again {w w' : Worklist σ} :
      Occurs A f w → w.pending = [] → Worklist.start A f w.tables = .ok w' → Occurs A f w'

theorem step_eq_self (nothing : w.pending = []) : step A f w = .ok w := by
  obtain ⟨tables, pending, visits⟩ := w
  subst nothing
  rfl

/-- What holds of fresh tables and is kept by every visit holds of the tables of every
configuration. -/
theorem Occurs.keeps {P : Tables σ → Prop} (fresh : P (.fresh f))
    (visits : ∀ u u', AnyStep A f u u' → P u.tables → P u'.tables) (occurs : Occurs A f w) :
    P w.tables := by
  induction occurs with
  | start started =>
      obtain ⟨seeds, -, rfl⟩ := start_eq_ok_iff.mp started
      exact fresh
  | @step w w' _ stepped ih =>
      by_cases nothing : w.pending = []
      · rw [step_eq_self nothing] at stepped
        cases stepped
        exact ih
      · exact visits w w' (step_anyStep nothing stepped) ih
  | again _ _ started ih =>
      obtain ⟨seeds, -, rfl⟩ := start_eq_ok_iff.mp started
      exact ih

theorem Occurs.fits (occurs : Occurs A f w) : w.tables.Fits f :=
  occurs.keeps (P := fun t => t.Fits f) (Tables.fits_fresh f)
    fun _ _ stepped => AnyRun.fits (.single stepped)

theorem Occurs.holds (preserves : A.Preserves f Near Far) (occurs : Occurs A f w) :
    Holds A Near Far w := by
  induction occurs with
  | start started => exact holds_start preserves started
  | @step w w' _ stepped ih =>
      by_cases nothing : w.pending = []
      · rw [step_eq_self nothing] at stepped
        cases stepped
        exact ih
      · exact ih.step preserves (step_anyStep nothing stepped)
  | again _ _ started ih => exact holds_start_of_tables preserves ih.near ih.far started

/-- A property of states that is kept holds of all states, and what is pending is for a block. -/
theorem Occurs.good
    (preserves : A.Preserves f (fun b s => b < f.numBlocks ∧ Good s) (fun _ s => Good s))
    (occurs : Occurs A f w) :
    (∀ b s, (b, s) ∈ w.pending → b < f.numBlocks) ∧ ∀ s, w.Has s → Good s := by
  have holds := occurs.holds preserves
  refine ⟨fun b s pending => (holds.pending b s pending).1, fun s has => ?_⟩
  obtain ⟨b, ⟨-, good⟩ | good⟩ := holds.of_has has
  · exact good
  · exact good

/-- The end of a run occurs if its start does. -/
theorem Occurs.drained {limit : Nat} (occurs : Occurs A f w)
    (drained : drain A f limit w = .ok done) : Occurs A f done := by
  induction limit generalizing w with
  | zero =>
      rw [drain] at drained
      split at drained
      next =>
        cases drained
        exact occurs
      next => cases drained
  | succ limit ih =>
      rw [drain] at drained
      split at drained
      next =>
        cases drained
        exact occurs
      next =>
        split at drained
        next stepped => exact ih (occurs.step stepped) drained
        next => cases drained

theorem run_occurs {limit : Nat} (ran : run A f limit (.fresh f) = .ok done) : Occurs A f done := by
  obtain ⟨w, started, drained⟩ := bind_eq_ok_iff.mp ran
  exact (Occurs.start started).drained drained

/-- A test of the state at a block's exit, passed by the result of a run, is passed by a state of a
configuration. -/
theorem exists_has_of_any {limit : Nat} {b : BlockId} {test : σ → Bool}
    (passes : (run A f limit (.fresh f)).toOption.any
      (fun w => ((w.tables.freeze f).exit? b).any test) = true) :
    ∃ w s, Occurs A f w ∧ w.Has s ∧ test s = true := by
  obtain ⟨w, ran, atExit⟩ := exists_ok_of_any passes
  obtain ⟨s, found, passed⟩ := (Option.any_eq_true _ _).mp atExit
  exact ⟨w, s, run_occurs ran, has_of_exit? found, passed⟩

/-! ## Lookups -/

/-- All runs of a problem look up only what is there.  `key` tells the ids that a state speaks
of. -/
structure InBounds (A : Analysis σ) (f : Procedure) (key : σ → InstId → Prop) : Prop where
  /-- The first run looks up only what is there. -/
  run : ∀ limit, InRange (run A f limit (.fresh f))
  /-- So does every later run, from where the one before has drained. -/
  again : ∀ w, Occurs A f w → w.pending = [] → ∀ limit, InRange (Worklist.run A f limit w.tables)
  /-- The tables have one entry per block, and there is one label per block. -/
  tables : ∀ w, Occurs A f w →
    w.tables.Fits f ∧ (w.tables.freeze f).labels.size = f.numBlocks
  /-- What is pending is for a block of the procedure. -/
  blocks : ∀ w, Occurs A f w → ∀ b s, (b, s) ∈ w.pending → b < f.numBlocks
  /-- States speak of variables only. -/
  keys : ∀ w, Occurs A f w → ∀ s v, w.Has s → key s v → f.op v = .ok .alloca
  /-- A block looks up only what is there, whichever of the states comes in. -/
  transfer : ∀ w, Occurs A f w → ∀ b s, b < f.numBlocks → w.Has s → InRange (A.transfer f b s)

theorem step_inRange (closed : f.Closed)
    (preserves : A.Preserves f (fun b s => b < f.numBlocks ∧ Good s) (fun _ s => Good s))
    (across : ∀ b s, b < f.numBlocks → Good s → InRange (A.transfer f b s))
    (occurs : Occurs A f w) : InRange (step A f w) := by
  have holds := occurs.holds preserves
  have fits := occurs.fits
  obtain ⟨t, pending, visits⟩ := w
  cases pending with
  | nil => exact .ok rfl
  | cons next rest =>
      obtain ⟨b, incoming⟩ := next
      have came := holds.pending b incoming List.mem_cons_self
      have visit : InRange (visit A f t b incoming) := by
        rcases visit_outcome (A := A) closed fits came.1 incoming with
          ⟨result, returns⟩ | ⟨fault, stops, failed⟩
        · exact .ok returns
        · have merged := Analysis.merge_keeps (preserves.near b) (holds.near b) came
          exact (across b _ merged.1 merged.2).of_same_fault stops failed
      exact visit.bind fun result _ => .ok rfl

theorem drain_inRange (closed : f.Closed)
    (preserves : A.Preserves f (fun b s => b < f.numBlocks ∧ Good s) (fun _ s => Good s))
    (across : ∀ b s, b < f.numBlocks → Good s → InRange (A.transfer f b s)) (limit : Nat)
    (occurs : Occurs A f w) : InRange (drain A f limit w) := by
  induction limit generalizing w with
  | zero =>
      rw [drain]
      split
      next => exact .ok rfl
      next => exact fun size index stops => by cases stops
  | succ limit ih =>
      have first := step_inRange closed preserves across occurs
      rw [drain]
      split
      next => exact .ok rfl
      next =>
        split
        next next stepped => exact ih (occurs.step stepped)
        next fault stopped => exact first.of_same_fault stopped rfl

/-- Runs look up only what is there if blocks do, for states that are kept good. -/
theorem inBounds_of_good {key : σ → InstId → Prop} (closed : f.Closed)
    (preserves : A.Preserves f (fun b s => b < f.numBlocks ∧ Good s) (fun _ s => Good s))
    (across : ∀ b s, b < f.numBlocks → Good s → InRange (A.transfer f b s))
    (keys : ∀ s v, Good s → key s v → f.hasVariable v = true) : InBounds A f key := by
  obtain ⟨seeds, found, -⟩ := A.seeds_of_closed closed
  have starts : ∀ t, InRange (start A f t) := fun t => .ok (start_eq_ok_iff.mpr ⟨seeds, found, rfl⟩)
  refine ⟨fun limit => ?_, fun w occurs nothing limit => ?_, fun w occurs => ?_,
    fun w occurs => (occurs.good preserves).1, fun w occurs s v has isKey => ?_,
    fun w occurs b s here has => ?_⟩
  · exact (starts _).bind fun w started =>
      drain_inRange closed preserves across limit (.start started)
  · exact (starts _).bind fun w' started =>
      drain_inRange closed preserves across limit (occurs.again nothing started)
  · exact ⟨occurs.fits, by simp [Tables.freeze, Procedure.numBlocks]⟩
  · exact Procedure.hasVariable_iff.mp (keys s v ((occurs.good preserves).2 s has) isKey)
  · exact across b s here ((occurs.good preserves).2 s has)

theorem InBounds.lt_of_exit? {key : σ → InstId → Prop} (bounds : InBounds A f key)
    (occurs : Occurs A f w) {b : BlockId} {s : σ} {v : InstId}
    (found : (w.tables.freeze f).exit? b = some s) (isKey : key s v) : v < f.numInsts :=
  Procedure.lt_of_op (bounds.keys w occurs s v (has_of_exit? found) isKey)

/-- What is shown of the tables is found in every configuration. -/
def Shows {α : Type} (A : Analysis σ) (f : Procedure) (report : Solution σ → Except Fault α) :
    Prop :=
  ∀ w, Occurs A f w → ∃ shown, report (w.tables.freeze f) = .ok shown

end Worklist

end FlowGraph
