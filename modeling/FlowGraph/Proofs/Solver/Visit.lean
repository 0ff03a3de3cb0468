import FlowGraph.Proofs.Fault
import FlowGraph.Solver.Worklist
import Mathlib.Logic.Relation

/-!
# Visits and runs

What one visit does, said once.  A visit of a block merges the incoming state into the near end,
carries the result across the block and merges that into the far end.  Other blocks keep their
states.  Either nothing changed and nothing is passed on, or the block passes on what `onward`
lists (`Visited`).

`AnyStep` is the same loop without its stack: it visits any one of the pending states and keeps
the others in any order.  The worklist is one way of choosing, so what holds along every `AnyRun`
holds of `drain`.
-/

namespace FlowGraph

variable {σ : Type}

/-! ## The two ends of a block -/

namespace Tables

/-- The state at the near end of a block, if there is one. -/
def nearAt (t : Tables σ) (d : Direction) (b : BlockId) : Option σ := (t.near d)[b]?.join

/-- The state at the far end of a block, if there is one. -/
def farAt (t : Tables σ) (d : Direction) (b : BlockId) : Option σ := (t.far d)[b]?.join

/-- Both tables have one entry per block. -/
def Fits (t : Tables σ) (f : Procedure) : Prop :=
  t.entry.size = f.numBlocks ∧ t.exit.size = f.numBlocks

theorem fits_fresh (f : Procedure) : (fresh f : Tables σ).Fits f := by
  simp [Fits, fresh]

theorem Fits.lt_of_nearAt {t : Tables σ} {f : Procedure} (fits : t.Fits f) {d : Direction}
    {b : BlockId} {s : σ} (near : t.nearAt d b = some s) : b < f.numBlocks := by
  have size : (t.near d).size = f.numBlocks := by
    cases d with
    | forward => exact fits.1
    | backward => exact fits.2
  rw [nearAt, Option.join_eq_some_iff, Array.getElem?_eq_some_iff] at near
  exact size ▸ near.1

theorem nearAt_fresh (f : Procedure) (d : Direction) (b : BlockId) :
    (fresh f : Tables σ).nearAt d b = none := by
  cases d <;> simp only [nearAt, near, fresh, Array.getElem?_replicate] <;> split <;> rfl

theorem farAt_fresh (f : Procedure) (d : Direction) (b : BlockId) :
    (fresh f : Tables σ).farAt d b = none := by
  cases d <;> simp only [farAt, far, fresh, Array.getElem?_replicate] <;> split <;> rfl

theorem sizes_record (t : Tables σ) (d : Direction) (b : BlockId) (x y : σ) :
    (t.record d b x y).entry.size = t.entry.size ∧ (t.record d b x y).exit.size = t.exit.size := by
  cases d <;> simp [record]

theorem nearAt_record {t : Tables σ} {d : Direction} {b : BlockId} {x y : σ}
    (inside : b < (t.near d).size) : (t.record d b x y).nearAt d b = some x := by
  cases d <;> simp_all [nearAt, near, record, Option.join_some]

theorem farAt_record {t : Tables σ} {d : Direction} {b : BlockId} {x y : σ}
    (inside : b < (t.far d).size) : (t.record d b x y).farAt d b = some y := by
  cases d <;> simp_all [farAt, far, record, Option.join_some]

theorem nearAt_record_of_ne {t : Tables σ} {d : Direction} {b c : BlockId} {x y : σ}
    (other : c ≠ b) : (t.record d b x y).nearAt d c = t.nearAt d c := by
  cases d <;> simp [nearAt, near, record, Array.getElem?_setIfInBounds_ne other.symm]

theorem farAt_record_of_ne {t : Tables σ} {d : Direction} {b c : BlockId} {x y : σ}
    (other : c ≠ b) : (t.record d b x y).farAt d c = t.farAt d c := by
  cases d <;> simp [farAt, far, record, Array.getElem?_setIfInBounds_ne other.symm]

/-- Tables of optional states differ only in their sizes or in a state. -/
theorem eq_of_join_eq {xs ys : Array (Option σ)} (sizes : xs.size = ys.size)
    (agree : ∀ b : BlockId, xs[b]?.join = ys[b]?.join) : xs = ys := by
  refine Array.ext sizes fun b left right => ?_
  have here := agree b
  rwa [Array.getElem?_eq_getElem left, Array.getElem?_eq_getElem right, Option.join_some,
    Option.join_some] at here

/-- Tables of one procedure that agree at both ends of every block are equal. -/
theorem ext_ends {t u : Tables σ} {f : Procedure} {d : Direction} (left : t.Fits f)
    (right : u.Fits f) (near : ∀ b, t.nearAt d b = u.nearAt d b)
    (far : ∀ b, t.farAt d b = u.farAt d b) : t = u := by
  have entries := left.1.trans right.1.symm
  have exits := left.2.trans right.2.symm
  rw [Tables.mk.injEq]
  cases d with
  | forward => exact ⟨eq_of_join_eq entries near, eq_of_join_eq exits far⟩
  | backward => exact ⟨eq_of_join_eq entries far, eq_of_join_eq exits near⟩

end Tables

namespace Worklist

variable [DecidableEq σ] {A : Analysis σ} {f : Procedure}

/-! ## One visit -/

/-- What a visit that ends normally does.  `flow` is what the block makes of its new near state. -/
structure Visited (A : Analysis σ) (f : Procedure) (t : Tables σ) (b : BlockId) (incoming : σ)
    (flow : Flow σ) (t' : Tables σ) (passed : List (BlockId × σ)) : Prop where
  /-- The block is one of the procedure's. -/
  inside : b < (t.near A.direction).size
  /-- The state carried across is the merged one. -/
  transfer : A.transfer f b (A.merge (t.nearAt A.direction b) incoming) = .ok flow
  /-- The near end has the merged state. -/
  near : t'.nearAt A.direction b = some (A.merge (t.nearAt A.direction b) incoming)
  /-- The far end has what the block made of it, merged. -/
  far : t'.farAt A.direction b = some (A.merge (t.farAt A.direction b) flow.state)
  /-- The near ends of other blocks are as before. -/
  nearOther : ∀ c, c ≠ b → t'.nearAt A.direction c = t.nearAt A.direction c
  /-- The far ends of other blocks are as before. -/
  farOther : ∀ c, c ≠ b → t'.farAt A.direction c = t.farAt A.direction c
  /-- The tables keep their sizes. -/
  sizes : t'.entry.size = t.entry.size ∧ t'.exit.size = t.exit.size
  /-- Either nothing happened, or the block passes its states on. -/
  passed : t' = t ∧ passed = [] ∨
    A.onward f b flow (A.merge (t.farAt A.direction b) flow.state) = .ok passed

theorem visit_visited {t t' : Tables σ} {b : BlockId} {incoming : σ}
    {passed : List (BlockId × σ)} (visited : visit A f t b incoming = .ok (t', passed)) :
    ∃ flow, Visited A f t b incoming flow t' passed := by
  simp only [visit, bind_eq_ok_iff, lookup_eq_ok_iff] at visited
  obtain ⟨near?, atNear, far?, atFar, flow, carried, rest⟩ := visited
  have nearSize : b < (t.near A.direction).size := (Array.getElem?_eq_some_iff.mp atNear).1
  have farSize : b < (t.far A.direction).size := (Array.getElem?_eq_some_iff.mp atFar).1
  have hnear : t.nearAt A.direction b = near? := by rw [Tables.nearAt, atNear, Option.join_some]
  have hfar : t.farAt A.direction b = far? := by rw [Tables.farAt, atFar, Option.join_some]
  subst hnear hfar
  refine ⟨flow, ?_⟩
  split at rest
  next unchanged =>
    rw [pure_eq_ok_iff, Prod.mk.injEq] at rest
    obtain ⟨rfl, rfl⟩ := rest
    exact ⟨nearSize, carried, unchanged.1, unchanged.2, fun _ _ => rfl, fun _ _ => rfl,
      ⟨rfl, rfl⟩, Or.inl ⟨rfl, rfl⟩⟩
  next =>
    obtain ⟨listed, onward, rest⟩ := bind_eq_ok_iff.mp rest
    rw [pure_eq_ok_iff, Prod.mk.injEq] at rest
    obtain ⟨rfl, rfl⟩ := rest
    exact ⟨nearSize, carried, Tables.nearAt_record nearSize, Tables.farAt_record farSize,
      fun _ other => Tables.nearAt_record_of_ne other,
      fun _ other => Tables.farAt_record_of_ne other, Tables.sizes_record .., Or.inr onward⟩

/-! ## Runs in any order -/

/-- One visit of any pending state.  The others, and what is passed on, stay pending in any
order. -/
inductive AnyStep (A : Analysis σ) (f : Procedure) : Worklist σ → Worklist σ → Prop where
  | visit {w : Worklist σ} {b : BlockId} {incoming : σ} {rest pending passed : List (BlockId × σ)}
      {tables : Tables σ} :
      w.pending.Perm ((b, incoming) :: rest) →
      Worklist.visit A f w.tables b incoming = .ok (tables, passed) →
      pending.Perm (passed ++ rest) →
      AnyStep A f w ⟨tables, pending, w.visits + 1⟩

/-- Any number of visits in any order. -/
abbrev AnyRun (A : Analysis σ) (f : Procedure) : Worklist σ → Worklist σ → Prop :=
  Relation.ReflTransGen (AnyStep A f)

/-- What one visit of any pending state does. -/
theorem AnyStep.visited {w w' : Worklist σ} (stepped : AnyStep A f w w') :
    ∃ b incoming rest flow passed, w.pending.Perm ((b, incoming) :: rest) ∧
      Visited A f w.tables b incoming flow w'.tables passed ∧
      w'.pending.Perm (passed ++ rest) := by
  cases stepped with
  | visit popped visited pushed =>
      obtain ⟨flow, done⟩ := visit_visited visited
      exact ⟨_, _, _, flow, _, popped, done, pushed⟩

/-- The stack is one way of choosing the next state. -/
theorem step_anyStep {w w' : Worklist σ} (pending : w.pending ≠ [])
    (stepped : step A f w = .ok w') : AnyStep A f w w' := by
  obtain ⟨t, todo, visits⟩ := w
  cases todo with
  | nil => exact absurd rfl pending
  | cons next rest =>
      simp only [step, bind_eq_ok_iff, pure_eq_ok_iff] at stepped
      obtain ⟨⟨tables, passed⟩, visited, rfl⟩ := stepped
      exact .visit (.refl _) visited ((List.reverse_perm passed).append_right rest)

/-- Draining the stack is a run that leaves nothing pending. -/
theorem drain_anyRun {limit : Nat} {w done : Worklist σ} (drained : drain A f limit w = .ok done) :
    AnyRun A f w done ∧ done.pending = [] := by
  induction limit generalizing w with
  | zero =>
      rw [drain] at drained
      split at drained
      next empty =>
        cases drained
        exact ⟨.refl, List.isEmpty_iff.mp empty⟩
      next => cases drained
  | succ limit ih =>
      rw [drain] at drained
      split at drained
      next empty =>
        cases drained
        exact ⟨.refl, List.isEmpty_iff.mp empty⟩
      next pending =>
        split at drained
        next stepped =>
          obtain ⟨others, empty⟩ := ih drained
          have first := step_anyStep (fun none => pending (List.isEmpty_iff.mpr none)) stepped
          exact ⟨.head first others, empty⟩
        next => cases drained

theorem run_anyRun {limit : Nat} {t : Tables σ} {done : Worklist σ}
    (ran : run A f limit t = .ok done) :
    ∃ w, start A f t = .ok w ∧ AnyRun A f w done ∧ done.pending = [] := by
  obtain ⟨w, started, drained⟩ := bind_eq_ok_iff.mp ran
  exact ⟨w, started, drain_anyRun drained⟩

omit [DecidableEq σ] in
/-- A run starts with the boundary state pending at every seed. -/
theorem start_eq_ok_iff {t : Tables σ} {w : Worklist σ} : start A f t = .ok w ↔
    ∃ seeds, A.seeds f = .ok seeds ∧ ⟨t, seeds.map (·, A.boundary f), 0⟩ = w := by
  simp only [start, bind_eq_ok_iff, pure_eq_ok_iff]

/-- What every visit keeps, every run keeps. -/
theorem AnyRun.keeps {P : Worklist σ → Prop} {w w' : Worklist σ}
    (step : ∀ u u', AnyStep A f u u' → P u → P u') (run : AnyRun A f w w') (kept : P w) : P w' := by
  induction run with
  | refl => exact kept
  | tail _ last ih => exact step _ _ last ih

/-- A run keeps the sizes of the tables. -/
theorem AnyRun.fits {w w' : Worklist σ} (run : AnyRun A f w w') (fits : w.tables.Fits f) :
    w'.tables.Fits f := by
  refine run.keeps (P := fun w => w.tables.Fits f) ?_ fits
  intro u u' stepped fits
  obtain ⟨b, incoming, rest, flow, passed, popped, done, pushed⟩ := stepped.visited
  exact ⟨done.sizes.1.trans fits.1, done.sizes.2.trans fits.2⟩

end Worklist

end FlowGraph
