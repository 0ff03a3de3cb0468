import FlowGraph.Proofs.Solver.Invariants
import FlowGraph.Solver.Solution
import Mathlib.Algebra.Order.BigOperators.Group.Finset

/-!
# Runs that end

A run ends if states have limited room to move: every recorded state has a number that bounds how
often it can still change, and combining something new into it makes that number smaller
(`Bounded`).  No order of the states is needed.

The measure of a run is lexicographic.  The room that is left at both ends of all blocks comes
first, where an end without a state has more room than any state.  The number of pending states
comes second.  A visit that changes an end takes room away, whatever it puts on the stack, and a
visit that changes nothing takes its state off the stack (`drain_ends`).

The limit on the visits only cuts a run short.  A run that ends has the same result under every
larger limit (`drain_of_le`), so a problem has at most one solution (`solve_unique`).
-/

namespace FlowGraph

variable {σ : Type}

namespace Analysis

/-- The states of a run are good ones, every block carries good states across, and `room` bounds
how often a good state can change, by at most `most`. -/
structure Bounded (A : Analysis σ) (f : Procedure) (Good : σ → Prop) (room : σ → Nat)
    (most : Nat) : Prop where
  keeps : A.Preserves f (fun b s => b < f.numBlocks ∧ Good s) (fun _ s => Good s)
  returns : ∀ b s, b < f.numBlocks → Good s → ∃ flow, A.transfer f b s = .ok flow
  room_le : ∀ s, Good s → room s ≤ most
  shrinks : ∀ x y, Good x → Good y → A.combine x y ≠ x → room (A.combine x y) < room x

end Analysis

namespace Worklist

variable {A : Analysis σ} {f : Procedure} {Good : σ → Prop} {room : σ → Nat} {most : Nat}

/-! ## The room that is left -/

/-- The room at an end.  Without a state it is larger than with any. -/
def roomAt (room : σ → Nat) (most : Nat) : Option σ → Nat
  | none => most + 1
  | some s => room s

/-- The room that is left at both ends of all blocks. -/
def roomLeft (A : Analysis σ) (f : Procedure) (room : σ → Nat) (most : Nat) (t : Tables σ) : Nat :=
  ∑ b ∈ Finset.range f.numBlocks, (roomAt room most (t.nearAt A.direction b) +
    roomAt room most (t.farAt A.direction b))

/-- Merging makes no room, and if it changes anything it takes room away. -/
theorem roomAt_merge (bounded : A.Bounded f Good room most) {recorded : Option σ} {incoming : σ}
    (before : ∀ s, recorded = some s → Good s) (new : Good incoming) :
    roomAt room most (some (A.merge recorded incoming)) ≤ roomAt room most recorded ∧
      (recorded ≠ some (A.merge recorded incoming) →
        roomAt room most (some (A.merge recorded incoming)) < roomAt room most recorded) := by
  cases recorded with
  | none =>
      have small : room incoming < most + 1 := Nat.lt_succ_of_le (bounded.room_le incoming new)
      exact ⟨small.le, fun _ => small⟩
  | some s =>
      have shrinks := bounded.shrinks s incoming (before s rfl) new
      by_cases same : A.combine s incoming = s
      · exact ⟨by simp [roomAt, Analysis.merge, same],
          fun changed => absurd (by simp [Analysis.merge, same]) changed⟩
      · exact ⟨(shrinks same).le, fun _ => shrinks same⟩

variable [DecidableEq σ]

/-- A visit that passes something on, or changes the tables, changes an end of its block. -/
theorem visit_changes {t t' : Tables σ} {b : BlockId} {incoming : σ}
    {passed : List (BlockId × σ)} (visited : visit A f t b incoming = .ok (t', passed)) :
    t' = t ∧ passed = [] ∨ t.nearAt A.direction b ≠ t'.nearAt A.direction b ∨
      t.farAt A.direction b ≠ t'.farAt A.direction b := by
  obtain ⟨flow, done⟩ := visit_visited visited
  rw [done.near, done.far]
  simp only [visit, bind_eq_ok_iff, lookup_eq_ok_iff] at visited
  obtain ⟨near?, atNear, far?, atFar, flow', carried, rest⟩ := visited
  have hnear : t.nearAt A.direction b = near? := by rw [Tables.nearAt, atNear, Option.join_some]
  have hfar : t.farAt A.direction b = far? := by rw [Tables.farAt, atFar, Option.join_some]
  subst hnear hfar
  have sameFlow : flow' = flow := Except.ok.inj (carried.symm.trans done.transfer)
  subst sameFlow
  split at rest
  next =>
    rw [pure_eq_ok_iff, Prod.mk.injEq] at rest
    exact .inl ⟨rest.1.symm, rest.2.symm⟩
  next changed => exact .inr (not_and_or.mp changed)

/-- A visit either changes nothing and passes nothing on, or takes room away. -/
theorem visit_roomLeft (bounded : A.Bounded f Good room most) {w : Worklist σ} {t' : Tables σ}
    {b : BlockId} {incoming : σ} {passed : List (BlockId × σ)}
    (holds : Holds A (fun b s => b < f.numBlocks ∧ Good s) (fun _ s => Good s) w)
    (came : b < f.numBlocks ∧ Good incoming)
    (visited : visit A f w.tables b incoming = .ok (t', passed)) :
    t' = w.tables ∧ passed = [] ∨
      roomLeft A f room most t' < roomLeft A f room most w.tables := by
  obtain ⟨flow, done⟩ := visit_visited visited
  have good : Good (A.merge (w.tables.nearAt A.direction b) incoming) :=
    (Analysis.merge_keeps (P := fun s => b < f.numBlocks ∧ Good s) (bounded.keeps.near b)
      (holds.near b) came).2
  have across : Good flow.state := bounded.keeps.across b _ flow ⟨came.1, good⟩ done.transfer
  obtain ⟨nearLe, nearLt⟩ := roomAt_merge bounded (fun s at_ => (holds.near b s at_).2) came.2
  obtain ⟨farLe, farLt⟩ := roomAt_merge bounded (holds.far b) across
  rw [← done.near] at nearLe nearLt
  rw [← done.far] at farLe farLt
  refine (visit_changes visited).imp_right fun changed => ?_
  refine Finset.sum_lt_sum (fun c _ => ?_) ⟨b, Finset.mem_range.mpr came.1, ?_⟩
  · by_cases same : c = b
    · subst same
      exact Nat.add_le_add nearLe farLe
    · rw [done.nearOther c same, done.farOther c same]
  · rcases changed with near | far
    · exact Nat.add_lt_add_of_lt_of_le (nearLt near) farLe
    · exact Nat.add_lt_add_of_le_of_lt nearLe (farLt far)

/-! ## Draining -/

/-- A run that ends does the same under a larger limit. -/
theorem drain_of_le {limit more : Nat} {w done : Worklist σ} (enough : limit ≤ more)
    (drained : drain A f limit w = .ok done) : drain A f more w = .ok done := by
  induction limit generalizing w more with
  | zero =>
      rw [drain] at drained
      split at drained
      next nothing =>
        cases more with
        | zero => rw [drain, if_pos nothing, drained]
        | succ more => rw [drain, if_pos nothing, drained]
      next => cases drained
  | succ limit ih =>
      obtain ⟨more, rfl⟩ : ∃ n, more = n + 1 := ⟨more - 1, by omega⟩
      rw [drain] at drained ⊢
      split
      next nothing => rwa [if_pos nothing] at drained
      next something =>
        rw [if_neg something] at drained
        split at drained
        next next stepped =>
          exact ih (Nat.le_of_succ_le_succ enough) drained
        next => cases drained

/-- A visit of a block ends normally, unless the block does not carry the merged state across. -/
theorem visit_outcome (closed : f.Closed) {t : Tables σ} (fits : t.Fits f) {b : BlockId}
    (here : b < f.numBlocks) (incoming : σ) :
    (∃ result, visit A f t b incoming = .ok result) ∨
      ∃ fault, A.transfer f b (A.merge (t.nearAt A.direction b) incoming) = .error fault ∧
        visit A f t b incoming = .error fault := by
  have inside : ∀ table : Array (Option σ), table.size = f.numBlocks →
      lookup table b = .ok table[b]?.join := by
    intro table size
    have found := Array.getElem?_eq_getElem (size ▸ here)
    rw [lookup_eq_ok_iff.mpr found, found, Option.join_some]
  have sizes : (t.near A.direction).size = f.numBlocks ∧
      (t.far A.direction).size = f.numBlocks := by
    cases A.direction with
    | forward => exact fits
    | backward => exact fits.symm
  have nearOk : lookup (t.near A.direction) b = .ok (t.nearAt A.direction b) := inside _ sizes.1
  have farOk : lookup (t.far A.direction) b = .ok (t.farAt A.direction b) := inside _ sizes.2
  simp only [visit, nearOk, farOk, bind, Except.bind]
  cases carried : A.transfer f b (A.merge (t.nearAt A.direction b) incoming) with
  | error fault => exact .inr ⟨fault, rfl, rfl⟩
  | ok flow =>
      have onward : ∃ passed,
          A.onward f b flow (A.merge (t.farAt A.direction b) flow.state) = .ok passed := by
        obtain ⟨succs, after, -⟩ := closed.succs b here
        obtain ⟨preds, before, -⟩ := closed.preds b here
        unfold Analysis.onward
        split
        next => exact ⟨_, rfl⟩
        next => exact ⟨_, by rw [after]; rfl⟩
        next => exact ⟨_, by rw [before]; rfl⟩
      obtain ⟨passed, listed⟩ := onward
      left
      dsimp only
      split
      next => exact ⟨_, rfl⟩
      next => exact ⟨_, by rw [listed]; rfl⟩

/-- A visit of a block with a good state ends normally. -/
theorem visit_returns (closed : f.Closed) (bounded : A.Bounded f Good room most) {w : Worklist σ}
    (fits : w.tables.Fits f)
    (holds : Holds A (fun b s => b < f.numBlocks ∧ Good s) (fun _ s => Good s) w)
    {b : BlockId} {incoming : σ} (came : b < f.numBlocks ∧ Good incoming) :
    ∃ result, visit A f w.tables b incoming = .ok result := by
  rcases visit_outcome (A := A) closed fits came.1 incoming with returns | ⟨fault, stops, -⟩
  · exact returns
  · have good : Good (A.merge (w.tables.nearAt A.direction b) incoming) :=
      (Analysis.merge_keeps (P := fun s => b < f.numBlocks ∧ Good s) (bounded.keeps.near b)
        (holds.near b) came).2
    obtain ⟨flow, carried⟩ := bounded.returns b _ came.1 good
    rw [stops] at carried
    cases carried

/-- A run with limited room drains after some number of visits. -/
theorem drain_ends (closed : f.Closed) (bounded : A.Bounded f Good room most) (w : Worklist σ)
    (fits : w.tables.Fits f)
    (holds : Holds A (fun b s => b < f.numBlocks ∧ Good s) (fun _ s => Good s) w) :
    ∃ n done, done.pending = [] ∧ done.visits = w.visits + n ∧ drain A f n w = .ok done := by
  cases pending : w.pending with
  | nil => exact ⟨0, w, pending, rfl, by rw [drain, pending]; rfl⟩
  | cons next rest =>
      obtain ⟨b, incoming⟩ := next
      have came := holds.pending b incoming (by rw [pending]; exact List.mem_cons_self)
      obtain ⟨⟨tables, passed⟩, visited⟩ := visit_returns closed bounded fits holds came
      have stepped : step A f w = .ok ⟨tables, passed.reverse ++ rest, w.visits + 1⟩ := by
        rw [step, pending]
        exact bind_eq_ok_iff.mpr ⟨_, visited, rfl⟩
      have any := step_anyStep (by simp [pending]) stepped
      have smaller : Prod.Lex (· < ·) (· < ·)
          (roomLeft A f room most tables, (passed.reverse ++ rest).length)
          (roomLeft A f room most w.tables, w.pending.length) := by
        rcases visit_roomLeft bounded holds came visited with ⟨rfl, rfl⟩ | less
        · exact .right _ (by simp [pending])
        · exact .left _ _ less
      obtain ⟨n, done, drained, visits, ends⟩ :=
        drain_ends closed bounded ⟨tables, passed.reverse ++ rest, w.visits + 1⟩
          (AnyRun.fits (.single any) fits) (holds.step bounded.keeps any)
      refine ⟨n + 1, done, drained, by rw [visits]; simp only; omega, ?_⟩
      rw [drain, if_neg (by simp [pending]), stepped]
      exact ends
termination_by (roomLeft A f room most w.tables, w.pending.length)
decreasing_by exact smaller

/-- A run from fresh tables drains.  It ends with nothing pending, and its result is that of every
run with at least as many visits allowed. -/
def Drains (A : Analysis σ) (f : Procedure) : Prop :=
  ∃ done : Worklist σ, done.pending = [] ∧
    ∀ limit, done.visits ≤ limit → run A f limit (.fresh f) = .ok done

theorem drains_of_bounded (closed : f.Closed) (bounded : A.Bounded f Good room most) :
    Drains A f := by
  obtain ⟨seeds, found, -⟩ := A.seeds_of_closed closed
  have started : start A f (.fresh f) = .ok ⟨.fresh f, seeds.map (·, A.boundary f), 0⟩ :=
    start_eq_ok_iff.mpr ⟨seeds, found, rfl⟩
  obtain ⟨n, done, drained, visits, ends⟩ := drain_ends closed bounded _ (Tables.fits_fresh f)
    (holds_start bounded.keeps started)
  refine ⟨done, drained, fun limit enough => bind_eq_ok_iff.mpr ⟨_, started, ?_⟩⟩
  rw [visits, Nat.zero_add] at enough
  exact drain_of_le enough ends

/-- A run that drains gives a solution, under any limit that leaves it enough visits. -/
theorem Drains.solution (drains : Drains A f) : ∃ w done, start A f (.fresh f) = .ok w ∧
    AnyRun A f w done ∧ done.pending = [] ∧
      ∀ limit, done.visits ≤ limit → solve A f limit = .ok (done.tables.freeze f) := by
  obtain ⟨done, drained, ends⟩ := drains
  obtain ⟨w, started, ran, -⟩ := run_anyRun (ends done.visits (le_refl _))
  exact ⟨w, done, started, ran, drained,
    fun limit enough => bind_eq_ok_iff.mpr ⟨done, ends limit enough, rfl⟩⟩

/-- Two solutions of a problem are the same, whatever the limits. -/
theorem solve_unique {limit limit' : Nat} {solution solution' : Solution σ}
    (solved : solve A f limit = .ok solution) (solved' : solve A f limit' = .ok solution') :
    solution = solution' := by
  have grow : ∀ {limit solution}, solve A f limit = .ok solution → ∀ more, limit ≤ more →
      solve A f more = .ok solution := by
    intro limit solution solved more enough
    obtain ⟨done, ran, same⟩ := bind_eq_ok_iff.mp solved
    obtain ⟨w, started, drained⟩ := bind_eq_ok_iff.mp ran
    exact bind_eq_ok_iff.mpr
      ⟨done, bind_eq_ok_iff.mpr ⟨w, started, drain_of_le enough drained⟩, same⟩
  have first := grow solved (max limit limit') (le_max_left _ _)
  have second := grow solved' (max limit limit') (le_max_right _ _)
  exact Except.ok.inj (first.symm.trans second)

end Worklist

end FlowGraph
