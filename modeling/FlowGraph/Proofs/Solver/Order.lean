import FlowGraph.Solver.Analysis

/-!
# The order of an analysis

A combination that is associative, commutative and idempotent orders the states: `x` is below `y`
if combining `x` into `y` gives `y`.  The combination of two states is then the least state above
both.  `merge` extends this to places where nothing is recorded yet, which count as lowest.

Flows are ordered by their states, edge by edge.  A transfer is monotone if larger states give
larger flows.

Where states are sets and the combination is union, the order is inclusion.
-/

namespace FlowGraph

variable {σ : Type}

namespace Analysis

/-! ## The order of the states -/

/-- Combining a state into another changes nothing. -/
def Below (A : Analysis σ) (incoming recorded : σ) : Prop :=
  A.combine recorded incoming = recorded

/-- The combination is associative, commutative and idempotent. -/
structure IsJoin (A : Analysis σ) : Prop where
  assoc : ∀ x y z, A.combine (A.combine x y) z = A.combine x (A.combine y z)
  comm : ∀ x y, A.combine x y = A.combine y x
  idem : ∀ x, A.combine x x = x

/-- The combination of good states is good, and on good states it is associative, commutative and
idempotent. -/
structure IsJoinOn (A : Analysis σ) (Good : σ → Prop) : Prop where
  good : ∀ x y, Good x → Good y → Good (A.combine x y)
  assoc : ∀ x y z, Good x → Good y → Good z →
    A.combine (A.combine x y) z = A.combine x (A.combine y z)
  comm : ∀ x y, Good x → Good y → A.combine x y = A.combine y x
  idem : ∀ x, Good x → A.combine x x = x

/-- The order where a state may be missing.  No state is below every state. -/
def Below? (A : Analysis σ) : Option σ → Option σ → Prop
  | none, _ => True
  | some _, none => False
  | some x, some y => A.Below x y

theorem exists_of_below? {A : Analysis σ} {x : σ} {y : Option σ} (below : A.Below? (some x) y) :
    ∃ s, y = some s ∧ A.Below x s := by
  cases y with
  | none => exact below.elim
  | some s => exact ⟨s, rfl, below⟩

namespace IsJoin

variable {A : Analysis σ} (join : A.IsJoin)
include join

theorem below_refl (x : σ) : A.Below x x := join.idem x

theorem below_trans {x y z : σ} (first : A.Below x y) (second : A.Below y z) : A.Below x z := by
  unfold Below at *
  calc A.combine z x = A.combine (A.combine z y) x := by rw [second]
    _ = A.combine z (A.combine y x) := join.assoc z y x
    _ = z := by rw [first, second]

theorem below_antisymm {x y : σ} (first : A.Below x y) (second : A.Below y x) : x = y := by
  rw [← second, join.comm, first]

theorem below_combine_left (x y : σ) : A.Below x (A.combine x y) := by
  unfold Below
  rw [join.comm, ← join.assoc, join.idem]

theorem below_combine_right (x y : σ) : A.Below y (A.combine x y) := by
  rw [join.comm]
  exact join.below_combine_left y x

theorem combine_below {x y z : σ} (first : A.Below x z) (second : A.Below y z) :
    A.Below (A.combine x y) z := by
  unfold Below at *
  rw [← join.assoc, first, second]

theorem below?_trans {x y z : Option σ} (first : A.Below? x y) (second : A.Below? y z) :
    A.Below? x z := by
  cases x with
  | none => trivial
  | some x =>
      cases y with
      | none => exact first.elim
      | some y =>
          cases z with
          | none => exact second.elim
          | some z => exact join.below_trans first second

theorem below?_antisymm {x y : Option σ} (first : A.Below? x y) (second : A.Below? y x) :
    x = y := by
  cases x with
  | none =>
      cases y with
      | none => rfl
      | some y => exact second.elim
  | some x =>
      cases y with
      | none => exact first.elim
      | some y => rw [join.below_antisymm first second]

/-- What is recorded next is the least state above both. -/
theorem merge_below {recorded : Option σ} {incoming z : σ} (first : A.Below? recorded (some z))
    (second : A.Below incoming z) : A.Below (A.merge recorded incoming) z := by
  cases recorded with
  | none => exact second
  | some x => exact join.combine_below first second

end IsJoin

/-! ## Flows -/

/-- One flow is below another: both are of one kind, the far state is below, and each listed edge
is matched by an edge to the same block with a state above. -/
def FlowBelow (A : Analysis σ) : Flow σ → Flow σ → Prop
  | .uniform x, .uniform y => A.Below x y
  | .split x edges, .split y edges' =>
      A.Below x y ∧
        ∀ dest e, (dest, e) ∈ edges → ∃ e', (dest, e') ∈ edges' ∧ A.Below e e'
  | _, _ => False

/-- A larger state gives a larger flow. -/
def IsMonotone (A : Analysis σ) (f : Procedure) : Prop :=
  ∀ b x y flow flow', A.Below x y → A.transfer f b x = .ok flow → A.transfer f b y = .ok flow' →
    A.FlowBelow flow flow'

theorem FlowBelow.state {A : Analysis σ} :
    ∀ {flow flow' : Flow σ}, A.FlowBelow flow flow' → A.Below flow.state flow'.state
  | .uniform _, .uniform _, below => below
  | .split _ _, .split _ _, below => below.1

/-! ## Sets under union -/

section Union

variable {α : Type} {cmp : α → α → Ordering} [Std.TransCmp cmp] [Std.LawfulEqCmp cmp]
  {A : Analysis (Std.ExtTreeSet α cmp)}

theorem union_assoc (x y z : Std.ExtTreeSet α cmp) : x ∪ y ∪ z = x ∪ (y ∪ z) := by
  apply Std.ExtTreeSet.ext_mem
  simp [or_assoc]

theorem union_comm (x y : Std.ExtTreeSet α cmp) : x ∪ y = y ∪ x := by
  apply Std.ExtTreeSet.ext_mem
  simp [or_comm]

theorem union_self (x : Std.ExtTreeSet α cmp) : x ∪ x = x := by
  apply Std.ExtTreeSet.ext_mem
  simp

theorem isJoin_of_union (union : ∀ x y, A.combine x y = x ∪ y) : A.IsJoin where
  assoc x y z := by simp only [union, union_assoc]
  comm x y := by rw [union, union, union_comm]
  idem x := by rw [union, union_self]

theorem below_iff_subset (union : ∀ x y, A.combine x y = x ∪ y)
    {x y : Std.ExtTreeSet α cmp} : A.Below x y ↔ ∀ a ∈ x, a ∈ y := by
  rw [Below, union]
  constructor
  · intro same a member
    rw [← same]
    exact Std.ExtTreeSet.mem_union_of_right member
  · intro subset
    apply Std.ExtTreeSet.ext_mem
    intro a
    rw [Std.ExtTreeSet.mem_union_iff]
    exact ⟨fun either => either.elim id (subset a), Or.inl⟩

end Union

end Analysis

end FlowGraph
