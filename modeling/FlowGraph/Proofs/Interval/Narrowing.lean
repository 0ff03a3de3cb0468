import FlowGraph.Interval.Relation
import FlowGraph.Proofs.Interval.Lattice
import FlowGraph.Proofs.Value.Arithmetic

/-!
# Narrowing keeps related integers

Two integers that are seen in two intervals and stand in a relation are still seen there after the
intervals are narrowed by the relation (`clamp_mem_refine`).  So narrowing drops no pair of values
that can occur, and an outcome without values cannot happen.  It adds no value either
(`mem_of_mem_refine`).

An infinity stands for all integers beyond one end of the window.  The relations `<`, `>` and `≠`
take two equal infinities for equal values, which is wrong of the integers behind them.  These are
the blurred cases (`Blurred`), and they never arise between integers of the window (`mem_refine`).
-/

namespace FlowGraph

namespace Relation

instance : (rel : Relation) → (x y : Int) → Decidable (rel.Holds x y)
  | eq, x, y => inferInstanceAs (Decidable (x = y))
  | ne, x, y => inferInstanceAs (Decidable (x ≠ y))
  | lt, x, y => inferInstanceAs (Decidable (x < y))
  | le, x, y => inferInstanceAs (Decidable (x ≤ y))
  | gt, x, y => inferInstanceAs (Decidable (x > y))
  | ge, x, y => inferInstanceAs (Decidable (x ≥ y))

theorem holds_negate_iff (rel : Relation) {x y : Int} : rel.negate.Holds x y ↔ ¬ rel.Holds x y := by
  cases rel <;> simp only [negate, Holds] <;> omega

end Relation

namespace Interval

variable {w : Window} {a b : Interval} {x y : Int}

/-- A bound on the left side of `x < y`, moved by one, bounds the right side. -/
theorem add_one_le_clamp {u : ExtInt} (lower : u ≤ w.clamp x) (lt : x < y) :
    w.add u (.fin 1) ≤ w.clamp y := by
  rcases Int.lt_or_le w.hi y with above | notAbove
  · rw [Window.clamp_eq_posInf above]
    cases u with
    | negInf => simp [Window.add]
    | fin n => exact ExtInt.le_posInf (w.clamp_ne_undefined _)
    | posInf => simp [Window.add]
    | undefined => simp at lower
  · cases u with
    | negInf => exact ExtInt.negInf_le (w.clamp_ne_undefined _)
    | fin n =>
        have le : n ≤ x := Window.le_of_fin_le_clamp (by omega) lower
        exact Window.clamp_mono (by omega)
    | posInf =>
        have reaches : .fin (x + 1) ≤ w.clamp x := le_trans ExtInt.fin_le_posInf lower
        have impossible := Window.le_of_fin_le_clamp (by omega) reaches
        omega
    | undefined => simp at lower

/-- A bound on the right side of `x < y`, moved by one, bounds the left side. -/
theorem clamp_le_sub_one {u : ExtInt} (upper : w.clamp y ≤ u) (lt : x < y) :
    w.clamp x ≤ w.sub u (.fin 1) := by
  rcases Int.lt_or_le x w.lo with below | notBelow
  · rw [Window.clamp_eq_negInf below]
    cases u with
    | negInf => simp [Window.sub]
    | fin n => exact ExtInt.negInf_le (w.clamp_ne_undefined _)
    | posInf => simp [Window.sub]
    | undefined => simp at upper
  · cases u with
    | posInf => exact ExtInt.le_posInf (w.clamp_ne_undefined _)
    | fin n =>
        have le : y ≤ n := Window.le_of_clamp_le_fin (by omega) upper
        exact Window.clamp_mono (by omega)
    | negInf =>
        have reaches : w.clamp y ≤ .fin (y - 1) := le_trans upper ExtInt.negInf_le_fin
        have impossible := Window.le_of_clamp_le_fin (by omega) reaches
        omega
    | undefined => simp at upper

/-! ## The relations on values -/

section Values

variable {u v : ExtInt}

theorem mem_refineEq (left : v ∈ a) (right : v ∈ b) :
    v ∈ (refineEq a b).1 ∧ v ∈ (refineEq a b).2 := by
  have meets : ¬ (a.lo > b.hi ∨ b.lo > a.hi) := by
    rintro (apart | apart)
    · exact not_lt_of_ge (le_trans left.2.1 right.2.2) apart
    · exact not_lt_of_ge (le_trans right.2.1 left.2.2) apart
  rw [refineEq, if_neg (by simp [isEmpty_of_mem left, isEmpty_of_mem right]; simpa using meets)]
  exact ⟨mem_meet_iff.mpr ⟨left, right⟩, mem_meet_iff.mpr ⟨left, right⟩⟩

theorem mem_refineNe (left : u ∈ a) (right : v ∈ b)
    (differ : ¬ (a.lo = a.hi ∧ b.lo = b.hi ∧ a.lo = b.lo)) :
    u ∈ (refineNe a b).1 ∧ v ∈ (refineNe a b).2 := by
  rw [refineNe, isEmpty_of_mem left, isEmpty_of_mem right, Bool.or_self,
    if_neg Bool.false_ne_true, if_neg]
  · exact ⟨left, right⟩
  · intro same
    simp only [isSingleton, Bool.and_eq_true, beq_iff_eq] at same
    exact differ ⟨same.1.1.2, same.1.2.2, same.2⟩

theorem mem_refineLe (left : u ∈ a) (right : v ∈ b) (le : u ≤ v) :
    u ∈ (refineLe a b).1 ∧ v ∈ (refineLe a b).2 := by
  have meets : ¬ a.lo > b.hi := not_lt_of_ge (le_trans left.2.1 (le_trans le right.2.2))
  rw [refineLe, if_neg (by simp [isEmpty_of_mem left, isEmpty_of_mem right]; simpa using meets),
    mem_ofEnds_iff, mem_ofEnds_iff]
  exact ⟨⟨left.1, left.2.1, ExtInt.le_min left.2.2 (le_trans le right.2.2)⟩,
    right.1, ExtInt.max_le (le_trans left.2.1 le) right.2.1, right.2.2⟩

theorem mem_refineLt (left : u ∈ a) (right : v ∈ b) (reaches : a.lo < b.hi)
    (upper : u ≤ w.sub b.hi (.fin 1)) (lower : w.add a.lo (.fin 1) ≤ v) :
    u ∈ (refineLt w a b).1 ∧ v ∈ (refineLt w a b).2 := by
  have meets : ¬ a.lo ≥ b.hi := not_le_of_gt reaches
  rw [refineLt, if_neg (by simp [isEmpty_of_mem left, isEmpty_of_mem right]; simpa using meets),
    mem_ofEnds_iff, mem_ofEnds_iff]
  exact ⟨⟨left.1, left.2.1, ExtInt.le_min left.2.2 upper⟩,
    right.1, ExtInt.max_le lower right.2.1, right.2.2⟩

end Values

/-! The other two relations are these with the sides exchanged. -/

theorem refineGe_eq : refineGe a b = (refineLe b a).swap := by
  simp only [refineGe, refineLe, Bool.or_comm a.isEmpty, ExtInt.max_comm a.lo,
    ExtInt.min_comm a.hi]
  split <;> rfl

theorem refineGt_eq : refineGt w a b = (refineLt w b a).swap := by
  simp only [refineGt, refineLt, Bool.or_comm a.isEmpty, ExtInt.max_comm a.lo,
    ExtInt.min_comm _ b.hi]
  split <;> rfl

/-! ## The relations on integers -/

/-- The ends by which the relation is decided are one and the same infinity.  It stands for every
integer beyond one end of the window, so integers that look equal there may well differ. -/
def Blurred : Relation → Interval → Interval → Prop
  | .ne, l, r => l.lo.isInf ∧ l.lo = l.hi ∧ r.lo = r.hi ∧ l.lo = r.lo
  | .lt, l, r => l.lo.isInf ∧ l.lo = r.hi
  | .gt, l, r => r.lo.isInf ∧ r.lo = l.hi
  | _, _, _ => False

theorem clamp_mem_refineNe (left : w.clamp x ∈ a) (right : w.clamp y ∈ b) (ne : x ≠ y)
    (clear : ¬ Blurred .ne a b) :
    w.clamp x ∈ (refineNe a b).1 ∧ w.clamp y ∈ (refineNe a b).2 := by
  apply mem_refineNe left right
  rintro ⟨single, single', shared⟩
  -- both integers are seen as the one value of the intervals
  have hx : w.clamp x = a.lo := le_antisymm (single ▸ left.2.2) left.2.1
  have hy : w.clamp y = b.lo := le_antisymm (single' ▸ right.2.2) right.2.1
  have infinite := Window.isInf_clamp_of_eq (hx.trans (shared.trans hy.symm)) ne
  exact clear ⟨hx ▸ infinite, single, single', shared⟩

theorem clamp_mem_refineLt (left : w.clamp x ∈ a) (right : w.clamp y ∈ b) (lt : x < y)
    (clear : ¬ Blurred .lt a b) :
    w.clamp x ∈ (refineLt w a b).1 ∧ w.clamp y ∈ (refineLt w a b).2 := by
  have between : w.clamp x ≤ w.clamp y := Window.clamp_mono (Int.le_of_lt lt)
  have reaches : a.lo < b.hi := by
    refine lt_of_le_of_ne (le_trans left.2.1 (le_trans between right.2.2)) fun shared => ?_
    have hx : w.clamp x = a.lo :=
      le_antisymm (shared ▸ le_trans between right.2.2) left.2.1
    have hy : w.clamp y = a.lo :=
      le_antisymm (shared ▸ right.2.2) (le_trans left.2.1 between)
    have infinite := Window.isInf_clamp_of_eq (hx.trans hy.symm) (Int.ne_of_lt lt)
    exact clear ⟨hx ▸ infinite, shared⟩
  exact mem_refineLt left right reaches (clamp_le_sub_one right.2.2 lt)
    (add_one_le_clamp left.2.1 lt)

/-- Integers that stand in a relation are still seen in the narrowed intervals, unless the relation
is blurred. -/
theorem clamp_mem_refine {rel : Relation} (left : w.clamp x ∈ a) (right : w.clamp y ∈ b)
    (holds : rel.Holds x y) (clear : ¬ Blurred rel a b) :
    w.clamp x ∈ (refine w rel a b).1 ∧ w.clamp y ∈ (refine w rel a b).2 := by
  cases rel with
  | eq =>
      have same : x = y := holds
      subst same
      exact mem_refineEq left right
  | ne => exact clamp_mem_refineNe left right holds clear
  | lt => exact clamp_mem_refineLt left right holds clear
  | le => exact mem_refineLe left right (Window.clamp_mono holds)
  | gt =>
      rw [refine, refineGt_eq]
      exact (clamp_mem_refineLt right left holds clear).symm
  | ge =>
      rw [refine, refineGe_eq]
      exact (mem_refineLe right left (Window.clamp_mono holds)).symm

/-- A relation is not blurred for two intervals with an integer each. -/
theorem not_blurred (rel : Relation) (left : .fin x ∈ a) (right : .fin y ∈ b) :
    ¬ Blurred rel a b := by
  have ends : ∀ {l r : Interval} {m n : Int}, .fin m ∈ l → .fin n ∈ r →
      ¬ (l.lo.isInf = true ∧ l.lo = r.hi) := by
    intro l r m n lower upper
    rintro ⟨infinite, shared⟩
    have atMost := lower.2.1
    have atLeast := upper.2.2
    rw [← shared] at atLeast
    cases isLo : l.lo with
    | negInf => simp [isLo] at atLeast
    | fin k => simp [isLo, ExtInt.isInf] at infinite
    | posInf => simp [isLo] at atMost
    | undefined => simp [isLo] at atMost
  cases rel with
  | eq => exact id
  | ne =>
      rintro ⟨infinite, -, single, shared⟩
      exact ends left right ⟨infinite, shared.trans single⟩
  | lt => exact ends left right
  | le => exact id
  | gt => exact ends right left
  | ge => exact id

theorem mem_refine {rel : Relation} (left : .fin x ∈ a) (right : .fin y ∈ b)
    (holds : rel.Holds x y) (hx : x ∈ w) (hy : y ∈ w) :
    .fin x ∈ (refine w rel a b).1 ∧ .fin y ∈ (refine w rel a b).2 := by
  have clear := not_blurred rel left right
  rw [← Window.clamp_mem hx] at left ⊢
  rw [← Window.clamp_mem hy] at right ⊢
  exact clamp_mem_refine left right holds clear

/-! ## Narrowing takes values away -/

theorem of_mem_infeasible {v : ExtInt} {p q : Prop} :
    (v ∈ infeasible.1 → p) ∧ (v ∈ infeasible.2 → q) :=
  ⟨fun member => absurd member not_mem_empty, fun member => absurd member not_mem_empty⟩

theorem mem_of_mem_lowered {u v : ExtInt} (member : v ∈ ofEnds a.lo (min a.hi u)) : v ∈ a := by
  obtain ⟨defined, lower, upper⟩ := mem_ofEnds_iff.mp member
  exact ⟨defined, lower, ((ExtInt.le_min_iff defined).mp upper).1⟩

theorem mem_of_mem_raised {u v : ExtInt} (member : v ∈ ofEnds (max u a.lo) a.hi) : v ∈ a := by
  obtain ⟨defined, lower, upper⟩ := mem_ofEnds_iff.mp member
  exact ⟨defined, ((ExtInt.max_le_iff defined).mp lower).2, upper⟩

theorem mem_of_mem_refineLe {v : ExtInt} :
    (v ∈ (refineLe a b).1 → v ∈ a) ∧ (v ∈ (refineLe a b).2 → v ∈ b) := by
  unfold refineLe
  split
  next => exact of_mem_infeasible
  next => exact ⟨mem_of_mem_lowered, mem_of_mem_raised⟩

theorem mem_of_mem_refineLt {v : ExtInt} :
    (v ∈ (refineLt w a b).1 → v ∈ a) ∧ (v ∈ (refineLt w a b).2 → v ∈ b) := by
  unfold refineLt
  split
  next => exact of_mem_infeasible
  next => exact ⟨mem_of_mem_lowered, mem_of_mem_raised⟩

/-- Narrowing only takes values away, on either side. -/
theorem mem_of_mem_refine {rel : Relation} {v : ExtInt} :
    (v ∈ (refine w rel a b).1 → v ∈ a) ∧ (v ∈ (refine w rel a b).2 → v ∈ b) := by
  cases rel with
  | eq =>
      show (v ∈ (refineEq a b).1 → v ∈ a) ∧ (v ∈ (refineEq a b).2 → v ∈ b)
      rw [refineEq]
      split
      next => exact of_mem_infeasible
      next =>
        exact ⟨fun member => (mem_meet_iff.mp member).1, fun member => (mem_meet_iff.mp member).2⟩
  | ne =>
      show (v ∈ (refineNe a b).1 → v ∈ a) ∧ (v ∈ (refineNe a b).2 → v ∈ b)
      rw [refineNe]
      split
      next => exact of_mem_infeasible
      next =>
        split
        next => exact of_mem_infeasible
        next => exact ⟨fun member => member, fun member => member⟩
  | lt => exact mem_of_mem_refineLt
  | le => exact mem_of_mem_refineLe
  | gt =>
      rw [refine, refineGt_eq]
      exact mem_of_mem_refineLt.symm
  | ge =>
      rw [refine, refineGe_eq]
      exact mem_of_mem_refineLe.symm

end Interval

end FlowGraph
