import FlowGraph.Interval.Arithmetic
import FlowGraph.Proofs.Value.Order

/-!
# Members and hulls of intervals

An integer is a member of an interval if it is between the ends, so membership of an interval made
from two ends asks for two bounds.  The least interval around some values has every integer
between two of them.  Intervals with the same members are equal.

The hull of two intervals is the smaller of the lower ends and the larger of the upper ends, if
neither is empty.  So its ends are ends of the two, and it has the members of both.
-/

namespace FlowGraph

namespace Interval

variable {a b c : Interval} {lo hi : ExtInt} {n : Int}

/-! ## Members -/

theorem fin_mem_iff : .fin n ∈ a ↔ a.lo ≤ .fin n ∧ .fin n ≤ a.hi :=
  ⟨fun member => member.2, fun bounds => ⟨by simp, bounds⟩⟩

theorem eq_of_ends (lower : a.lo = b.lo) (upper : a.hi = b.hi) : a = b := by
  cases a
  cases b
  simp_all

theorem ofEnds_of_le (left : lo ≠ .undefined) (right : hi ≠ .undefined) (le : lo ≤ hi) :
    ofEnds lo hi = ⟨lo, hi, .inr ⟨left, right, le⟩⟩ :=
  dif_pos ⟨left, right, le⟩

theorem fin_mem_ofEnds (lower : lo ≤ .fin n) (upper : .fin n ≤ hi) : .fin n ∈ ofEnds lo hi := by
  have left : lo ≠ .undefined := fun h => by simp [h] at lower
  have right : hi ≠ .undefined := fun h => by simp [h] at upper
  rw [ofEnds_of_le left right (le_trans lower upper), fin_mem_iff]
  exact ⟨lower, upper⟩

theorem not_mem_empty {v : ExtInt} : v ∉ empty := by
  rintro ⟨defined, lower, -⟩
  exact defined (ExtInt.undefined_le_iff.mp lower)

theorem mem_ofEnds_iff {v : ExtInt} : v ∈ ofEnds lo hi ↔ v ≠ .undefined ∧ lo ≤ v ∧ v ≤ hi := by
  unfold ofEnds
  split
  next => exact Iff.rfl
  next exchanged =>
    refine ⟨fun member => absurd member not_mem_empty, ?_⟩
    rintro ⟨defined, lower, upper⟩
    have left : lo ≠ .undefined := fun h => defined (by simpa [h] using lower)
    have right : hi ≠ .undefined := fun h => defined (by simpa [h] using upper)
    exact absurd ⟨left, right, le_trans lower upper⟩ exchanged

/-- An integer between two of some defined values lies in the interval around them. -/
theorem fin_mem_around {cs : List ExtInt} (defined : ∀ v ∈ cs, v ≠ .undefined) {u v : ExtInt}
    (below : u ∈ cs) (above : v ∈ cs) (lower : u ≤ .fin n) (upper : .fin n ≤ v) :
    .fin n ∈ around cs :=
  fin_mem_ofEnds (le_trans (ExtInt.minOf_le defined below) lower)
    (le_trans upper (ExtInt.le_maxOf defined above))

theorem fin_mem_const {w : Window} (inside : n ∈ w) : .fin n ∈ const w n := by
  rw [const, singleton, Window.clamp_mem inside]
  exact fin_mem_ofEnds (le_refl _) (le_refl _)

theorem fin_mem_top : .fin n ∈ top := by
  rw [fin_mem_iff]
  exact ⟨ExtInt.negInf_le_fin, ExtInt.fin_le_posInf⟩

/-! ## Empty intervals -/

theorem isEmpty_iff : a.isEmpty = true ↔ a = empty := by
  constructor
  · intro isEmpty
    rcases a.canonical with ⟨lower, upper⟩ | ⟨lower, upper, -⟩
    · exact eq_of_ends lower upper
    · simp_all [Interval.isEmpty, ExtInt.isUndefined]
  · rintro rfl
    rfl

theorem isEmpty_of_mem {v : ExtInt} (member : v ∈ a) : a.isEmpty = false := by
  rw [← Bool.not_eq_true, isEmpty_iff]
  rintro rfl
  exact not_mem_empty member

theorem ends_of_nonempty (nonempty : a.isEmpty = false) :
    a.lo ≠ .undefined ∧ a.hi ≠ .undefined ∧ a.lo ≤ a.hi := by
  rcases a.canonical with ⟨lower, -⟩ | ends
  · simp [Interval.isEmpty, ExtInt.isUndefined, lower] at nonempty
  · exact ends

theorem lo_mem (nonempty : a.isEmpty = false) : a.lo ∈ a :=
  have ends := ends_of_nonempty nonempty
  ⟨ends.1, le_refl _, ends.2.2⟩

theorem hi_mem (nonempty : a.isEmpty = false) : a.hi ∈ a :=
  have ends := ends_of_nonempty nonempty
  ⟨ends.2.1, ends.2.2, le_refl _⟩

/-- The value is one of the two ends. -/
def IsEnd (a : Interval) (v : ExtInt) : Prop := v = a.lo ∨ v = a.hi

theorem IsEnd.mem {v : ExtInt} (isEnd : a.IsEnd v) (nonempty : a.isEmpty = false) : v ∈ a := by
  rcases isEnd with rfl | rfl
  · exact lo_mem nonempty
  · exact hi_mem nonempty

theorem eq_empty_of_not_mem (none : ∀ v, v ∉ a) : a = empty := by
  cases nonempty : a.isEmpty with
  | true => exact isEmpty_iff.mp nonempty
  | false => exact absurd (lo_mem nonempty) (none a.lo)

/-- Intervals with the same members are equal. -/
theorem eq_of_mem_iff (same : ∀ v, v ∈ a ↔ v ∈ b) : a = b := by
  cases left : a.isEmpty with
  | true =>
      rw [isEmpty_iff.mp left] at same ⊢
      exact (eq_empty_of_not_mem fun v member => not_mem_empty ((same v).mpr member)).symm
  | false =>
      have lower := (same _).mp (lo_mem left)
      have upper := (same _).mp (hi_mem left)
      have lower' := (same _).mpr (lo_mem (isEmpty_of_mem lower))
      have upper' := (same _).mpr (hi_mem (isEmpty_of_mem lower))
      exact eq_of_ends (le_antisymm lower'.2.1 lower.2.1) (le_antisymm upper.2.2 upper'.2.2)

theorem ofEnds_self : ofEnds a.lo a.hi = a := eq_of_mem_iff fun _ => mem_ofEnds_iff

/-! ## Hulls -/

@[simp] theorem hull_empty_left : hull empty b = b := rfl

@[simp] theorem hull_empty_right : hull a empty = a := by
  unfold hull
  split
  next isEmpty => exact (isEmpty_iff.mp isEmpty).symm
  next => rfl

theorem hull_eq (left : a.isEmpty = false) (right : b.isEmpty = false) :
    (hull a b).isEmpty = false ∧ (hull a b).lo = min a.lo b.lo ∧
      (hull a b).hi = max a.hi b.hi := by
  obtain ⟨alo, ahi, ale⟩ := ends_of_nonempty left
  obtain ⟨blo, bhi, ble⟩ := ends_of_nonempty right
  have lower := ExtInt.min_ne_undefined alo blo
  have upper := ExtInt.max_ne_undefined ahi bhi
  have le : min a.lo b.lo ≤ max a.hi b.hi :=
    le_trans (ExtInt.min_le_left blo) (le_trans ale (ExtInt.le_max_left bhi))
  rw [hull, left, right, if_neg Bool.false_ne_true, if_neg Bool.false_ne_true,
    ofEnds_of_le lower upper le]
  simp [Interval.isEmpty, ExtInt.isUndefined, lower, upper]

theorem IsEnd.of_hull {v : ExtInt} (isEnd : (hull a b).IsEnd v) (left : a.isEmpty = false)
    (right : b.isEmpty = false) : a.IsEnd v ∨ b.IsEnd v := by
  obtain ⟨-, lower, upper⟩ := hull_eq left right
  obtain ⟨alo, ahi, -⟩ := ends_of_nonempty left
  obtain ⟨blo, bhi, -⟩ := ends_of_nonempty right
  rcases isEnd with rfl | rfl
  · rw [lower]
    rcases ExtInt.le_total alo blo with le | le
    · exact .inl (.inl (ExtInt.min_eq_left le))
    · exact .inr (.inl (ExtInt.min_eq_right le))
  · rw [upper]
    rcases ExtInt.le_total ahi bhi with le | le
    · exact .inr (.inr (ExtInt.max_eq_right le))
    · exact .inl (.inr (ExtInt.max_eq_left le))

theorem hull_comm (a b : Interval) : hull a b = hull b a := by
  cases left : a.isEmpty with
  | true =>
      rw [isEmpty_iff.mp left, hull_empty_left, hull_empty_right]
  | false =>
      cases right : b.isEmpty with
      | true => rw [isEmpty_iff.mp right, hull_empty_left, hull_empty_right]
      | false =>
          obtain ⟨-, lower, upper⟩ := hull_eq left right
          obtain ⟨-, lower', upper'⟩ := hull_eq right left
          apply eq_of_ends
          · rw [lower, lower', ExtInt.min_comm]
          · rw [upper, upper', ExtInt.max_comm]

theorem mem_hull_left {v : ExtInt} (member : v ∈ a) : v ∈ hull a b := by
  cases right : b.isEmpty with
  | true => rwa [isEmpty_iff.mp right, hull_empty_right]
  | false =>
      obtain ⟨-, lower, upper⟩ := hull_eq (isEmpty_of_mem member) right
      obtain ⟨blo, bhi, -⟩ := ends_of_nonempty right
      refine ⟨member.1, ?_, ?_⟩
      · rw [lower]
        exact le_trans (ExtInt.min_le_left blo) member.2.1
      · rw [upper]
        exact le_trans member.2.2 (ExtInt.le_max_left bhi)

theorem mem_hull_right {v : ExtInt} (member : v ∈ b) : v ∈ hull a b := by
  rw [hull_comm]
  exact mem_hull_left member

end Interval

end FlowGraph
