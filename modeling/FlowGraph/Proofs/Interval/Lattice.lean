import FlowGraph.Proofs.Interval.Hull
import Mathlib.Order.BoundedOrder.Lattice

/-!
# The lattice of intervals

Intervals are ordered by inclusion of their members.  The hull of two intervals is their least upper
bound, because its ends are ends of the two and an interval has everything between its members
(`hull_le`).  The meet has the members of both, which makes it the greatest lower bound
(`mem_meet_iff`).  The interval without members is the least of all.

So intervals are a lattice, and the laws of lattices are laws of `hull` and `meet`.  They hold as
equations, since intervals with the same members are equal.
-/

namespace FlowGraph

namespace Interval

variable {a b c : Interval} {v : ExtInt}

/-! ## Inclusion -/

/-- An interval is below another if the other has all its members. -/
instance : PartialOrder Interval where
  le a b := ∀ v, v ∈ a → v ∈ b
  le_refl _ _ member := member
  le_trans _ _ _ first second v member := second v (first v member)
  le_antisymm _ _ below above := eq_of_mem_iff fun v => ⟨below v, above v⟩

/-- An interval with both ends of another has all that is between them. -/
theorem le_of_ends (lower : a.lo ∈ b) (upper : a.hi ∈ b) : a ≤ b := by
  intro v member
  exact ⟨member.1, le_trans lower.2.1 member.2.1, le_trans member.2.2 upper.2.2⟩

/-! ## Bounds of two intervals -/

theorem mem_meet_iff : v ∈ a.meet b ↔ v ∈ a ∧ v ∈ b := by
  unfold meet
  split
  next oneEmpty =>
    refine ⟨fun member => absurd member not_mem_empty, fun ⟨left, right⟩ => ?_⟩
    rw [isEmpty_of_mem left, isEmpty_of_mem right] at oneEmpty
    cases oneEmpty
  next =>
    rw [mem_ofEnds_iff]
    constructor
    · rintro ⟨defined, lower, upper⟩
      rw [ExtInt.max_le_iff defined] at lower
      rw [ExtInt.le_min_iff defined] at upper
      exact ⟨⟨defined, lower.1, upper.1⟩, defined, lower.2, upper.2⟩
    · rintro ⟨left, right⟩
      exact ⟨left.1, ExtInt.max_le left.2.1 right.2.1, ExtInt.le_min left.2.2 right.2.2⟩

/-- The hull is below every interval that has the members of both. -/
theorem hull_le (left : a ≤ c) (right : b ≤ c) : a.hull b ≤ c := by
  cases ha : a.isEmpty with
  | true => rwa [isEmpty_iff.mp ha, hull_empty_left]
  | false =>
      cases hb : b.isEmpty with
      | true => rwa [isEmpty_iff.mp hb, hull_empty_right]
      | false =>
          -- an end of the hull is an end of one of the two, so the bound has it
          have ends : ∀ v, (a.hull b).IsEnd v → v ∈ c := by
            intro v isEnd
            rcases isEnd.of_hull ha hb with isEnd | isEnd
            · exact left v (isEnd.mem ha)
            · exact right v (isEnd.mem hb)
          exact le_of_ends (ends _ (.inl rfl)) (ends _ (.inr rfl))

instance : Lattice Interval where
  sup := hull
  le_sup_left _ _ _ := mem_hull_left
  le_sup_right _ _ _ := mem_hull_right
  sup_le _ _ _ := hull_le
  inf := meet
  inf_le_left _ _ _ member := (mem_meet_iff.mp member).1
  inf_le_right _ _ _ member := (mem_meet_iff.mp member).2
  le_inf _ _ _ left right v member := mem_meet_iff.mpr ⟨left v member, right v member⟩

instance : OrderBot Interval where
  bot := empty
  bot_le _ _ member := absurd member not_mem_empty

/-! ## Laws -/

theorem hull_idem (a : Interval) : hull a a = a := sup_idem a

theorem hull_assoc (a b c : Interval) : hull (hull a b) c = hull a (hull b c) := sup_assoc a b c

theorem hull_eq_empty_iff : a.hull b = empty ↔ a = empty ∧ b = empty := sup_eq_bot_iff

/-- An interval whose members are those of two others is their hull. -/
theorem eq_hull_of_mem_iff (both : ∀ v, v ∈ c ↔ v ∈ a ∨ v ∈ b) : c = hull a b := by
  apply le_antisymm
  · intro v member
    rcases (both v).mp member with left | right
    · exact mem_hull_left left
    · exact mem_hull_right right
  · exact hull_le (fun v left => (both v).mpr (.inl left)) fun v right => (both v).mpr (.inr right)

/-- A meet has the values that are in both intervals, and no others.  A hull has all values of both,
and every interval that has them has the hull.  It is empty exactly if both intervals are.  Meet and
hull absorb each other. -/
theorem hull_meet_laws (a b : Interval) :
    (∀ v, v ∈ a.meet b ↔ v ∈ a ∧ v ∈ b) ∧
    (∀ v, v ∈ a ∨ v ∈ b → v ∈ a.hull b) ∧
    (∀ c : Interval, (∀ v, v ∈ a ∨ v ∈ b → v ∈ c) → ∀ v, v ∈ a.hull b → v ∈ c) ∧
    ((a.hull b).isEmpty = true ↔ a.isEmpty = true ∧ b.isEmpty = true) ∧
    a.hull (a.meet b) = a ∧ a.meet (a.hull b) = a := by
  refine ⟨fun v => mem_meet_iff, ?_, ?_, ?_, sup_inf_self, inf_sup_self⟩
  · rintro v (left | right)
    · exact mem_hull_left left
    · exact mem_hull_right right
  · intro c both
    exact hull_le (fun v left => both v (.inl left)) fun v right => both v (.inr right)
  · simp only [isEmpty_iff, hull_eq_empty_iff]

/-- `[-INF, 3]` and `[5, 9]` have nothing in common.  Their hull takes in `4`, which is in neither,
and nothing beyond `[-INF, 9]`. -/
theorem hull_meet_laws_apart :
    let a := ofEnds .negInf (.fin 3)
    let b := ofEnds (.fin 5) (.fin 9)
    let c := ofEnds .negInf (.fin 9)
    (∀ v, v ∈ a ∨ v ∈ b → v ∈ c) ∧ (∀ v, v ∈ a.hull b → v ∈ c) ∧ .fin 4 ∈ a.hull b ∧
    a.meet b = empty ∧ (a.hull b).isEmpty = false ∧
    a.hull (a.meet b) = a ∧ a.meet (a.hull b) = a := by
  intro a b c
  have left : a ≤ c := le_of_ends (by decide) (by decide)
  have right : b ≤ c := le_of_ends (by decide) (by decide)
  have both : ∀ v, v ∈ a ∨ v ∈ b → v ∈ c := fun v either => either.elim (left v) (right v)
  obtain ⟨-, -, least, -, absorbs, absorbed⟩ := hull_meet_laws a b
  exact ⟨both, least c both, by decide, by decide, by decide, absorbs, absorbed⟩

end Interval

end FlowGraph
