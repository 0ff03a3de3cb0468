import FlowGraph.Proofs.Interval.Window
import Mathlib.Tactic.ByContra

/-!
# What a comparison tells

A branch is taken for integers, and an analysis sees them through a window.  If the integers `x`
and `y` are seen in two intervals and stand in a relation, then they are seen in the narrowed
intervals exactly if the relation is not blurred, and otherwise the branch is given up as one that
cannot be taken (`clamp_mem_refine_iff`).  The blurred cases are real.  Of two constants above the
window one is less than the other, although both are seen as the same infinity
(`refine_drops_saturated`).

On intervals between two integers of the window nothing is lost and nothing is left over
(`refine_exact`).  Narrowing keeps precisely the integers that have a partner on the other side.
-/

namespace FlowGraph

namespace Interval

variable {w : Window} {a b : Interval} {rel : Relation} {x y : Int}

/-! ## Saturated integers -/

theorem refineLt_of_not_lt (exchanged : b.hi ≤ a.lo) : refineLt w a b = infeasible :=
  if_pos (by simp [exchanged])

/-- A blurred relation is taken for one that cannot hold. -/
theorem refine_of_blurred (blurred : Blurred rel a b) : refine w rel a b = infeasible := by
  cases rel with
  | eq => exact blurred.elim
  | ne =>
      obtain ⟨-, single, single', shared⟩ := blurred
      show refineNe a b = infeasible
      unfold refineNe
      split
      next => rfl
      next nonempty =>
        simp only [Bool.or_eq_true, not_or, Bool.not_eq_true] at nonempty
        rw [if_pos]
        simp [isSingleton, nonempty, ← single, ← single', shared]
  | lt => exact refineLt_of_not_lt (le_of_eq blurred.2.symm)
  | le => exact blurred.elim
  | gt =>
      rw [refine, refineGt_eq, refineLt_of_not_lt (le_of_eq blurred.2.symm)]
      rfl
  | ge => exact blurred.elim

/-- Two integers in a relation are seen in the narrowed intervals if and only if the relation is not
blurred.  In particular no branch that can be taken is given up in any other case. -/
theorem clamp_mem_refine_iff (left : w.clamp x ∈ a) (right : w.clamp y ∈ b)
    (holds : rel.Holds x y) :
    (w.clamp x ∈ (refine w rel a b).1 ∧ w.clamp y ∈ (refine w rel a b).2 ↔ ¬ Blurred rel a b) ∧
      (refine w rel a b = infeasible ↔ Blurred rel a b) := by
  have dropped : refine w rel a b = infeasible → w.clamp x ∉ (refine w rel a b).1 := by
    intro given member
    rw [given] at member
    exact not_mem_empty member
  refine ⟨⟨fun members blurred => ?_, clamp_mem_refine left right holds⟩, fun given => ?_,
    refine_of_blurred⟩
  · exact dropped (refine_of_blurred blurred) members.1
  · by_contra clear
    exact dropped given (clamp_mem_refine left right holds clear).1

/-- A constant above the window is told from every value that may lie below it. -/
theorem clamp_mem_refine_iff_above :
    (Window.loops.clamp 7 ∈ top ∧ Window.loops.clamp 500 ∈ const Window.loops 500 ∧
      Relation.lt.Holds 7 500) ∧
    ((Window.loops.clamp 7 ∈ (refine Window.loops .lt top (const Window.loops 500)).1 ∧
        Window.loops.clamp 500 ∈ (refine Window.loops .lt top (const Window.loops 500)).2 ↔
      ¬ Blurred .lt top (const Window.loops 500)) ∧
      (refine Window.loops .lt top (const Window.loops 500) = infeasible ↔
        Blurred .lt top (const Window.loops 500))) :=
  ⟨by decide, clamp_mem_refine_iff (by decide) (by decide) (by decide)⟩

/-- Of the constants `500` and `600` the first is less, but the branch for this is given up in a
window that ends at `200`. -/
theorem refine_drops_saturated :
    ((const Window.loops 500).Seen Window.loops ∧ (const Window.loops 600).Seen Window.loops) ∧
    (Window.loops.clamp 500 ∈ const Window.loops 500 ∧
      Window.loops.clamp 600 ∈ const Window.loops 600 ∧ Relation.lt.Holds 500 600) ∧
    refine Window.loops .lt (const Window.loops 500) (const Window.loops 600) = infeasible ∧
    Window.loops.clamp 500 ∉
      (refine Window.loops .lt (const Window.loops 500) (const Window.loops 600)).1 :=
  ⟨⟨seen_const 500, seen_const 600⟩, by decide, by decide, by decide⟩

/-! ## Intervals between integers -/

/-- The interval between two integers of the window, without values if they are exchanged. -/
def Inside (w : Window) (a : Interval) : Prop :=
  ∃ lo hi, lo ∈ w ∧ hi ∈ w ∧ a = ofEnds (.fin lo) (.fin hi)

theorem Inside.value (inside : a.Inside w) {v : ExtInt} (member : v ∈ a) :
    ∃ n ∈ w, v = .fin n := by
  obtain ⟨lo, hi, hlo, hhi, rfl⟩ := inside
  obtain ⟨defined, lower, upper⟩ := mem_ofEnds_iff.mp member
  cases v with
  | negInf => simp at lower
  | fin n =>
      rw [ExtInt.fin_le_fin] at lower upper
      exact ⟨n, ⟨Int.le_trans hlo.1 lower, Int.le_trans upper hhi.2⟩, rfl⟩
  | posInf => simp at upper
  | undefined => exact absurd rfl defined

theorem Inside.mem (inside : a.Inside w) (member : .fin x ∈ a) : x ∈ w := by
  obtain ⟨n, hn, isFin⟩ := inside.value member
  rwa [ExtInt.fin.inj isFin]

/-! ## Partners

What is left of one side by `<` or `≤` has a partner at an end of the other side. -/

theorem refineLt_cases (w : Window) (a b : Interval) :
    refineLt w a b = infeasible ∨ a.isEmpty = false ∧ b.isEmpty = false ∧
      refineLt w a b = (ofEnds a.lo (min a.hi (w.sub b.hi (.fin 1))),
        ofEnds (max (w.add a.lo (.fin 1)) b.lo) b.hi) := by
  unfold refineLt
  split
  next => exact .inl rfl
  next meets =>
    simp only [Bool.or_eq_true, not_or, Bool.not_eq_true] at meets
    exact .inr ⟨meets.1.1, meets.1.2, rfl⟩

theorem refineLe_cases (a b : Interval) :
    refineLe a b = infeasible ∨ a.isEmpty = false ∧ b.isEmpty = false ∧
      refineLe a b = (ofEnds a.lo (min a.hi b.hi), ofEnds (max a.lo b.lo) b.hi) := by
  unfold refineLe
  split
  next => exact .inl rfl
  next meets =>
    simp only [Bool.or_eq_true, not_or, Bool.not_eq_true] at meets
    exact .inr ⟨meets.1.1, meets.1.2, rfl⟩

theorem exists_right_of_refineLt (right : b.Inside w) (member : .fin x ∈ (refineLt w a b).1) :
    ∃ y, .fin y ∈ b ∧ x < y := by
  rcases refineLt_cases w a b with given | ⟨-, nonempty, given⟩
  · rw [given] at member
    exact absurd member not_mem_empty
  · rw [given] at member
    obtain ⟨h, hh, isHi⟩ := right.value (hi_mem nonempty)
    obtain ⟨defined, -, upper⟩ := mem_ofEnds_iff.mp member
    have moved := ((ExtInt.le_min_iff defined).mp upper).2
    rw [isHi] at moved
    have le : x ≤ h - 1 := Window.le_of_fin_le_clamp (by have := hh.2; omega) moved
    exact ⟨h, isHi ▸ hi_mem nonempty, by omega⟩

theorem exists_left_of_refineLt (left : a.Inside w) (member : .fin y ∈ (refineLt w a b).2) :
    ∃ x, .fin x ∈ a ∧ x < y := by
  rcases refineLt_cases w a b with given | ⟨nonempty, -, given⟩
  · rw [given] at member
    exact absurd member not_mem_empty
  · rw [given] at member
    obtain ⟨l, hl, isLo⟩ := left.value (lo_mem nonempty)
    obtain ⟨defined, lower, -⟩ := mem_ofEnds_iff.mp member
    have moved := ((ExtInt.max_le_iff defined).mp lower).1
    rw [isLo] at moved
    have le : l + 1 ≤ y := Window.le_of_clamp_le_fin (by have := hl.1; omega) moved
    exact ⟨l, isLo ▸ lo_mem nonempty, by omega⟩

theorem exists_right_of_refineLe (right : b.Inside w) (member : .fin x ∈ (refineLe a b).1) :
    ∃ y, .fin y ∈ b ∧ x ≤ y := by
  rcases refineLe_cases a b with given | ⟨-, nonempty, given⟩
  · rw [given] at member
    exact absurd member not_mem_empty
  · rw [given] at member
    obtain ⟨h, -, isHi⟩ := right.value (hi_mem nonempty)
    obtain ⟨defined, -, upper⟩ := mem_ofEnds_iff.mp member
    have le := ((ExtInt.le_min_iff defined).mp upper).2
    rw [isHi, ExtInt.fin_le_fin] at le
    exact ⟨h, isHi ▸ hi_mem nonempty, le⟩

theorem exists_left_of_refineLe (left : a.Inside w) (member : .fin y ∈ (refineLe a b).2) :
    ∃ x, .fin x ∈ a ∧ x ≤ y := by
  rcases refineLe_cases a b with given | ⟨nonempty, -, given⟩
  · rw [given] at member
    exact absurd member not_mem_empty
  · rw [given] at member
    obtain ⟨l, -, isLo⟩ := left.value (lo_mem nonempty)
    obtain ⟨defined, lower, -⟩ := mem_ofEnds_iff.mp member
    have le := ((ExtInt.max_le_iff defined).mp lower).1
    rw [isLo, ExtInt.fin_le_fin] at le
    exact ⟨l, isLo ▸ lo_mem nonempty, le⟩

theorem mem_both_of_refineEq {v : ExtInt} :
    (v ∈ (refineEq a b).1 → v ∈ b) ∧ (v ∈ (refineEq a b).2 → v ∈ a) := by
  unfold refineEq
  split
  next => exact of_mem_infeasible
  next =>
    exact ⟨fun member => (mem_meet_iff.mp member).2, fun member => (mem_meet_iff.mp member).1⟩

/-- What an order relation or equality leaves of either side has a partner on the other. -/
theorem exists_partner (left : a.Inside w) (right : b.Inside w) (ordered : rel ≠ .ne) :
    (∀ x, .fin x ∈ (refine w rel a b).1 → ∃ y, .fin y ∈ b ∧ rel.Holds x y) ∧
      (∀ y, .fin y ∈ (refine w rel a b).2 → ∃ x, .fin x ∈ a ∧ rel.Holds x y) := by
  cases rel with
  | eq =>
      exact ⟨fun x member => ⟨x, mem_both_of_refineEq.1 member, rfl⟩,
        fun y member => ⟨y, mem_both_of_refineEq.2 member, rfl⟩⟩
  | ne => exact absurd rfl ordered
  | lt => exact ⟨fun _ => exists_right_of_refineLt right, fun _ => exists_left_of_refineLt left⟩
  | le => exact ⟨fun _ => exists_right_of_refineLe right, fun _ => exists_left_of_refineLe left⟩
  | gt =>
      rw [refine, refineGt_eq]
      exact ⟨fun _ => exists_left_of_refineLt right, fun _ => exists_right_of_refineLt left⟩
  | ge =>
      rw [refine, refineGe_eq]
      exact ⟨fun _ => exists_left_of_refineLe right, fun _ => exists_right_of_refineLe left⟩

/-! ## Exactness -/

theorem refineNe_cases (a b : Interval) :
    refineNe a b = infeasible ∨ a.isEmpty = false ∧ b.isEmpty = false ∧
      ¬ (a.lo = a.hi ∧ b.lo = b.hi ∧ a.lo = b.lo) ∧ refineNe a b = (a, b) := by
  unfold refineNe
  split
  next => exact .inl rfl
  next nonempty =>
    simp only [Bool.or_eq_true, not_or, Bool.not_eq_true] at nonempty
    split
    next => exact .inl rfl
    next differ =>
      refine .inr ⟨nonempty.1, nonempty.2, ?_, rfl⟩
      rintro ⟨single, single', shared⟩
      exact differ (by simp [isSingleton, nonempty, ← single, ← single', shared])

/-- Two intervals that are not told apart as equal single values have different values. -/
theorem exists_ne_of_refineNe (left : a.Inside w) (right : b.Inside w)
    (feasible : refineNe a b ≠ infeasible) : ∃ x y, .fin x ∈ a ∧ .fin y ∈ b ∧ x ≠ y := by
  obtain ⟨ha, hb, differ, -⟩ := (refineNe_cases a b).resolve_left feasible
  obtain ⟨al, -, isLo⟩ := left.value (lo_mem ha)
  obtain ⟨ah, -, isHi⟩ := left.value (hi_mem ha)
  obtain ⟨bl, -, isLo'⟩ := right.value (lo_mem hb)
  obtain ⟨bh, -, isHi'⟩ := right.value (hi_mem hb)
  by_contra none
  -- otherwise all four ends are one integer
  have equal : ∀ {x y : Int}, .fin x ∈ a → .fin y ∈ b → x = y := by
    intro x y hx hy
    by_contra ne
    exact none ⟨x, y, hx, hy, ne⟩
  have lowest := equal (isLo ▸ lo_mem ha) (isLo' ▸ lo_mem hb)
  have highest := equal (isHi ▸ hi_mem ha) (isLo' ▸ lo_mem hb)
  have crossed := equal (isLo ▸ lo_mem ha) (isHi' ▸ hi_mem hb)
  refine differ ⟨?_, ?_, ?_⟩
  · rw [isLo, isHi, lowest, highest]
  · rw [isLo', isHi', ← lowest, crossed]
  · rw [isLo, isLo', lowest]

/-- Narrowing is given up only if no two values are related. -/
theorem exists_related (left : a.Inside w) (right : b.Inside w)
    (feasible : refine w rel a b ≠ infeasible) :
    ∃ x y, .fin x ∈ a ∧ .fin y ∈ b ∧ rel.Holds x y := by
  by_cases isNe : rel = .ne
  · subst isNe
    exact exists_ne_of_refineNe left right feasible
  · obtain ⟨partners, partners'⟩ := exists_partner left right isNe
    by_contra none
    refine feasible (Prod.ext (eq_empty_of_not_mem fun v member => none ?_)
      (eq_empty_of_not_mem fun v member => none ?_))
    · have original := mem_of_mem_refine.1 member
      obtain ⟨x, -, rfl⟩ := left.value original
      obtain ⟨y, hy, holds⟩ := partners x member
      exact ⟨x, y, original, hy, holds⟩
    · have original := mem_of_mem_refine.2 member
      obtain ⟨y, -, rfl⟩ := right.value original
      obtain ⟨x, hx, holds⟩ := partners' y member
      exact ⟨x, y, hx, original, holds⟩

/-- Narrowing intervals between integers of the window is exact.  Every relation but `≠` leaves the
integers that have a partner on the other side, and `≠` leaves both sides as they are.  Both sides
are empty if and only if no two values are related. -/
theorem refine_exact (left : a.Inside w) (right : b.Inside w) :
    (∀ rel : Relation, rel ≠ .ne →
      (∀ x, .fin x ∈ (refine w rel a b).1 ↔ .fin x ∈ a ∧ ∃ y, .fin y ∈ b ∧ rel.Holds x y) ∧
      (∀ y, .fin y ∈ (refine w rel a b).2 ↔ .fin y ∈ b ∧ ∃ x, .fin x ∈ a ∧ rel.Holds x y)) ∧
    (∀ rel : Relation, refine w rel a b = infeasible ↔
      ∀ x y, .fin x ∈ a → .fin y ∈ b → ¬ rel.Holds x y) ∧
    ((∃ x y, .fin x ∈ a ∧ .fin y ∈ b ∧ x ≠ y) → refine w .ne a b = (a, b)) := by
  have keeps : ∀ {rel : Relation} {x y : Int}, .fin x ∈ a → .fin y ∈ b → rel.Holds x y →
      .fin x ∈ (refine w rel a b).1 ∧ .fin y ∈ (refine w rel a b).2 :=
    fun hx hy holds => mem_refine hx hy holds (left.mem hx) (right.mem hy)
  have given : ∀ {rel : Relation} {x y : Int}, refine w rel a b = infeasible →
      .fin x ∈ a → .fin y ∈ b → ¬ rel.Holds x y := by
    intro rel x y given hx hy holds
    have member := (keeps hx hy holds).1
    rw [given] at member
    exact not_mem_empty member
  refine ⟨fun rel ordered => ⟨fun x => ⟨?_, ?_⟩, fun y => ⟨?_, ?_⟩⟩, fun rel => ⟨?_, ?_⟩, ?_⟩
  · exact fun member =>
      ⟨mem_of_mem_refine.1 member, (exists_partner left right ordered).1 x member⟩
  · rintro ⟨hx, y, hy, holds⟩
    exact (keeps hx hy holds).1
  · exact fun member =>
      ⟨mem_of_mem_refine.2 member, (exists_partner left right ordered).2 y member⟩
  · rintro ⟨hy, x, hx, holds⟩
    exact (keeps hx hy holds).2
  · exact fun dropped x y hx hy => given dropped hx hy
  · intro none
    by_contra feasible
    obtain ⟨x, y, hx, hy, holds⟩ := exists_related left right feasible
    exact none x y hx hy holds
  · rintro ⟨x, y, hx, hy, ne⟩
    rcases refineNe_cases a b with dropped | ⟨-, -, -, same⟩
    · have equal : ¬ Relation.ne.Holds x y := given dropped hx hy
      exact absurd ne equal
    · exact same

/-- The interval between two ends of the window itself, where a strict relation moves an end to the
very edge. -/
theorem refine_exact_edges :
    ((range Window.loops (-200) 200).Inside Window.loops ∧
      (range Window.loops (-200) (-199)).Inside Window.loops) ∧
    (∀ x, .fin x ∈ (refine Window.loops .lt (range Window.loops (-200) 200)
        (range Window.loops (-200) (-199))).1 ↔
      .fin x ∈ range Window.loops (-200) 200 ∧
        ∃ y, .fin y ∈ range Window.loops (-200) (-199) ∧ Relation.lt.Holds x y) :=
  have left : (range Window.loops (-200) 200).Inside Window.loops :=
    ⟨-200, 200, by decide, by decide, by decide⟩
  have right : (range Window.loops (-200) (-199)).Inside Window.loops :=
    ⟨-200, -199, by decide, by decide, by decide⟩
  ⟨⟨left, right⟩, ((refine_exact left right).1 .lt (by decide)).1⟩

end Interval

end FlowGraph
