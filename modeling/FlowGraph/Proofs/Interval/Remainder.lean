import FlowGraph.Proofs.Interval.Emptiness

/-!
# Remainders

A remainder has the sign of the dividend, is no larger in size and is smaller in size than the
divisor.  Each of these bounds is clamped on its own, and so is zero.  In a window that contains zero
they stay bounds (`mem_rem`).  In other windows they need not be close to the remainders, but they
still surround those of the window.

- Above zero, a remainder of the window is positive and its dividend too.  Zero and the opposite of a
  size are seen as the lower infinity.
- Below zero, no size is seen at all.  Every bound is infinite.

So the remainder of two members is found in every window that has it (`tmod_mem_rem`).
-/

namespace FlowGraph

namespace Window

variable {w : Window} {u : ExtInt}

/-- A window below zero has no sizes. -/
theorem sub_abs_eq_posInf (low : w.hi < 0) (defined : u ≠ .undefined) :
    w.sub (w.abs u) (.fin 1) = .posInf := by
  cases u with
  | negInf => rfl
  | fin n =>
      rw [abs, clamp_eq_posInf (by omega)]
      rfl
  | posInf => rfl
  | undefined => exact absurd rfl defined

/-- In a window below zero the opposite of a lower end is not seen. -/
theorem neg_eq_posInf {x : Int} (low : w.hi < 0) (seen : u.Seen w) (lower : u ≤ .fin x) :
    w.neg u = .posInf := by
  cases u with
  | negInf => rfl
  | fin n =>
      have inside := (seen n rfl).2
      exact clamp_eq_posInf (by omega)
  | posInf => simp at lower
  | undefined => simp at lower

end Window

namespace Interval

variable {w : Window} {a b : Interval} {x y z : Int}

theorem remSize_eq_posInf (low : w.hi < 0) (right : b.isEmpty = false) :
    remSize w b = .posInf := by
  obtain ⟨lo, hi, -⟩ := ends_of_nonempty right
  rw [remSize, Window.sub_abs_eq_posInf low lo, Window.sub_abs_eq_posInf low hi]
  rfl

/-- In a window above zero a remainder and its dividend are positive. -/
theorem mem_rem_of_above (high : 0 < w.lo) (ha : a.Seen w) (left : .fin x ∈ a)
    (right : .fin y ∈ b) (nonzero : y ≠ 0) (inside : x.tmod y ∈ w) :
    .fin (x.tmod y) ∈ a.rem w b := by
  have lowest : w.lo ≤ x.tmod y := inside.1
  have highest : x.tmod y ≤ w.hi := inside.2
  have positive : 0 < x := Int.not_le.mp fun nonpos => by
    have := tmod_nonpos (y := y) nonpos
    omega
  obtain ⟨divisor, dividend⟩ := natAbs_tmod_bounds (x := x) nonzero
  have hx := fin_mem_iff.mp left
  have hy := fin_mem_iff.mp right
  have size : .fin (x.tmod y) ≤ remSize w b :=
    Window.le_max_sub_abs hy.1 hy.2 lowest (by omega)
  apply mem_rem_of_bounds (isEmpty_of_mem left) (isEmpty_of_mem right)
    (not_zero_of_mem right nonzero)
  · intro _
    rw [Window.clamp_eq_negInf high]
    exact ExtInt.negInf_le_fin
  · intro reaches
    rw [lo_eq_negInf high ha reaches]
    have opposite := Window.neg_le (w := w) (ExtInt.le_min ExtInt.fin_le_posInf size) (by omega)
    exact le_trans opposite (by rw [ExtInt.fin_le_fin]; omega)
  · intro nonpos
    have : x ≤ 0 := by simpa using le_trans hx.2 nonpos
    omega
  · intro _
    exact ExtInt.le_min (le_trans (by rw [ExtInt.fin_le_fin]; omega) hx.2) size

/-- In a window below zero a remainder and its dividend are negative. -/
theorem mem_rem_of_below (low : w.hi < 0) (ha : a.Seen w) (left : .fin x ∈ a)
    (right : .fin y ∈ b) (nonzero : y ≠ 0) (inside : x.tmod y ∈ w) :
    .fin (x.tmod y) ∈ a.rem w b := by
  have highest : x.tmod y ≤ w.hi := inside.2
  have negative : x < 0 := Int.not_le.mp fun nonneg => by
    have := Int.tmod_nonneg y nonneg
    omega
  have hx := fin_mem_iff.mp left
  have size := remSize_eq_posInf low (isEmpty_of_mem right)
  apply mem_rem_of_bounds (isEmpty_of_mem left) (isEmpty_of_mem right)
    (not_zero_of_mem right nonzero)
  · intro nonneg
    have : 0 ≤ x := by simpa using le_trans nonneg hx.1
    omega
  · intro _
    rw [Window.neg_eq_posInf low ha.lo hx.1, size]
    exact ExtInt.negInf_le_fin
  · intro _
    rw [Window.clamp_eq_posInf low]
    exact ExtInt.fin_le_posInf
  · intro nonneg
    rw [size]
    exact ExtInt.le_min (le_trans (by rw [ExtInt.fin_le_fin]; omega) nonneg) ExtInt.fin_le_posInf

/-- The remainder of two members is found in every window that has it. -/
theorem tmod_mem_rem (ha : a.Seen w) (left : .fin x ∈ a) (right : .fin y ∈ b) (nonzero : y ≠ 0)
    (inside : x.tmod y ∈ w) : .fin (x.tmod y) ∈ a.rem w b := by
  rcases Int.lt_or_le 0 w.lo with high | reachesDown
  · exact mem_rem_of_above high ha left right nonzero inside
  · rcases Int.lt_or_le w.hi 0 with low | reachesUp
    · exact mem_rem_of_below low ha left right nonzero inside
    · exact mem_rem left right ⟨reachesDown, reachesUp⟩ nonzero inside

/-- A window above zero and a dividend without a lower end.  The remainders have no lower end either,
and `19` leaves `4`. -/
theorem tmod_mem_rem_above :
    let w : Window := ⟨2, 25, by decide⟩
    ((ofEnds .negInf (.fin 25)).Seen w ∧ .fin 19 ∈ ofEnds .negInf (.fin 25) ∧
      .fin 5 ∈ range w 3 8 ∧ (19 : Int).tmod 5 ∈ w ∧ 0 ∉ w) ∧
    ((ofEnds .negInf (.fin 25)).rem w (range w 3 8) = ofEnds .negInf (.fin 7) ∧
      (19 : Int).tmod 5 = 4) ∧
    .fin ((19 : Int).tmod 5) ∈ (ofEnds .negInf (.fin 25)).rem w (range w 3 8) :=
  have seen : (ofEnds .negInf (.fin 25)).Seen ⟨2, 25, by decide⟩ :=
    seen_ofEnds ExtInt.seen_negInf fun n isFin => by cases isFin; decide
  ⟨⟨seen, by decide, by decide, by decide, by decide⟩, ⟨by decide, by decide⟩,
    tmod_mem_rem seen (by decide) (by decide) (by decide) (by decide)⟩

end Interval

end FlowGraph
