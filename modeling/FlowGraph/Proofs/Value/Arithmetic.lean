import FlowGraph.Proofs.Value.Order

/-!
# Bounds through saturating arithmetic

Each operation on extended integers takes bounds of integers to a bound of the exact result, as
long as the result lies in the window.  A sum is bounded by the sums of the bounds, on either
side, and a difference likewise.  Which bounds matter for a product depends on the signs, so the
lemmas on products and quotients go sign by sign: they say of one corner that it is a bound.

The infinities need no assumption.  Where a bound is infinite and the corner is not, the other
factor is zero, and then the exact result is zero too.
-/

namespace FlowGraph

namespace Window

variable {w : Window} {u v : ExtInt} {x y z l : Int}

/-! ## Opposites, sums and differences -/

theorem neg_le (upper : .fin x ≤ u) (inside : -x ≤ w.hi) : w.neg u ≤ .fin (-x) := by
  cases u with
  | fin n => exact clamp_le_fin inside (by simp at upper; omega)
  | posInf => simp [neg]
  | negInf => simp at upper
  | undefined => simp at upper

theorem le_neg (lower : u ≤ .fin x) (inside : w.lo ≤ -x) : .fin (-x) ≤ w.neg u := by
  cases u with
  | fin n => exact fin_le_clamp inside (by simp at lower; omega)
  | negInf => simp [neg]
  | posInf => simp at lower
  | undefined => simp at lower

theorem add_le (left : u ≤ .fin x) (right : v ≤ .fin y) (inside : x + y ∈ w) :
    w.add u v ≤ .fin (x + y) := by
  cases u <;> cases v <;> simp_all [add]
  exact clamp_le_fin inside.2 (by omega)

theorem le_add (left : .fin x ≤ u) (right : .fin y ≤ v) (inside : x + y ∈ w) :
    .fin (x + y) ≤ w.add u v := by
  cases u <;> cases v <;> simp_all [add]
  exact fin_le_clamp inside.1 (by omega)

theorem sub_le (left : u ≤ .fin x) (right : .fin y ≤ v) (inside : x - y ∈ w) :
    w.sub u v ≤ .fin (x - y) := by
  cases u <;> cases v <;> simp_all [sub, add, neg]
  exact clamp_le_fin inside.2 (by omega)

theorem le_sub (left : .fin x ≤ u) (right : v ≤ .fin y) (inside : x - y ∈ w) :
    .fin (x - y) ≤ w.sub u v := by
  cases u <;> cases v <;> simp_all [sub, add, neg]
  exact fin_le_clamp inside.1 (by omega)

/-! ## Products -/

theorem mul_ne_undefined (left : u ≠ .undefined) (right : v ≠ .undefined) :
    w.mul u v ≠ .undefined := by
  cases u <;> cases v <;> simp_all [mul, ExtInt.sign?, ExtInt.infinity]
  all_goals
    split
    · simp
    · split <;> simp

theorem mul_fin_negInf (pos : 0 < l) : w.mul (.fin l) .negInf = .negInf := by
  simp [mul, ExtInt.sign?, ExtInt.infinity, Int.sign_eq_one_of_pos pos, Int.ne_of_gt pos]

theorem mul_fin_posInf (pos : 0 < l) : w.mul (.fin l) .posInf = .posInf := by
  simp [mul, ExtInt.sign?, ExtInt.infinity, Int.sign_eq_one_of_pos pos, Int.ne_of_gt pos]

theorem mul_fin_negInf_of_neg (neg : l < 0) : w.mul (.fin l) .negInf = .posInf := by
  simp [mul, ExtInt.sign?, ExtInt.infinity, Int.sign_eq_neg_one_of_neg neg, Int.ne_of_lt neg]

theorem mul_fin_posInf_of_neg (neg : l < 0) : w.mul (.fin l) .posInf = .negInf := by
  simp [mul, ExtInt.sign?, ExtInt.infinity, Int.sign_eq_neg_one_of_neg neg, Int.ne_of_lt neg]

theorem mul_zero_inf (inf : v = .negInf ∨ v = .posInf) : w.mul (.fin 0) v = w.clamp 0 := by
  rcases inf with rfl | rfl <;> simp [mul]

theorem mul_comm (u v : ExtInt) : w.mul u v = w.mul v u := by
  cases u <;> cases v <;> simp [mul, ExtInt.sign?, Int.mul_comm]

/-- A factor that is not negative keeps the side of a bound. -/
theorem mul_fin_le_of_nonneg (nonneg : 0 ≤ l) (lower : v ≤ .fin y) (le : l * y ≤ z)
    (inside : z ∈ w) : w.mul (.fin l) v ≤ .fin z := by
  cases v with
  | fin m =>
      have step : l * m ≤ l * y := Int.mul_le_mul_of_nonneg_left (by simpa using lower) nonneg
      exact clamp_le_fin inside.2 (Int.le_trans step le)
  | negInf =>
      rcases Int.lt_or_eq_of_le nonneg with pos | rfl
      · simp [mul_fin_negInf pos]
      · rw [mul_zero_inf (.inl rfl)]
        exact clamp_le_fin inside.2 (by simpa using le)
  | posInf => simp at lower
  | undefined => simp at lower

theorem le_mul_fin_of_nonneg (nonneg : 0 ≤ l) (upper : .fin y ≤ v) (le : z ≤ l * y)
    (inside : z ∈ w) : .fin z ≤ w.mul (.fin l) v := by
  cases v with
  | fin m =>
      have step : l * y ≤ l * m := Int.mul_le_mul_of_nonneg_left (by simpa using upper) nonneg
      exact fin_le_clamp inside.1 (Int.le_trans le step)
  | posInf =>
      rcases Int.lt_or_eq_of_le nonneg with pos | rfl
      · simp [mul_fin_posInf pos]
      · rw [mul_zero_inf (.inr rfl)]
        exact fin_le_clamp inside.1 (by simpa using le)
  | negInf => simp at upper
  | undefined => simp at upper

/-- A factor that is not positive exchanges the sides. -/
theorem mul_fin_le_of_nonpos (nonpos : l ≤ 0) (upper : .fin y ≤ v) (le : l * y ≤ z)
    (inside : z ∈ w) : w.mul (.fin l) v ≤ .fin z := by
  cases v with
  | fin m =>
      have step : l * m ≤ l * y := Int.mul_le_mul_of_nonpos_left nonpos (by simpa using upper)
      exact clamp_le_fin inside.2 (Int.le_trans step le)
  | posInf =>
      rcases Int.lt_or_eq_of_le nonpos with neg | rfl
      · simp [mul_fin_posInf_of_neg neg]
      · rw [mul_zero_inf (.inr rfl)]
        exact clamp_le_fin inside.2 (by simpa using le)
  | negInf => simp at upper
  | undefined => simp at upper

theorem le_mul_fin_of_nonpos (nonpos : l ≤ 0) (lower : v ≤ .fin y) (le : z ≤ l * y)
    (inside : z ∈ w) : .fin z ≤ w.mul (.fin l) v := by
  cases v with
  | fin m =>
      have step : l * y ≤ l * m := Int.mul_le_mul_of_nonpos_left nonpos (by simpa using lower)
      exact fin_le_clamp inside.1 (Int.le_trans le step)
  | negInf =>
      rcases Int.lt_or_eq_of_le nonpos with neg | rfl
      · simp [mul_fin_negInf_of_neg neg]
      · rw [mul_zero_inf (.inl rfl)]
        exact fin_le_clamp inside.1 (by simpa using le)
  | posInf => simp at lower
  | undefined => simp at lower

/-- An infinite factor next to one that is not negative.  The product is infinite unless the other
factor is zero. -/
theorem mul_negInf_le (nonneg : 0 ≤ y) (upper : .fin y ≤ v) (zero : y = 0 → 0 ≤ z)
    (inside : z ∈ w) : w.mul .negInf v ≤ .fin z := by
  cases v with
  | fin m =>
      simp only [ExtInt.fin_le_fin] at upper
      rcases Int.lt_or_eq_of_le (Int.le_trans nonneg upper) with pos | rfl
      · rw [mul_comm, mul_fin_negInf pos]
        simp
      · rw [mul_comm, mul_zero_inf (.inl rfl)]
        exact clamp_le_fin inside.2 (zero (Int.le_antisymm upper nonneg))
  | posInf => simp [mul, ExtInt.sign?, ExtInt.infinity]
  | negInf => simp at upper
  | undefined => simp at upper

theorem le_mul_posInf (nonneg : 0 ≤ y) (upper : .fin y ≤ v) (zero : y = 0 → z ≤ 0)
    (inside : z ∈ w) : .fin z ≤ w.mul .posInf v := by
  cases v with
  | fin m =>
      simp only [ExtInt.fin_le_fin] at upper
      rcases Int.lt_or_eq_of_le (Int.le_trans nonneg upper) with pos | rfl
      · rw [mul_comm, mul_fin_posInf pos]
        simp
      · rw [mul_comm, mul_zero_inf (.inr rfl)]
        exact fin_le_clamp inside.1 (zero (Int.le_antisymm upper nonneg))
  | posInf => simp [mul, ExtInt.sign?, ExtInt.infinity]
  | negInf => simp at upper
  | undefined => simp at upper

theorem mul_posInf_of_neg (neg : y < 0) (lower : v ≤ .fin y) : w.mul .posInf v = .negInf := by
  cases v with
  | fin m =>
      simp only [ExtInt.fin_le_fin] at lower
      rw [mul_comm, mul_fin_posInf_of_neg (Int.lt_of_le_of_lt lower neg)]
  | negInf => simp [mul, ExtInt.sign?, ExtInt.infinity]
  | posInf => simp at lower
  | undefined => simp at lower

theorem mul_negInf_of_neg (neg : y < 0) (lower : v ≤ .fin y) : w.mul .negInf v = .posInf := by
  cases v with
  | fin m =>
      simp only [ExtInt.fin_le_fin] at lower
      rw [mul_comm, mul_fin_negInf_of_neg (Int.lt_of_le_of_lt lower neg)]
  | negInf => simp [mul, ExtInt.sign?, ExtInt.infinity]
  | posInf => simp at lower
  | undefined => simp at lower

/-- Some product of ends is a lower bound of the product. -/
theorem exists_mul_le {ul uh vl vh : ExtInt} (uLower : ul ≤ .fin x) (uUpper : .fin x ≤ uh)
    (vLower : vl ≤ .fin y) (vUpper : .fin y ≤ vh) (inside : x * y ∈ w) :
    ∃ c ∈ [w.mul ul vl, w.mul ul vh, w.mul uh vl, w.mul uh vh], c ≤ .fin (x * y) := by
  rcases Int.lt_or_le y 0 with neg | nonneg
  · -- a negative factor turns the upper end into the bound
    cases uh with
    | fin h =>
        have le : h * y ≤ x * y :=
          Int.mul_le_mul_of_nonpos_right (by simpa using uUpper) (Int.le_of_lt neg)
        rcases Int.le_total 0 h with hpos | hneg
        · exact ⟨_, by simp, mul_fin_le_of_nonneg hpos vLower le inside⟩
        · exact ⟨_, by simp, mul_fin_le_of_nonpos hneg vUpper le inside⟩
    | posInf => exact ⟨w.mul .posInf vl, by simp, by simp [mul_posInf_of_neg neg vLower]⟩
    | negInf => simp at uUpper
    | undefined => simp at uUpper
  · cases ul with
    | fin l =>
        have le : l * y ≤ x * y :=
          Int.mul_le_mul_of_nonneg_right (by simpa using uLower) nonneg
        rcases Int.le_total 0 l with lpos | lneg
        · exact ⟨_, by simp, mul_fin_le_of_nonneg lpos vLower le inside⟩
        · exact ⟨_, by simp, mul_fin_le_of_nonpos lneg vUpper le inside⟩
    | negInf =>
        exact ⟨w.mul .negInf vh, by simp, mul_negInf_le nonneg vUpper (by simp +contextual) inside⟩
    | posInf => simp at uLower
    | undefined => simp at uLower

/-- Some product of ends is an upper bound of the product. -/
theorem exists_le_mul {ul uh vl vh : ExtInt} (uLower : ul ≤ .fin x) (uUpper : .fin x ≤ uh)
    (vLower : vl ≤ .fin y) (vUpper : .fin y ≤ vh) (inside : x * y ∈ w) :
    ∃ c ∈ [w.mul ul vl, w.mul ul vh, w.mul uh vl, w.mul uh vh], .fin (x * y) ≤ c := by
  rcases Int.lt_or_le y 0 with neg | nonneg
  · cases ul with
    | fin l =>
        have le : x * y ≤ l * y :=
          Int.mul_le_mul_of_nonpos_right (by simpa using uLower) (Int.le_of_lt neg)
        rcases Int.le_total 0 l with lpos | lneg
        · exact ⟨_, by simp, le_mul_fin_of_nonneg lpos vUpper le inside⟩
        · exact ⟨_, by simp, le_mul_fin_of_nonpos lneg vLower le inside⟩
    | negInf => exact ⟨w.mul .negInf vl, by simp, by simp [mul_negInf_of_neg neg vLower]⟩
    | posInf => simp at uLower
    | undefined => simp at uLower
  · cases uh with
    | fin h =>
        have le : x * y ≤ h * y :=
          Int.mul_le_mul_of_nonneg_right (by simpa using uUpper) nonneg
        rcases Int.le_total 0 h with hpos | hneg
        · exact ⟨_, by simp, le_mul_fin_of_nonneg hpos vUpper le inside⟩
        · exact ⟨_, by simp, le_mul_fin_of_nonpos hneg vLower le inside⟩
    | posInf =>
        exact ⟨w.mul .posInf vh, by simp, le_mul_posInf nonneg vUpper (by simp +contextual) inside⟩
    | negInf => simp at uUpper
    | undefined => simp at uUpper

/-! ## Quotients -/

/-- A larger divisor makes a quotient smaller in size. -/
theorem tdiv_le_tdiv_left {m n : Int} (nonneg : 0 ≤ l) (pos : 0 < m) (le : m ≤ n) :
    l.tdiv n ≤ l.tdiv m := by
  rw [Int.tdiv_eq_ediv_of_nonneg nonneg, Int.tdiv_eq_ediv_of_nonneg nonneg]
  apply Int.le_ediv_of_mul_le pos
  have quotient : 0 ≤ l / n := Int.ediv_nonneg nonneg (by omega)
  calc l / n * m ≤ l / n * n := Int.mul_le_mul_of_nonneg_left le quotient
    _ ≤ l := Int.ediv_mul_le l (by omega)

theorem tdiv_le_tdiv_left_of_nonpos {m n : Int} (nonpos : l ≤ 0) (pos : 0 < m) (le : m ≤ n) :
    l.tdiv m ≤ l.tdiv n := by
  have opposite := tdiv_le_tdiv_left (l := -l) (by omega) pos le
  simp only [Int.neg_tdiv] at opposite
  omega

theorem tdiv_nonpos {m : Int} (nonpos : l ≤ 0) (pos : 0 < m) : l.tdiv m ≤ 0 := by
  have opposite : 0 ≤ (-l).tdiv m := Int.tdiv_nonneg (by omega) (by omega)
  rw [Int.neg_tdiv] at opposite
  omega

theorem div_fin_fin {m : Int} (pos : 0 < m) : w.div (.fin l) (.fin m) = w.clamp (l.tdiv m) := by
  unfold div
  split <;> simp_all

theorem div_negInf_fin {m : Int} (pos : 0 < m) : w.div .negInf (.fin m) = .negInf := by
  unfold div
  split <;> simp_all [ExtInt.sign?, ExtInt.isInf, ExtInt.infinity, Int.sign_eq_one_of_pos]

theorem div_posInf_fin {m : Int} (pos : 0 < m) : w.div .posInf (.fin m) = .posInf := by
  unfold div
  split <;> simp_all [ExtInt.sign?, ExtInt.isInf, ExtInt.infinity, Int.sign_eq_one_of_pos]

theorem div_ne_undefined (left : u ≠ .undefined) (pos : .fin 0 < v) :
    w.div u v ≠ .undefined := by
  cases v with
  | fin m =>
      have pos' : 0 < m := by simpa using pos
      cases u with
      | fin l => rw [div_fin_fin pos']; simp
      | negInf => rw [div_negInf_fin pos']; simp
      | posInf => rw [div_posInf_fin pos']; simp
      | undefined => exact absurd rfl left
  | posInf =>
      cases u with
      | fin l => simp [div]
      | negInf => simp [div, ExtInt.sign?, ExtInt.isInf]
      | posInf => simp [div, ExtInt.sign?, ExtInt.isInf]
      | undefined => exact absurd rfl left
  | negInf => simp at pos
  | undefined => simp at pos

/-- The least divisor is an integer above zero. -/
theorem exists_divisor (pos : .fin 0 < u) (lower : u ≤ .fin y) :
    ∃ m, u = .fin m ∧ 0 < m ∧ m ≤ y := by
  cases u with
  | fin m => exact ⟨m, rfl, by simpa using pos, by simpa using lower⟩
  | posInf => simp at lower
  | negInf => simp at pos
  | undefined => simp at pos

/-- Some quotient of ends is a lower bound of the quotient by a divisor above zero. -/
theorem exists_div_le {ul vl vh : ExtInt} (uh : ExtInt) (uLower : ul ≤ .fin x) (pos : .fin 0 < vl)
    (vLower : vl ≤ .fin y) (vUpper : .fin y ≤ vh) (inside : x.tdiv y ∈ w) :
    ∃ c ∈ [w.div ul vl, w.div ul vh, w.div uh vl, w.div uh vh], c ≤ .fin (x.tdiv y) := by
  obtain ⟨m, rfl, mpos, my⟩ := exists_divisor pos vLower
  have ypos : 0 < y := by omega
  cases ul with
  | fin l =>
      have step : l.tdiv y ≤ x.tdiv y := Int.tdiv_le_tdiv ypos (by simpa using uLower)
      rcases Int.le_total 0 l with lpos | lneg
      · refine ⟨w.div (.fin l) vh, by simp, ?_⟩
        cases vh with
        | fin h =>
            have hy : y ≤ h := by simpa using vUpper
            rw [div_fin_fin (by omega)]
            exact clamp_le_fin inside.2 (Int.le_trans (tdiv_le_tdiv_left lpos ypos hy) step)
        | posInf =>
            have quotient : 0 ≤ l.tdiv y := Int.tdiv_nonneg lpos (by omega)
            exact clamp_le_fin inside.2 (by omega)
        | negInf => simp at vUpper
        | undefined => simp at vUpper
      · refine ⟨w.div (.fin l) (.fin m), by simp, ?_⟩
        rw [div_fin_fin mpos]
        exact clamp_le_fin inside.2
          (Int.le_trans (tdiv_le_tdiv_left_of_nonpos lneg mpos my) step)
  | negInf => exact ⟨w.div .negInf (.fin m), by simp, by simp [div_negInf_fin mpos]⟩
  | posInf => simp at uLower
  | undefined => simp at uLower

/-- Some quotient of ends is an upper bound of the quotient by a divisor above zero. -/
theorem exists_le_div {uh vl vh : ExtInt} (ul : ExtInt) (uUpper : .fin x ≤ uh) (pos : .fin 0 < vl)
    (vLower : vl ≤ .fin y) (vUpper : .fin y ≤ vh) (inside : x.tdiv y ∈ w) :
    ∃ c ∈ [w.div ul vl, w.div ul vh, w.div uh vl, w.div uh vh], .fin (x.tdiv y) ≤ c := by
  obtain ⟨m, rfl, mpos, my⟩ := exists_divisor pos vLower
  have ypos : 0 < y := by omega
  cases uh with
  | fin k =>
      have step : x.tdiv y ≤ k.tdiv y := Int.tdiv_le_tdiv ypos (by simpa using uUpper)
      rcases Int.le_total 0 k with kpos | kneg
      · refine ⟨w.div (.fin k) (.fin m), by simp, ?_⟩
        rw [div_fin_fin mpos]
        exact fin_le_clamp inside.1 (Int.le_trans step (tdiv_le_tdiv_left kpos mpos my))
      · refine ⟨w.div (.fin k) vh, by simp, ?_⟩
        cases vh with
        | fin h =>
            have hy : y ≤ h := by simpa using vUpper
            rw [div_fin_fin (by omega)]
            exact fin_le_clamp inside.1
              (Int.le_trans step (tdiv_le_tdiv_left_of_nonpos kneg ypos hy))
        | posInf =>
            have quotient : k.tdiv y ≤ 0 := tdiv_nonpos kneg ypos
            exact fin_le_clamp inside.1 (by omega)
        | negInf => simp at vUpper
        | undefined => simp at vUpper
  | posInf => exact ⟨w.div .posInf (.fin m), by simp, by simp [div_posInf_fin mpos]⟩
  | negInf => simp at uUpper
  | undefined => simp at uUpper

/-! ## The size of a divisor -/

theorem sub_abs_ne_undefined (defined : v ≠ .undefined) :
    w.sub (w.abs v) (.fin 1) ≠ .undefined := by
  cases v with
  | fin m =>
      simp only [abs, clamp]
      split
      · simp [sub]
      · split <;> simp [sub]
  | negInf => simp [abs, sub]
  | posInf => simp [abs, sub]
  | undefined => exact absurd rfl defined

theorem le_sub_abs {m : Int} (inside : w.lo ≤ z) (le : z ≤ m.natAbs - 1) :
    .fin z ≤ w.sub (w.abs (.fin m)) (.fin 1) := by
  simp only [abs, clamp]
  split
  · simp [sub]
  · split
    · omega
    · exact fin_le_clamp inside le

/-- An integer smaller in size than a divisor is at most the size of the larger end, less one. -/
theorem le_max_sub_abs {vl vh : ExtInt} (lower : vl ≤ .fin y) (upper : .fin y ≤ vh)
    (inside : w.lo ≤ z) (le : z ≤ y.natAbs - 1) :
    .fin z ≤ max (w.sub (w.abs vl) (.fin 1)) (w.sub (w.abs vh) (.fin 1)) := by
  have low : w.sub (w.abs vl) (.fin 1) ≠ .undefined :=
    sub_abs_ne_undefined fun h => by simp [h] at lower
  have high : w.sub (w.abs vh) (.fin 1) ≠ .undefined :=
    sub_abs_ne_undefined fun h => by simp [h] at upper
  rcases Int.le_total 0 y with ypos | yneg
  · refine le_trans ?_ (ExtInt.le_max_right low)
    cases vh with
    | fin h =>
        have hy : y ≤ h := by simpa using upper
        exact le_sub_abs inside (by omega)
    | posInf => simp [abs, sub]
    | negInf => simp at upper
    | undefined => simp at upper
  · refine le_trans ?_ (ExtInt.le_max_left high)
    cases vl with
    | fin l =>
        have ly : l ≤ y := by simpa using lower
        exact le_sub_abs inside (by omega)
    | negInf => simp [abs, sub]
    | posInf => simp at lower
    | undefined => simp at lower

end Window

end FlowGraph
