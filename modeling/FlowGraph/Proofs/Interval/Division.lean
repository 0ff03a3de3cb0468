import FlowGraph.Proofs.Interval.Window

/-!
# Division

A divisor on one side of zero is divided by at once (`quotient`).  Any other divisor is cut into its
part below zero and its part above.  If the window reaches down to `1` and up to `-1`, then neither
part is cut again, and division is the hull of the quotients by the two parts (`div_of_cut`).  So it
has a result for every divisor (`div_returns`).

The quotients by a divisor above zero are all found.  A divisor below zero is negated together with
the dividend, and both opposites are clamped before the division.  Where they leave the window the
quotient can get lost, even one that lies well inside (`div_loses_quotient`).  It is found whenever
the opposite of the dividend stays in the window, and also when the two intervals have members
whose opposites do (`tdiv_mem_div`).
-/

namespace FlowGraph

namespace Window

variable {w : Window} {u : ExtInt} {x : Int}

theorem neg_ne_undefined (defined : u ≠ .undefined) : w.neg u ≠ .undefined := by
  cases u with
  | negInf => simp [neg]
  | fin n => exact w.clamp_ne_undefined _
  | posInf => simp [neg]
  | undefined => exact absurd rfl defined

theorem neg_pos (reach : w.lo ≤ 1) (negative : u < .fin 0) : .fin 0 < w.neg u := by
  cases u with
  | negInf => simp [neg]
  | fin n =>
      rw [ExtInt.fin_lt_fin] at negative
      exact clamp_pos reach (by omega)
  | posInf => simp at negative
  | undefined => simp at negative

/-- Over an infinity a lower bound becomes a lower bound of zero. -/
theorem div_posInf_le_zero (zero : 0 ∈ w) (lower : u ≤ .fin x) : w.div u .posInf ≤ .fin 0 := by
  cases u with
  | negInf => exact clamp_le_fin zero.2 (by decide)
  | fin n => exact clamp_le_fin zero.2 (Int.le_refl 0)
  | posInf => simp at lower
  | undefined => simp at lower

/-- Over an infinity an upper bound becomes an upper bound of zero. -/
theorem zero_le_div_posInf (zero : 0 ∈ w) (upper : .fin x ≤ u) : .fin 0 ≤ w.div u .posInf := by
  cases u with
  | posInf => exact fin_le_clamp zero.1 (by decide)
  | fin n => exact fin_le_clamp zero.1 (Int.le_refl 0)
  | negInf => simp at upper
  | undefined => simp at upper

end Window

namespace Interval

variable {w : Window} {a b c : Interval} {x y z : Int}

/-! ## Opposites -/

theorem neg_ends (nonempty : a.isEmpty = false) :
    (a.neg w).isEmpty = false ∧ (a.neg w).lo = w.neg a.hi ∧ (a.neg w).hi = w.neg a.lo := by
  obtain ⟨lower, upper, le⟩ := ends_of_nonempty nonempty
  have lower' : w.neg a.lo ≠ .undefined := Window.neg_ne_undefined lower
  have upper' : w.neg a.hi ≠ .undefined := Window.neg_ne_undefined upper
  rw [neg, nonempty, if_neg Bool.false_ne_true, ofEnds_of_le upper' lower' (Window.neg_anti le)]
  simp [Interval.isEmpty, ExtInt.isUndefined, lower', upper']

/-- An opposite beyond the window is a member if some other opposite lies in the window. -/
theorem mem_neg_of_mem (left : .fin x ∈ a) (other : .fin z ∈ a) (inside : -z ∈ w) :
    .fin (-x) ∈ a.neg w := by
  obtain ⟨-, lowest, highest⟩ := neg_ends (w := w) (isEmpty_of_mem left)
  have hx := fin_mem_iff.mp left
  have hz := fin_mem_iff.mp other
  rw [fin_mem_iff, lowest, highest]
  rcases Int.lt_or_le w.hi (-x) with above | notAbove
  · have saturated : .posInf ≤ w.neg a.lo := by
      rw [← Window.clamp_eq_posInf above]
      exact Window.neg_anti hx.1
    have below : ExtInt.fin (-z) ≤ .fin (-x) := by
      rw [ExtInt.fin_le_fin]
      exact Int.le_trans inside.2 (Int.le_of_lt above)
    exact ⟨le_trans (Window.neg_le hz.2 inside.2) below,
      le_trans ExtInt.fin_le_posInf saturated⟩
  · rcases Int.lt_or_le (-x) w.lo with below | notBelow
    · have saturated : w.neg a.hi ≤ .negInf := by
        rw [← Window.clamp_eq_negInf below]
        exact Window.neg_anti hx.2
      have above : ExtInt.fin (-x) ≤ .fin (-z) := by
        rw [ExtInt.fin_le_fin]
        exact Int.le_trans (Int.le_of_lt below) inside.1
      exact ⟨le_trans saturated ExtInt.negInf_le_fin,
        le_trans above (Window.le_neg hz.1 inside.1)⟩
    · exact ⟨Window.neg_le hx.2 notAbove, Window.le_neg hx.1 notBelow⟩

/-- The opposite of a negative divisor is positive. -/
theorem neg_lo_pos (reach : w.lo ≤ 1) (nonempty : b.isEmpty = false) (negative : b.hi < .fin 0) :
    .fin 0 < (b.neg w).lo := by
  rw [(neg_ends nonempty).2.1]
  exact Window.neg_pos reach negative

/-! ## Divisors on one side of zero -/

/-- A divisor that need not be cut: it has no value, or all its values are on one side of zero. -/
def Uncut (b : Interval) : Prop := b.isEmpty = true ∨ .fin 0 < b.lo ∨ b.hi < .fin 0

instance (b : Interval) : Decidable b.Uncut :=
  inferInstanceAs (Decidable (b.isEmpty = true ∨ .fin 0 < b.lo ∨ b.hi < .fin 0))

/-- A divisor is cut exactly if zero lies between its ends. -/
theorem not_uncut_iff : ¬ b.Uncut ↔ b.isEmpty = false ∧ b.lo ≤ .fin 0 ∧ .fin 0 ≤ b.hi := by
  constructor
  · intro cut
    obtain ⟨nonempty, notPositive, notNegative⟩ : b.isEmpty = false ∧ ¬ .fin 0 < b.lo ∧
        ¬ b.hi < .fin 0 := by
      simpa [Uncut] using cut
    obtain ⟨lo, hi, -⟩ := ends_of_nonempty nonempty
    exact ⟨nonempty, ExtInt.le_of_not_lt (by simp) lo notPositive,
      ExtInt.le_of_not_lt hi (by simp) notNegative⟩
  · rintro ⟨nonempty, lower, upper⟩ (isEmpty | positive | negative)
    · simp [nonempty] at isEmpty
    · exact absurd lower (not_le_of_gt positive)
    · exact absurd upper (not_le_of_gt negative)

/-- The least interval around the quotients of the ends. -/
def endQuotients (w : Window) (a b : Interval) : Interval :=
  around [w.div a.lo b.lo, w.div a.lo b.hi, w.div a.hi b.lo, w.div a.hi b.hi]

/-- The quotients by a divisor on one side of zero.  A divisor below zero is negated together with
the dividend. -/
def quotient (w : Window) (a b : Interval) : Interval :=
  if a.isEmpty || b.isEmpty then empty
  else if b.lo > .fin 0 then endQuotients w a b
  else endQuotients w (a.neg w) (b.neg w)

@[simp] theorem quotient_empty_left : quotient w empty b = empty := rfl

@[simp] theorem quotient_empty_right : quotient w a empty = empty := by
  rw [quotient, if_pos]
  exact Bool.or_eq_true_iff.mpr (.inr rfl)

theorem quotient_of_pos (left : a.isEmpty = false) (right : b.isEmpty = false)
    (positive : .fin 0 < b.lo) : quotient w a b = endQuotients w a b := by
  rw [quotient, left, right, Bool.or_self, if_neg Bool.false_ne_true, if_pos positive]

/-- A negative divisor has no positive end. -/
theorem not_lo_pos (nonempty : b.isEmpty = false) (negative : b.hi < .fin 0) : ¬ .fin 0 < b.lo :=
  fun positive =>
    absurd (ends_of_nonempty nonempty).2.2 (not_le_of_gt (lt_trans negative positive))

theorem quotient_of_neg (left : a.isEmpty = false) (right : b.isEmpty = false)
    (negative : b.hi < .fin 0) : quotient w a b = endQuotients w (a.neg w) (b.neg w) := by
  rw [quotient, left, right, Bool.or_self, if_neg Bool.false_ne_true,
    if_neg (not_lo_pos right negative)]

theorem divPositive_eq (positive : .fin 0 < b.lo) :
    divPositive w a b = .ok (endQuotients w a b) :=
  if_pos positive

theorem divWithin_of_uncut (reach : w.lo ≤ 1) (uncut : b.Uncut) (depth : Nat) :
    divWithin w a (depth + 1) b = .ok (quotient w a b) := by
  rw [divWithin, quotient]
  split
  next => rfl
  next nonempty =>
    simp only [Bool.or_eq_true, not_or, Bool.not_eq_true] at nonempty
    rcases uncut with isEmpty | positive | negative
    · exact absurd isEmpty (by simp [nonempty.2])
    · rw [if_neg fun zero => ne_of_gt positive zero.1, if_pos positive, if_pos positive,
        divPositive_eq positive]
    · have notPositive := not_lo_pos nonempty.2 negative
      rw [if_neg fun zero => ne_of_lt negative zero.2, if_neg notPositive, if_pos negative,
        if_neg notPositive, divPositive_eq (neg_lo_pos reach nonempty.2 negative)]

theorem div_of_uncut (reach : w.lo ≤ 1) (uncut : b.Uncut) :
    a.div w b = .ok (quotient w a b) :=
  divWithin_of_uncut reach uncut 1

/-! ## Divisors that are cut -/

theorem aboveZero_lo_pos (reach : w.lo ≤ 1) (nonempty : (b.aboveZero w).isEmpty = false) :
    .fin 0 < (b.aboveZero w).lo := by
  unfold aboveZero ofEnds at nonempty ⊢
  split
  next => exact Window.clamp_pos reach (by decide)
  next none =>
    rw [dif_neg none] at nonempty
    cases nonempty

theorem belowZero_hi_neg (reach : -1 ≤ w.hi) (nonempty : (b.belowZero w).isEmpty = false) :
    (b.belowZero w).hi < .fin 0 := by
  unfold belowZero ofEnds at nonempty ⊢
  split
  next => exact Window.clamp_neg reach (by decide)
  next none =>
    rw [dif_neg none] at nonempty
    cases nonempty

theorem uncut_aboveZero (reach : w.lo ≤ 1) : (b.aboveZero w).Uncut := by
  cases nonempty : (b.aboveZero w).isEmpty with
  | true => exact .inl nonempty
  | false => exact .inr (.inl (aboveZero_lo_pos reach nonempty))

theorem uncut_belowZero (reach : -1 ≤ w.hi) : (b.belowZero w).Uncut := by
  cases nonempty : (b.belowZero w).isEmpty with
  | true => exact .inl nonempty
  | false => exact .inr (.inr (belowZero_hi_neg reach nonempty))

theorem aboveZero_of_hi (reach : w.lo ≤ 1) (zero : b.hi = .fin 0) : b.aboveZero w = empty := by
  have positive : .fin 0 < w.clamp 1 := Window.clamp_pos reach (by decide)
  rw [aboveZero, zero, ofEnds, dif_neg]
  exact fun ends => absurd ends.2.2 (not_le_of_gt positive)

theorem belowZero_of_lo (reach : -1 ≤ w.hi) (zero : b.lo = .fin 0) : b.belowZero w = empty := by
  have negative : w.clamp (-1) < .fin 0 := Window.clamp_neg reach (by decide)
  rw [belowZero, zero, ofEnds, dif_neg]
  exact fun ends => absurd ends.2.2 (not_le_of_gt negative)

/-- Division by a divisor that reaches zero is the hull of the quotients by its two parts. -/
theorem div_of_cut (down : w.lo ≤ 1) (up : -1 ≤ w.hi) (cut : ¬ b.Uncut) :
    a.div w b = .ok ((quotient w a (b.belowZero w)).hull (quotient w a (b.aboveZero w))) := by
  have below := divWithin_of_uncut (a := a) down (uncut_belowZero (b := b) up) 0
  have above := divWithin_of_uncut (a := a) down (uncut_aboveZero (b := b) down) 0
  rw [div, divWithin]
  split
  next isEmpty =>
    have dividend : a.isEmpty = true :=
      (Bool.or_eq_true_iff.mp isEmpty).resolve_right fun divisor => cut (.inl divisor)
    rw [isEmpty_iff.mp dividend, quotient_empty_left, quotient_empty_left, hull_empty_left]
  next =>
  split
  next zero =>
    rw [belowZero_of_lo up zero.1, aboveZero_of_hi down zero.2, quotient_empty_right,
      hull_empty_left]
  next =>
  rw [if_neg fun positive => cut (.inr (.inl positive)),
    if_neg fun negative => cut (.inr (.inr negative)), below, above]
  split
  next zero => rw [belowZero_of_lo up zero, quotient_empty_right, hull_empty_left]
  next =>
  split
  next zero => rw [aboveZero_of_hi down zero, quotient_empty_right, hull_empty_right]
  next => rfl

/-- Division has a result if the window reaches down to `1` and up to `-1`. -/
theorem div_returns (down : w.lo ≤ 1) (up : -1 ≤ w.hi) : ∃ c, div w a b = .ok c := by
  by_cases uncut : b.Uncut
  · exact ⟨_, div_of_uncut down uncut⟩
  · exact ⟨_, div_of_cut down up uncut⟩

/-! ## The quotients are found -/

theorem mem_endQuotients (left : .fin x ∈ a) (right : .fin y ∈ b) (positive : .fin 0 < b.lo)
    (inside : x.tdiv y ∈ w) : .fin (x.tdiv y) ∈ endQuotients w a b :=
  mem_divPositive left right inside (divPositive_eq positive)

/-- A divisor that reaches infinity brings the quotient zero. -/
theorem zero_mem_endQuotients (left : .fin x ∈ a) (right : b.isEmpty = false)
    (positive : .fin 0 < b.lo) (unbounded : b.hi = .posInf) (zero : 0 ∈ w) :
    .fin 0 ∈ endQuotients w a b := by
  have hx := fin_mem_iff.mp left
  obtain ⟨alo, ahi⟩ := ends_ne_undefined left
  have highest : .fin 0 < b.hi := lt_of_lt_of_le positive (ends_of_nonempty right).2.2
  have below : w.div a.lo b.hi ≤ .fin 0 := by
    rw [unbounded]
    exact Window.div_posInf_le_zero zero hx.1
  have above : .fin 0 ≤ w.div a.hi b.hi := by
    rw [unbounded]
    exact Window.zero_le_div_posInf zero hx.2
  refine fin_mem_around ?_ (by simp) (by simp) below above
  simp [Window.div_ne_undefined, alo, ahi, positive, highest]

/-- A dividend whose opposite stays in the window is smaller in size than a divisor whose opposite
does not. -/
theorem tdiv_eq_zero_of_beyond (hx : x ∈ w) (opposite : -x ∈ w) (beyond : w.hi < -y) :
    x.tdiv y = 0 := by
  have upper := hx.2
  have lower := opposite.2
  have size : x.natAbs < y.natAbs := by omega
  rw [← Int.natAbs_eq_zero, Int.natAbs_tdiv]
  exact Nat.div_eq_of_lt size

/-- The quotient by a negative divisor is found if the opposite of the dividend stays in the window,
or if the opposites of both intervals have members. -/
theorem mem_quotient_of_neg (down : w.lo ≤ 1) (left : .fin x ∈ a) (right : .fin y ∈ b)
    (negative : b.hi < .fin 0) (hx : x ∈ w) (inside : x.tdiv y ∈ w)
    (opposites : -x ∈ w ∨ (∃ z, .fin z ∈ a ∧ -z ∈ w) ∧ ∃ z, .fin z ∈ b ∧ -z ∈ w) :
    .fin (x.tdiv y) ∈ quotient w a b := by
  have nonempty := isEmpty_of_mem right
  have positive := neg_lo_pos down nonempty negative
  have isNeg : y < 0 := by simpa using lt_of_le_of_lt right.2.2 negative
  rw [quotient_of_neg (isEmpty_of_mem left) nonempty negative]
  have found : .fin (-x) ∈ a.neg w → .fin (-y) ∈ b.neg w →
      .fin (x.tdiv y) ∈ endQuotients w (a.neg w) (b.neg w) := by
    intro dividend divisor
    have member := mem_endQuotients (w := w) dividend divisor positive
      (by rwa [Int.neg_tdiv_neg])
    rwa [Int.neg_tdiv_neg] at member
  rcases opposites with opposite | ⟨⟨u, hu, insideU⟩, v, hv, insideV⟩
  · have dividend := mem_neg left opposite
    rcases Int.lt_or_le w.hi (-y) with beyond | within
    · -- the divisor saturates, and the quotient is zero
      have zero := tdiv_eq_zero_of_beyond hx opposite beyond
      have unbounded : (b.neg w).hi = .posInf := by
        have reaches : w.neg (.fin y) ≤ w.neg b.lo := Window.neg_anti right.2.1
        rw [Window.neg, Window.clamp_eq_posInf beyond] at reaches
        rw [(neg_ends nonempty).2.2]
        exact le_antisymm
          (ExtInt.le_posInf (Window.neg_ne_undefined (ends_of_nonempty nonempty).1)) reaches
      rw [zero] at inside ⊢
      exact zero_mem_endQuotients dividend (neg_ends nonempty).1 positive unbounded inside
    · exact found dividend (mem_neg right ⟨by omega, within⟩)
  · exact found (mem_neg_of_mem left hu insideU) (mem_neg_of_mem right hv insideV)

/-- Division has the quotient of every two members whose quotient lies in the window.  For a negative
divisor this needs that saturation leaves something of the opposites: the opposite of the dividend
lies in the window, or some dividend and some negative divisor have opposites there. -/
theorem tdiv_mem_div (down : w.lo ≤ 1) (up : -1 ≤ w.hi) (left : .fin x ∈ a) (right : .fin y ∈ b)
    (hx : x ∈ w) (hy : y ∈ w) (nonzero : y ≠ 0) (inside : x.tdiv y ∈ w)
    (opposites : y < 0 →
      -x ∈ w ∨ (∃ z, .fin z ∈ a ∧ -z ∈ w) ∧ ∃ z < 0, .fin z ∈ b ∧ -z ∈ w) :
    ∃ c, a.div w b = .ok c ∧ .fin (x.tdiv y) ∈ c := by
  by_cases uncut : b.Uncut
  · refine ⟨_, div_of_uncut down uncut, ?_⟩
    rcases uncut with isEmpty | positive | negative
    · exact absurd isEmpty (by simp [isEmpty_of_mem right])
    · rw [quotient_of_pos (isEmpty_of_mem left) (isEmpty_of_mem right) positive]
      exact mem_endQuotients left right positive inside
    · have isNeg : y < 0 := by simpa using lt_of_le_of_lt right.2.2 negative
      refine mem_quotient_of_neg down left right negative hx inside ?_
      exact (opposites isNeg).imp_right fun ⟨dividend, z, _, divisor⟩ => ⟨dividend, z, divisor⟩
  · refine ⟨_, div_of_cut down up uncut, ?_⟩
    rcases Int.lt_or_gt_of_ne nonzero with isNeg | isPos
    · have reach : w.lo ≤ -1 := Int.le_trans hy.1 (by omega)
      have member := mem_belowZero right reach isNeg
      have negative := belowZero_hi_neg up (isEmpty_of_mem member)
      refine mem_hull_left (mem_quotient_of_neg down left member negative hx inside ?_)
      exact (opposites isNeg).imp_right fun ⟨dividend, z, isNeg', divisor, insideZ⟩ =>
        ⟨dividend, z, mem_belowZero divisor reach isNeg', insideZ⟩
    · have member := mem_aboveZero right (Int.le_trans (by omega) hy.2) isPos
      have positive := aboveZero_lo_pos down (isEmpty_of_mem member)
      refine mem_hull_right ?_
      rw [quotient_of_pos (isEmpty_of_mem left) (isEmpty_of_mem member) positive]
      exact mem_endQuotients left member positive inside

/-- A window that reaches further down than up. -/
def lopsided : Window := ⟨-20, 7, by decide⟩

/-- The opposites of `-20` and of `-8` are above the window, but those of `0` and `-2` are not. -/
theorem tdiv_mem_div_lopsided :
    (.fin (-20) ∈ range lopsided (-20) 5 ∧ .fin (-8) ∈ range lopsided (-8) (-2) ∧
      -(-20) ∉ lopsided ∧ -(-8) ∉ lopsided ∧ (-20 : Int).tdiv (-8) ∈ lopsided) ∧
    ∃ c, (range lopsided (-20) 5).div lopsided (range lopsided (-8) (-2)) = .ok c ∧
      .fin ((-20 : Int).tdiv (-8)) ∈ c :=
  ⟨by decide, tdiv_mem_div (by decide) (by decide) (by decide) (by decide) (by decide) (by decide)
    (by decide) (by decide) fun _ => .inr ⟨⟨0, by decide, by decide⟩, -2, by decide, by decide,
      by decide⟩⟩

/-- The quotient of the least integer of 64 bits by `-2` lies in the window of these integers, and
the division has another result.  A lopsided window makes `20 / 8` a unit. -/
theorem div_loses_quotient :
    ((const Window.full (-9223372036854775808)).Seen Window.full ∧
      (const Window.full (-2)).Seen Window.full ∧
      .fin (-9223372036854775808) ∈ const Window.full (-9223372036854775808) ∧
      .fin (-2) ∈ const Window.full (-2) ∧
      (-9223372036854775808 : Int).tdiv (-2) ∈ Window.full ∧
      ∃ c, (const Window.full (-9223372036854775808)).div Window.full (const Window.full (-2)) =
          .ok c ∧
        .fin ((-9223372036854775808 : Int).tdiv (-2)) ∉ c) ∧
    ((const lopsided (-20)).Seen lopsided ∧ (const lopsided (-8)).Seen lopsided ∧
      .fin (-20) ∈ const lopsided (-20) ∧ .fin (-8) ∈ const lopsided (-8) ∧
      (-20 : Int).tdiv (-8) ∈ lopsided ∧
      ∃ c, (const lopsided (-20)).div lopsided (const lopsided (-8)) = .ok c ∧
        .fin ((-20 : Int).tdiv (-8)) ∉ c) :=
  ⟨⟨seen_const _, seen_const _, by decide, by decide, by decide, singleton .posInf, rfl, by decide⟩,
    seen_const _, seen_const _, by decide, by decide, by decide, singleton (.fin 1), rfl, by decide⟩

end Interval

end FlowGraph
