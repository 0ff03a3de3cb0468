import FlowGraph.Proofs.Interval.Division
import Mathlib.Tactic.ByContra

/-!
# Results without values

An operation on two intervals with values can only give an interval without values if one of its
ends has no value or if its ends come out exchanged.  Opposites, products and quotients by a divisor
other than zero have values throughout.  A sum has none exactly if opposite infinities are added at
one of the ends, and a difference has none exactly if equal infinities are subtracted there
(`arithmetic_eq_empty_iff`).  Both happen: of the constants `500` and `-500` nothing is left by an
addition in a window that ends at `200` (`saturated_sum_empty`), where `0` lies well inside.

Remainders need more care, because zero is seen through the window too.  Every end of the result is
on its own side of zero as it is seen there (`remBelow_le_zero`, `zero_le_remAbove`).
-/

namespace FlowGraph

namespace Window

variable {w : Window} {u u' v v' : ExtInt}

/-! ## Sums and differences without a value -/

theorem add_eq_undefined_iff (left : u ≠ .undefined) (right : v ≠ .undefined) :
    w.add u v = .undefined ↔ u.isInf ∧ v.isInf ∧ u ≠ v := by
  cases u <;> cases v <;> simp_all [add, ExtInt.isInf]

theorem sub_eq_undefined_iff (left : u ≠ .undefined) (right : v ≠ .undefined) :
    w.sub u v = .undefined ↔ u.isInf ∧ u = v := by
  cases u <;> cases v <;> simp_all [sub, add, neg, ExtInt.isInf]

theorem add_mono (left : u ≤ u') (right : v ≤ v') (lower : w.add u v ≠ .undefined)
    (upper : w.add u' v' ≠ .undefined) : w.add u v ≤ w.add u' v' := by
  cases u <;> cases v <;> cases u' <;> cases v' <;>
    simp_all [add, ExtInt.negInf_le, ExtInt.le_posInf]
  exact clamp_mono (Int.add_le_add left right)

theorem sub_mono (left : u ≤ u') (right : v' ≤ v) (lower : w.sub u v ≠ .undefined)
    (upper : w.sub u' v' ≠ .undefined) : w.sub u v ≤ w.sub u' v' := by
  cases u <;> cases v <;> cases u' <;> cases v' <;>
    simp_all [sub, add, neg, ExtInt.negInf_le, ExtInt.le_posInf]
  exact clamp_mono (Int.sub_le_sub left right)

/-! ## Seen values -/

/-- A seen value above an integer is above what is seen of the integer. -/
theorem clamp_le_of_seen {n : Int} (seen : u.Seen w) (le : .fin n ≤ u) : w.clamp n ≤ u := by
  cases u with
  | negInf => simp at le
  | fin m => exact clamp_le_fin (seen m rfl).2 (by simpa using le)
  | posInf => exact ExtInt.le_posInf (w.clamp_ne_undefined n)
  | undefined => simp at le

/-- A seen value above zero is at least what is seen of one. -/
theorem clamp_one_le (seen : u.Seen w) (positive : .fin 0 < u) : w.clamp 1 ≤ u := by
  apply clamp_le_of_seen seen
  cases u with
  | negInf => simp at positive
  | fin n =>
      rw [ExtInt.fin_lt_fin] at positive
      rw [ExtInt.fin_le_fin]
      omega
  | posInf => exact ExtInt.fin_le_posInf
  | undefined => simp at positive

/-- A seen value below zero is at most what is seen of minus one. -/
theorem le_clamp_neg_one (seen : u.Seen w) (negative : u < .fin 0) : u ≤ w.clamp (-1) := by
  cases u with
  | negInf => exact ExtInt.negInf_le (w.clamp_ne_undefined (-1))
  | fin n =>
      rw [ExtInt.fin_lt_fin] at negative
      exact fin_le_clamp (seen n rfl).1 (by omega)
  | posInf => simp at negative
  | undefined => simp at negative

/-- The opposite of a value that is not negative is not above what is seen of zero. -/
theorem neg_le_clamp_zero (nonneg : .fin 0 ≤ u) : w.neg u ≤ w.clamp 0 := by
  have opposite : w.neg u ≤ w.neg (.fin 0) := neg_anti nonneg
  simpa [neg] using opposite

/-- A divisor other than zero has a size of at least one. -/
theorem clamp_zero_le_sub_abs (reach : w.lo ≤ 1) (defined : u ≠ .undefined) (nonzero : u ≠ .fin 0) :
    w.clamp 0 ≤ w.sub (w.abs u) (.fin 1) := by
  cases u with
  | negInf => exact ExtInt.le_posInf (w.clamp_ne_undefined 0)
  | fin m =>
      have size : (1 : Int) ≤ m.natAbs := by
        have : m ≠ 0 := fun zero => nonzero (by rw [zero])
        omega
      rcases Int.lt_or_le w.hi m.natAbs with above | notAbove
      · rw [abs, clamp_eq_posInf above]
        exact ExtInt.le_posInf (w.clamp_ne_undefined 0)
      · rw [abs, clamp_of_mem (Int.le_trans reach size) notAbove]
        exact clamp_mono (Int.sub_nonneg.mpr size)
  | posInf => exact ExtInt.le_posInf (w.clamp_ne_undefined 0)
  | undefined => exact absurd rfl defined

/-- In a window above zero, a seen divisor other than one leaves a remainder size above zero. -/
theorem zero_le_sub_abs (low : w.lo = 1) (seen : u.Seen w) (defined : u ≠ .undefined)
    (nonunit : u ≠ .fin 1) : .fin 0 ≤ w.sub (w.abs u) (.fin 1) := by
  cases u with
  | negInf => simp [abs, sub]
  | fin m =>
      have inside := seen m rfl
      have above := inside.1
      have below := inside.2
      have size : m ≠ 1 := fun one => nonunit (by rw [one])
      have isSize : (m.natAbs : Int) = m := by omega
      rw [abs, isSize, clamp_mem inside]
      have moved : w.clamp (m - 1) = .fin (m - 1) := clamp_of_mem (by omega) (by omega)
      rw [sub, moved, ExtInt.fin_le_fin]
      omega
  | posInf => simp [abs, sub]
  | undefined => exact absurd rfl defined

end Window

namespace Interval

variable {w : Window} {a b : Interval}

theorem isEmpty_eq_false_iff : a.isEmpty = false ↔ a ≠ empty := by
  rw [← Bool.not_eq_true, Ne, isEmpty_iff]

theorem ofEnds_ne_empty {lo hi : ExtInt} (left : lo ≠ .undefined) (right : hi ≠ .undefined)
    (le : lo ≤ hi) : ofEnds lo hi ≠ empty := by
  rw [ofEnds_of_le left right le]
  exact fun isEmpty => left (congrArg Interval.lo isEmpty)

/-- Ends that are in order whenever they are defined make an empty interval exactly if one of them
is not. -/
theorem ofEnds_eq_empty_iff {lo hi : ExtInt}
    (order : lo ≠ .undefined → hi ≠ .undefined → lo ≤ hi) :
    ofEnds lo hi = empty ↔ lo = .undefined ∨ hi = .undefined := by
  constructor
  · intro isEmpty
    by_contra defined
    rw [not_or] at defined
    exact ofEnds_ne_empty defined.1 defined.2 (order defined.1 defined.2) isEmpty
  · rintro (lower | upper)
    · exact dif_neg fun ends => ends.1 lower
    · exact dif_neg fun ends => ends.2.1 upper

/-- The interval around some defined values reaches from the smallest to the largest. -/
theorem around_eq {cs : List ExtInt} (defined : ∀ v ∈ cs, v ≠ .undefined) {v : ExtInt}
    (member : v ∈ cs) : (around cs).isEmpty = false ∧ (around cs).lo = .minOf cs ∧
      (around cs).hi = .maxOf cs := by
  have lower := ExtInt.minOf_le defined member
  have upper := ExtInt.le_maxOf defined member
  have isDefined := defined v member
  have least : ExtInt.minOf cs ≠ .undefined := fun none => isDefined (by simpa [none] using lower)
  have greatest : ExtInt.maxOf cs ≠ .undefined :=
    fun none => isDefined (by simpa [none] using upper)
  rw [around, ofEnds_of_le least greatest (le_trans lower upper)]
  simp [Interval.isEmpty, ExtInt.isUndefined, least, greatest]

theorem around_ne_empty {cs : List ExtInt} (defined : ∀ v ∈ cs, v ≠ .undefined) {v : ExtInt}
    (member : v ∈ cs) : around cs ≠ empty :=
  isEmpty_eq_false_iff.mp (around_eq defined member).1

theorem eq_singleton_iff {n : Int} : b = singleton (.fin n) ↔ b.lo = .fin n ∧ b.hi = .fin n := by
  have one : singleton (.fin n) = ⟨.fin n, .fin n, .inr ⟨by simp, by simp, le_refl _⟩⟩ :=
    ofEnds_of_le (by simp) (by simp) (le_refl _)
  rw [one]
  exact ⟨fun same => by rw [same]; exact ⟨rfl, rfl⟩, fun ends => eq_of_ends ends.1 ends.2⟩

/-! ## Sums, differences and products -/

/-- A sum is empty exactly if opposite infinities are added at one of the ends. -/
theorem add_eq_empty_iff (left : a.isEmpty = false) (right : b.isEmpty = false) :
    a.add w b = empty ↔
      (a.lo.isInf ∧ b.lo.isInf ∧ a.lo ≠ b.lo) ∨ (a.hi.isInf ∧ b.hi.isInf ∧ a.hi ≠ b.hi) := by
  obtain ⟨alo, ahi, ale⟩ := ends_of_nonempty left
  obtain ⟨blo, bhi, ble⟩ := ends_of_nonempty right
  rw [add, left, right, Bool.or_self, if_neg Bool.false_ne_true,
    ofEnds_eq_empty_iff (Window.add_mono ale ble), Window.add_eq_undefined_iff alo blo,
    Window.add_eq_undefined_iff ahi bhi]

/-- A difference is empty exactly if equal infinities are subtracted at one of the ends. -/
theorem sub_eq_empty_iff (left : a.isEmpty = false) (right : b.isEmpty = false) :
    a.sub w b = empty ↔ (a.lo.isInf ∧ a.lo = b.hi) ∨ (a.hi.isInf ∧ a.hi = b.lo) := by
  obtain ⟨alo, ahi, ale⟩ := ends_of_nonempty left
  obtain ⟨blo, bhi, ble⟩ := ends_of_nonempty right
  rw [sub, left, right, Bool.or_self, if_neg Bool.false_ne_true,
    ofEnds_eq_empty_iff (Window.sub_mono ale ble), Window.sub_eq_undefined_iff alo bhi,
    Window.sub_eq_undefined_iff ahi blo]

theorem mul_ne_empty (left : a.isEmpty = false) (right : b.isEmpty = false) :
    a.mul w b ≠ empty := by
  obtain ⟨alo, ahi, -⟩ := ends_of_nonempty left
  obtain ⟨blo, bhi, -⟩ := ends_of_nonempty right
  rw [mul, left, right, Bool.or_self, if_neg Bool.false_ne_true]
  refine around_ne_empty ?_ List.mem_cons_self
  simp [Window.mul_ne_undefined, alo, ahi, blo, bhi]

/-! ## Quotients -/

theorem endQuotients_ne_empty (left : a.isEmpty = false) (right : b.isEmpty = false)
    (positive : .fin 0 < b.lo) : endQuotients w a b ≠ empty := by
  obtain ⟨alo, ahi, -⟩ := ends_of_nonempty left
  have highest : .fin 0 < b.hi := lt_of_lt_of_le positive (ends_of_nonempty right).2.2
  refine around_ne_empty ?_ List.mem_cons_self
  simp [Window.div_ne_undefined, alo, ahi, positive, highest]

theorem quotient_ne_empty (reach : w.lo ≤ 1) (left : a.isEmpty = false) (right : b.isEmpty = false)
    (uncut : b.Uncut) : quotient w a b ≠ empty := by
  rcases uncut with isEmpty | positive | negative
  · exact absurd isEmpty (by simp [right])
  · rw [quotient_of_pos left right positive]
    exact endQuotients_ne_empty left right positive
  · rw [quotient_of_neg left right negative]
    exact endQuotients_ne_empty (neg_ends left).1 (neg_ends right).1
      (neg_lo_pos reach right negative)

theorem aboveZero_ne_empty (seen : b.Seen w) (right : b.isEmpty = false) (above : .fin 0 < b.hi) :
    b.aboveZero w ≠ empty :=
  ofEnds_ne_empty (w.clamp_ne_undefined 1) (ends_of_nonempty right).2.1
    (Window.clamp_one_le seen.hi above)

theorem belowZero_ne_empty (seen : b.Seen w) (right : b.isEmpty = false) (below : b.lo < .fin 0) :
    b.belowZero w ≠ empty :=
  ofEnds_ne_empty (ends_of_nonempty right).1 (w.clamp_ne_undefined (-1))
    (Window.le_clamp_neg_one seen.lo below)

/-- A divisor with a part on neither side is zero. -/
theorem eq_zero_of_no_parts (seen : b.Seen w) (right : b.isEmpty = false)
    (below : b.belowZero w = empty) (above : b.aboveZero w = empty) :
    b = singleton (.fin 0) := by
  obtain ⟨lo, hi, -⟩ := ends_of_nonempty right
  have notAbove : b.hi ≤ .fin 0 :=
    ExtInt.le_of_not_lt (by simp) hi fun beyond => aboveZero_ne_empty seen right beyond above
  have notBelow : .fin 0 ≤ b.lo :=
    ExtInt.le_of_not_lt lo (by simp) fun beyond => belowZero_ne_empty seen right beyond below
  have order := (ends_of_nonempty right).2.2
  exact eq_singleton_iff.mpr
    ⟨le_antisymm (le_trans order notAbove) notBelow, le_antisymm notAbove (le_trans notBelow order)⟩

/-- Division has a result, which is empty exactly if the divisor is zero. -/
theorem div_eq_empty_iff (down : w.lo ≤ 1) (up : -1 ≤ w.hi) (seen : b.Seen w)
    (left : a.isEmpty = false) (right : b.isEmpty = false) :
    ∃ c, a.div w b = .ok c ∧ (c = empty ↔ b = singleton (.fin 0)) := by
  by_cases uncut : b.Uncut
  · refine ⟨_, div_of_uncut down uncut, fun isEmpty => ?_, fun zero => ?_⟩
    · exact absurd isEmpty (quotient_ne_empty down left right uncut)
    · rw [zero] at uncut
      exact absurd uncut (by decide)
  · refine ⟨_, div_of_cut down up uncut, fun isEmpty => ?_, fun zero => ?_⟩
    · obtain ⟨below, above⟩ := hull_eq_empty_iff.mp isEmpty
      refine eq_zero_of_no_parts seen right ?_ ?_
      · by_contra part
        exact quotient_ne_empty down left (isEmpty_eq_false_iff.mpr part) (uncut_belowZero up) below
      · by_contra part
        exact quotient_ne_empty down left (isEmpty_eq_false_iff.mpr part) (uncut_aboveZero down)
          above
    · obtain ⟨lo, hi⟩ := eq_singleton_iff.mp zero
      rw [belowZero_of_lo up lo, aboveZero_of_hi down hi, quotient_empty_right, hull_empty_left]

/-! ## Remainders -/

theorem remSize_ne_undefined (right : b.isEmpty = false) : remSize w b ≠ .undefined :=
  have ends := ends_of_nonempty right
  ExtInt.max_ne_undefined (Window.sub_abs_ne_undefined ends.1)
    (Window.sub_abs_ne_undefined ends.2.1)

theorem le_remSize_of_end {u : ExtInt} (right : b.isEmpty = false)
    (bound : u ≤ w.sub (w.abs b.lo) (.fin 1) ∨ u ≤ w.sub (w.abs b.hi) (.fin 1)) :
    u ≤ remSize w b := by
  obtain ⟨lo, hi, -⟩ := ends_of_nonempty right
  rcases bound with lower | upper
  · exact le_trans lower (ExtInt.le_max_left (Window.sub_abs_ne_undefined hi))
  · exact le_trans upper (ExtInt.le_max_right (Window.sub_abs_ne_undefined lo))

theorem end_ne_of_ne_singleton {n : Int} (other : b ≠ singleton (.fin n)) :
    b.lo ≠ .fin n ∨ b.hi ≠ .fin n := by
  rw [← not_and_or]
  exact fun ends => other (eq_singleton_iff.mpr ends)

theorem clamp_zero_le_remSize (down : w.lo ≤ 1) (right : b.isEmpty = false)
    (nonzero : b ≠ singleton (.fin 0)) : w.clamp 0 ≤ remSize w b := by
  obtain ⟨lo, hi, -⟩ := ends_of_nonempty right
  apply le_remSize_of_end right
  exact (end_ne_of_ne_singleton nonzero).imp (Window.clamp_zero_le_sub_abs down lo)
    (Window.clamp_zero_le_sub_abs down hi)

/-- The size of a remainder is not negative.  In a window above zero the size that belongs to the
divisor one is not seen. -/
theorem zero_le_remSize (down : w.lo ≤ 1) (seen : b.Seen w) (right : b.isEmpty = false)
    (nonzero : b ≠ singleton (.fin 0)) (nonunit : 0 < w.lo → b ≠ singleton (.fin 1)) :
    .fin 0 ≤ remSize w b := by
  rcases Int.lt_or_le 0 w.lo with above | reaches
  · obtain ⟨lo, hi, -⟩ := ends_of_nonempty right
    have low : w.lo = 1 := by omega
    apply le_remSize_of_end right
    exact (end_ne_of_ne_singleton (nonunit above)).imp (Window.zero_le_sub_abs low seen.lo lo)
      (Window.zero_le_sub_abs low seen.hi hi)
  · exact le_trans (Window.fin_le_clamp reaches (Int.le_refl 0))
      (clamp_zero_le_remSize down right nonzero)

theorem zero_le_remAbove (down : w.lo ≤ 1) (seen : a.Seen w) (right : b.isEmpty = false)
    (nonzero : b ≠ singleton (.fin 0)) (reaches : .fin 0 ≤ a.hi) :
    w.clamp 0 ≤ min a.hi (remSize w b) :=
  ExtInt.le_min (Window.clamp_le_of_seen seen.hi reaches)
    (clamp_zero_le_remSize down right nonzero)

theorem remBelow_le_zero (down : w.lo ≤ 1) (seen : b.Seen w) (right : b.isEmpty = false)
    (nonzero : b ≠ singleton (.fin 0)) (nonunit : 0 < w.lo → b ≠ singleton (.fin 1))
    (reaches : a.lo < .fin 0) : w.neg (min (w.neg a.lo) (remSize w b)) ≤ w.clamp 0 :=
  Window.neg_le_clamp_zero (ExtInt.le_min (le_of_lt (Window.neg_pos down reaches))
    (zero_le_remSize down seen right nonzero nonunit))

/-- A negative lower end in a window above zero is infinite. -/
theorem lo_eq_negInf (low : 0 < w.lo) (seen : a.Seen w) (reaches : a.lo < .fin 0) :
    a.lo = .negInf := by
  cases isLo : a.lo with
  | negInf => rfl
  | fin n =>
      have inside := (seen.lo n isLo).1
      rw [isLo, ExtInt.fin_lt_fin] at reaches
      omega
  | posInf => simp [isLo] at reaches
  | undefined => simp [isLo] at reaches

/-- A positive upper end in a window below zero is infinite. -/
theorem hi_eq_posInf (high : w.hi < 0) (seen : a.Seen w) (reaches : .fin 0 < a.hi) :
    a.hi = .posInf := by
  cases isHi : a.hi with
  | negInf => simp [isHi] at reaches
  | fin n =>
      have inside := (seen.hi n isHi).2
      rw [isHi, ExtInt.fin_lt_fin] at reaches
      omega
  | posInf => rfl
  | undefined => simp [isHi] at reaches

/-- Remainders are empty exactly if the divisor is zero, unless the divisor is one and neither zero
nor the dividend is seen. -/
theorem rem_eq_empty_iff (down : w.lo ≤ 1) (ha : a.Seen w) (hb : b.Seen w)
    (left : a.isEmpty = false) (right : b.isEmpty = false)
    (nonunit : 0 < w.lo → a.lo = .negInf → b ≠ singleton (.fin 1)) :
    a.rem w b = empty ↔ b = singleton (.fin 0) := by
  have size := remSize_ne_undefined (w := w) right
  obtain ⟨lo, hi, order⟩ := ends_of_nonempty left
  have below := Window.neg_ne_undefined (w := w)
    (ExtInt.min_ne_undefined (Window.neg_ne_undefined (w := w) lo) size)
  have above := ExtInt.min_ne_undefined hi size
  constructor
  · intro isEmpty
    by_contra nonzero
    rw [rem, left, right, Bool.or_self, if_neg Bool.false_ne_true,
      if_neg fun zero => nonzero (eq_singleton_iff.mpr zero)] at isEmpty
    dsimp only at isEmpty
    split at isEmpty
    next positive =>
      have upper := zero_le_remAbove down ha right nonzero (le_trans positive order)
      exact ofEnds_ne_empty (w.clamp_ne_undefined 0) above upper isEmpty
    next notPositive =>
    have reaches : a.lo < .fin 0 := ExtInt.lt_of_not_le lo (by simp) notPositive
    have lower := remBelow_le_zero (a := a) down hb right nonzero
      (fun low => nonunit low (lo_eq_negInf low ha reaches)) reaches
    split at isEmpty
    next => exact ofEnds_ne_empty below (w.clamp_ne_undefined 0) lower isEmpty
    next notNegative =>
      have beyond := (ExtInt.le_total hi (by simp)).resolve_left notNegative
      have upper := zero_le_remAbove down ha right nonzero beyond
      exact ofEnds_ne_empty below above (le_trans lower upper) isEmpty
  · intro zero
    rw [rem, left, right, Bool.or_self, if_neg Bool.false_ne_true,
      if_pos (eq_singleton_iff.mp zero)]

/-! ## All operations -/

/-- When an operation on two intervals with values has a result without values. -/
theorem arithmetic_eq_empty_iff (down : w.lo ≤ 1) (up : -1 ≤ w.hi) (ha : a.Seen w) (hb : b.Seen w)
    (left : a ≠ empty) (right : b ≠ empty) :
    a.neg w ≠ empty ∧ a.mul w b ≠ empty ∧
    (a.add w b = empty ↔
      (a.lo.isInf ∧ b.lo.isInf ∧ a.lo ≠ b.lo) ∨ (a.hi.isInf ∧ b.hi.isInf ∧ a.hi ≠ b.hi)) ∧
    (a.sub w b = empty ↔ (a.lo.isInf ∧ a.lo = b.hi) ∨ (a.hi.isInf ∧ a.hi = b.lo)) ∧
    (∃ c, a.div w b = .ok c ∧ (c = empty ↔ b = singleton (.fin 0))) ∧
    ((0 < w.lo → a.lo = .negInf → b ≠ singleton (.fin 1)) →
      (a.rem w b = empty ↔ b = singleton (.fin 0))) := by
  rw [← isEmpty_eq_false_iff] at left right
  exact ⟨isEmpty_eq_false_iff.mp (neg_ends left).1, mul_ne_empty left right,
    add_eq_empty_iff left right, sub_eq_empty_iff left right,
    div_eq_empty_iff down up hb left right, rem_eq_empty_iff down ha hb left right⟩

/-- A divisor that reaches to both sides of zero, and a dividend without a lower end. -/
theorem arithmetic_eq_empty_iff_straddling :
    ((ofEnds .negInf (.fin 5)).Seen Window.loops ∧
      (range Window.loops (-3) 4).Seen Window.loops) ∧
    ∃ c, (ofEnds .negInf (.fin 5)).div Window.loops (range Window.loops (-3) 4) = .ok c ∧
      (c = empty ↔ range Window.loops (-3) 4 = singleton (.fin 0)) :=
  have dividend : (ofEnds .negInf (.fin 5)).Seen Window.loops :=
    seen_ofEnds ExtInt.seen_negInf fun n isFin => by cases isFin; decide
  have divisor : (range Window.loops (-3) 4).Seen Window.loops :=
    seen_ofEnds (Window.loops.seen_clamp _) (Window.loops.seen_clamp _)
  ⟨⟨dividend, divisor⟩,
    (arithmetic_eq_empty_iff (by decide) (by decide) dividend divisor (by decide)
      (by decide)).2.2.2.2.1⟩

/-- The constants `500` and `-500` add up to zero, and their sum is empty in a window that ends at
`200`.  So is the difference of two constants above the window, and in a window from one on the
remainder by one of an interval without a lower end. -/
theorem saturated_sum_empty :
    ((const Window.loops 500).Seen Window.loops ∧ (const Window.loops (-500)).Seen Window.loops ∧
      (const Window.loops 600).Seen Window.loops) ∧
    const Window.loops 500 ≠ empty ∧ const Window.loops (-500) ≠ empty ∧
    const Window.loops 600 ≠ empty ∧
    (const Window.loops 500).add Window.loops (const Window.loops (-500)) = empty ∧
    (const Window.loops 600).sub Window.loops (const Window.loops 500) = empty ∧
    let fromOne : Window := ⟨1, 10, by decide⟩
    ((ofEnds .negInf (.fin 5)).Seen fromOne ∧ (const fromOne 1).Seen fromOne) ∧
    ofEnds .negInf (.fin 5) ≠ empty ∧ const fromOne 1 ≠ empty ∧
    (ofEnds .negInf (.fin 5)).rem fromOne (const fromOne 1) = empty := by
  have dividend : (ofEnds .negInf (.fin 5)).Seen ⟨1, 10, by decide⟩ :=
    seen_ofEnds ExtInt.seen_negInf fun n isFin => by cases isFin; decide
  exact ⟨⟨seen_const _, seen_const _, seen_const _⟩, by decide, by decide, by decide, by decide,
    by decide, ⟨dividend, seen_const _⟩, by decide, by decide, by decide⟩

end Interval

end FlowGraph
