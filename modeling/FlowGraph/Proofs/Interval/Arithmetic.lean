import FlowGraph.Proofs.Fault
import FlowGraph.Proofs.Interval.Hull
import FlowGraph.Proofs.Value.Arithmetic

/-!
# Interval arithmetic has every result

If two integers are members of two intervals and the exact result of an operation lies in the
window, then it is a member of the interval that the operation gives.  This needs nothing of the
ends, which may be infinite or lie outside the window.

Division by a negative divisor goes through the opposite of both operands, and remainders through
the opposite of a bound.  Their opposites have to lie in the window as well, or at least zero
has to.
-/

namespace FlowGraph

namespace Interval

variable {w : Window} {a b c : Interval} {x y z : Int}

theorem mem_neg (left : .fin x ∈ a) (inside : -x ∈ w) : .fin (-x) ∈ a.neg w := by
  have member := fin_mem_iff.mp left
  rw [neg, isEmpty_of_mem left, if_neg Bool.false_ne_true]
  exact fin_mem_ofEnds (Window.neg_le member.2 inside.2) (Window.le_neg member.1 inside.1)

theorem mem_add (left : .fin x ∈ a) (right : .fin y ∈ b) (inside : x + y ∈ w) :
    .fin (x + y) ∈ a.add w b := by
  have hx := fin_mem_iff.mp left
  have hy := fin_mem_iff.mp right
  rw [add, isEmpty_of_mem left, isEmpty_of_mem right, Bool.or_self, if_neg Bool.false_ne_true]
  exact fin_mem_ofEnds (Window.add_le hx.1 hy.1 inside) (Window.le_add hx.2 hy.2 inside)

theorem mem_sub (left : .fin x ∈ a) (right : .fin y ∈ b) (inside : x - y ∈ w) :
    .fin (x - y) ∈ a.sub w b := by
  have hx := fin_mem_iff.mp left
  have hy := fin_mem_iff.mp right
  rw [sub, isEmpty_of_mem left, isEmpty_of_mem right, Bool.or_self, if_neg Bool.false_ne_true]
  exact fin_mem_ofEnds (Window.sub_le hx.1 hy.2 inside) (Window.le_sub hx.2 hy.1 inside)

/-- The ends of an interval with a member are defined. -/
theorem ends_ne_undefined (member : .fin x ∈ a) : a.lo ≠ .undefined ∧ a.hi ≠ .undefined :=
  have ends := ends_of_nonempty (isEmpty_of_mem member)
  ⟨ends.1, ends.2.1⟩

theorem mem_mul (left : .fin x ∈ a) (right : .fin y ∈ b) (inside : x * y ∈ w) :
    .fin (x * y) ∈ a.mul w b := by
  obtain ⟨alo, ahi⟩ := ends_ne_undefined left
  obtain ⟨blo, bhi⟩ := ends_ne_undefined right
  have hx := fin_mem_iff.mp left
  have hy := fin_mem_iff.mp right
  rw [mul, isEmpty_of_mem left, isEmpty_of_mem right, Bool.or_self, if_neg Bool.false_ne_true]
  obtain ⟨u, below, lower⟩ := Window.exists_mul_le hx.1 hx.2 hy.1 hy.2 inside
  obtain ⟨v, above, upper⟩ := Window.exists_le_mul hx.1 hx.2 hy.1 hy.2 inside
  refine fin_mem_around ?_ below above lower upper
  simp [Window.mul_ne_undefined, *]

/-! ## Division -/

theorem mem_divPositive (left : .fin x ∈ a) (right : .fin y ∈ b) (inside : x.tdiv y ∈ w)
    (divided : divPositive w a b = .ok c) : .fin (x.tdiv y) ∈ c := by
  unfold divPositive at divided
  split at divided
  next positive =>
    cases divided
    obtain ⟨alo, ahi⟩ := ends_ne_undefined left
    have hx := fin_mem_iff.mp left
    have hy := fin_mem_iff.mp right
    have lowest : .fin 0 < b.lo := positive
    have highest : .fin 0 < b.hi := lt_of_lt_of_le lowest (le_trans hy.1 hy.2)
    obtain ⟨u, below, lower⟩ := Window.exists_div_le a.hi hx.1 lowest hy.1 hy.2 inside
    obtain ⟨v, above, upper⟩ := Window.exists_le_div a.lo hx.2 lowest hy.1 hy.2 inside
    refine fin_mem_around ?_ below above lower upper
    simp [Window.div_ne_undefined, alo, ahi, lowest, highest]
  next => cases divided

/-- A divisor other than zero lies in the part of its sign. -/
theorem mem_belowZero (right : .fin y ∈ b) (reach : w.lo ≤ -1) (neg : y < 0) :
    .fin y ∈ b.belowZero w := by
  have below : ExtInt.fin y ≤ .fin (-1) := by rw [ExtInt.fin_le_fin]; omega
  exact fin_mem_ofEnds (fin_mem_iff.mp right).1
    (le_trans below (Window.fin_le_clamp reach (Int.le_refl _)))

theorem mem_aboveZero (right : .fin y ∈ b) (reach : 1 ≤ w.hi) (pos : 0 < y) :
    .fin y ∈ b.aboveZero w := by
  have above : ExtInt.fin 1 ≤ .fin y := by rw [ExtInt.fin_le_fin]; omega
  exact fin_mem_ofEnds (le_trans (Window.clamp_le_fin reach (Int.le_refl _)) above)
    (fin_mem_iff.mp right).2

theorem mem_divWithin (left : .fin x ∈ a) (hx : -x ∈ w) (hy : y ∈ w) (hy' : -y ∈ w)
    (nonzero : y ≠ 0) (inside : x.tdiv y ∈ w) {depth : Nat} (right : .fin y ∈ b)
    (divided : divWithin w a depth b = .ok c) : .fin (x.tdiv y) ∈ c := by
  have below : y < 0 → w.lo ≤ -1 := fun neg => Int.le_trans hy.1 (by omega)
  have above : 0 < y → 1 ≤ w.hi := fun pos => Int.le_trans (by omega) hy.2
  -- a part of the divisor is divided by with one level less
  induction depth generalizing b c with
  | zero => cases divided
  | succ depth ih =>
      have bounds := fin_mem_iff.mp right
      rw [divWithin, isEmpty_of_mem left, isEmpty_of_mem right, Bool.or_self,
        if_neg Bool.false_ne_true] at divided
      split at divided
      next zero =>
        rw [zero.1, zero.2, ExtInt.fin_le_fin, ExtInt.fin_le_fin] at bounds
        omega
      next =>
      split at divided
      next => exact mem_divPositive left right inside divided
      next =>
      split at divided
      next =>
        have opposite := mem_divPositive (mem_neg left hx) (mem_neg right hy')
          (by rwa [Int.neg_tdiv_neg]) divided
        rwa [Int.neg_tdiv_neg] at opposite
      next =>
      split at divided
      next lowest =>
        rw [lowest, ExtInt.fin_le_fin] at bounds
        have pos : 0 < y := by omega
        exact ih (mem_aboveZero right (above pos) pos) divided
      next =>
      split at divided
      next highest =>
        rw [highest, ExtInt.fin_le_fin] at bounds
        have neg : y < 0 := by omega
        exact ih (mem_belowZero right (below neg) neg) divided
      next =>
        obtain ⟨lower, hlower, divided⟩ := bind_eq_ok_iff.mp divided
        obtain ⟨upper, hupper, divided⟩ := bind_eq_ok_iff.mp divided
        cases pure_eq_ok_iff.mp divided
        rcases Int.lt_or_gt_of_ne nonzero with neg | pos
        · exact mem_hull_left (ih (mem_belowZero right (below neg) neg) hlower)
        · exact mem_hull_right (ih (mem_aboveZero right (above pos) pos) hupper)

theorem mem_div (left : .fin x ∈ a) (right : .fin y ∈ b) (hx : -x ∈ w) (hy : y ∈ w)
    (hy' : -y ∈ w) (nonzero : y ≠ 0) (inside : x.tdiv y ∈ w) (divided : a.div w b = .ok c) :
    .fin (x.tdiv y) ∈ c :=
  mem_divWithin left hx hy hy' nonzero inside right divided

/-! ## Remainder -/

/-- The size of a remainder is below that of the divisor and at most that of the dividend. -/
theorem natAbs_tmod_bounds (nonzero : y ≠ 0) :
    (x.tmod y).natAbs < y.natAbs ∧ (x.tmod y).natAbs ≤ x.natAbs := by
  rw [Int.natAbs_tmod]
  exact ⟨Nat.mod_lt _ (by omega), Nat.mod_le _ _⟩

theorem tmod_nonpos (nonpos : x ≤ 0) : x.tmod y ≤ 0 := by
  have opposite : 0 ≤ (-x).tmod y := Int.tmod_nonneg y (by omega)
  rw [Int.neg_tmod] at opposite
  omega

/-- The bound on the size of a remainder by a divisor in an interval. -/
def remSize (w : Window) (b : Interval) : ExtInt :=
  max (w.sub (w.abs b.lo) (.fin 1)) (w.sub (w.abs b.hi) (.fin 1))

/-- An integer that is not negative and smaller than a divisor is within the bound. -/
theorem le_remSize (right : .fin y ∈ b) (zero : 0 ∈ w) (nonneg : 0 ≤ z)
    (lt : z.natAbs < y.natAbs) : .fin z ≤ remSize w b := by
  have bounds := fin_mem_iff.mp right
  have lowest : w.lo ≤ 0 := zero.1
  exact Window.le_max_sub_abs bounds.1 bounds.2 (by omega) (by omega)

/-- An integer that is not positive and smaller in size than a divisor is above the opposite
bound. -/
theorem neg_remSize_le (right : .fin y ∈ b) (zero : 0 ∈ w) (nonpos : z ≤ 0)
    (lt : z.natAbs < y.natAbs) (lower : a.lo ≤ .fin z) (inside : z ≤ w.hi) :
    w.neg (min (w.neg a.lo) (remSize w b)) ≤ .fin z := by
  have lowest : w.lo ≤ 0 := zero.1
  have opposite : .fin (-z) ≤ w.neg a.lo := Window.le_neg lower (by omega)
  have size : .fin (-z) ≤ remSize w b := le_remSize right zero (by omega) (by omega)
  have bound := Window.neg_le (w := w) (ExtInt.le_min opposite size) (by omega)
  rwa [Int.neg_neg] at bound

/-- An integer is in the interval of remainders if it keeps to the bounds of whichever signs the
dividend has. -/
theorem mem_rem_of_bounds (left : a.isEmpty = false) (right : b.isEmpty = false)
    (nonzero : ¬ (b.lo = .fin 0 ∧ b.hi = .fin 0))
    (zero_le : .fin 0 ≤ a.lo → w.clamp 0 ≤ .fin z)
    (below : a.lo < .fin 0 → w.neg (min (w.neg a.lo) (remSize w b)) ≤ .fin z)
    (le_zero : a.hi ≤ .fin 0 → .fin z ≤ w.clamp 0)
    (above : .fin 0 ≤ a.hi → .fin z ≤ min a.hi (remSize w b)) : .fin z ∈ a.rem w b := by
  obtain ⟨lo, hi, order⟩ := ends_of_nonempty left
  rw [rem, left, right, Bool.or_self, if_neg Bool.false_ne_true, if_neg nonzero]
  dsimp only
  split
  next positive => exact fin_mem_ofEnds (zero_le positive) (above (le_trans positive order))
  next notPositive =>
  have lower : a.lo < .fin 0 := ExtInt.lt_of_not_le lo (by simp) notPositive
  split
  next negative => exact fin_mem_ofEnds (below lower) (le_zero negative)
  next notNegative =>
    have upper : .fin 0 ≤ a.hi := (ExtInt.le_total hi (by simp)).resolve_left notNegative
    exact fin_mem_ofEnds (below lower) (above upper)

theorem not_zero_of_mem (right : .fin y ∈ b) (nonzero : y ≠ 0) :
    ¬ (b.lo = .fin 0 ∧ b.hi = .fin 0) := by
  rintro ⟨lo, hi⟩
  have bounds := fin_mem_iff.mp right
  rw [lo, hi, ExtInt.fin_le_fin, ExtInt.fin_le_fin] at bounds
  omega

theorem mem_rem (left : .fin x ∈ a) (right : .fin y ∈ b) (zero : 0 ∈ w) (nonzero : y ≠ 0)
    (inside : x.tmod y ∈ w) : .fin (x.tmod y) ∈ a.rem w b := by
  have hx := fin_mem_iff.mp left
  obtain ⟨divisor, dividend⟩ := natAbs_tmod_bounds (x := x) nonzero
  have nonneg : 0 ≤ x → 0 ≤ x.tmod y := Int.tmod_nonneg y
  have nonpos : x ≤ 0 → x.tmod y ≤ 0 := tmod_nonpos
  -- the part of the remainder on either side of zero is bounded on that side
  have below : a.lo ≤ .fin 0 →
      w.neg (min (w.neg a.lo) (remSize w b)) ≤ .fin (min (x.tmod y) 0) := by
    intro lower
    refine neg_remSize_le right zero (by omega) (by omega) ?_ (by have := zero.2; omega)
    rcases Int.le_total x 0 with neg | pos
    · exact le_trans hx.1 (by rw [ExtInt.fin_le_fin]; omega)
    · exact le_trans lower (by rw [ExtInt.fin_le_fin]; omega)
  have above : .fin 0 ≤ a.hi → .fin (max (x.tmod y) 0) ≤ min a.hi (remSize w b) := by
    intro upper
    refine ExtInt.le_min ?_ (le_remSize right zero (by omega) (by omega))
    rcases Int.le_total x 0 with neg | pos
    · exact le_trans (by rw [ExtInt.fin_le_fin]; omega) upper
    · exact le_trans (by rw [ExtInt.fin_le_fin]; omega) hx.2
  have smaller : ExtInt.fin (min (x.tmod y) 0) ≤ .fin (x.tmod y) := by
    rw [ExtInt.fin_le_fin]; omega
  have larger : ExtInt.fin (x.tmod y) ≤ .fin (max (x.tmod y) 0) := by
    rw [ExtInt.fin_le_fin]; omega
  apply mem_rem_of_bounds (isEmpty_of_mem left) (isEmpty_of_mem right)
    (not_zero_of_mem right nonzero)
  · intro positive
    have hx0 : 0 ≤ x := by simpa using le_trans positive hx.1
    exact Window.clamp_le_fin inside.2 (nonneg hx0)
  · exact fun lower => le_trans (below (le_of_lt lower)) smaller
  · intro negative
    have hx0 : x ≤ 0 := by simpa using le_trans hx.2 negative
    exact Window.fin_le_clamp inside.1 (nonpos hx0)
  · exact fun upper => le_trans larger (above upper)

end Interval

end FlowGraph
