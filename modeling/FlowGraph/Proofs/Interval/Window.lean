import FlowGraph.Proofs.Interval.Arithmetic
import FlowGraph.Proofs.Interval.Narrowing

/-!
# What is seen through a window

A value is seen through a window if it is no integer outside of it.  Arithmetic clamps its results,
so they are seen whatever the operands are.  Operations that only choose among the ends of their
operands keep seen ends.  Hence every interval that arithmetic and narrowing make of seen intervals
is seen, and a window sees only finitely many of them.
-/

namespace FlowGraph

/-- The value is no integer outside of the window. -/
def ExtInt.Seen (w : Window) (a : ExtInt) : Prop := ∀ n, a = .fin n → n ∈ w

namespace ExtInt

variable {w : Window} {a b : ExtInt}

theorem seen_negInf : negInf.Seen w := fun _ isFin => by cases isFin

theorem seen_posInf : posInf.Seen w := fun _ isFin => by cases isFin

theorem seen_undefined : undefined.Seen w := fun _ isFin => by cases isFin

theorem Seen.min (left : a.Seen w) (right : b.Seen w) : (min a b).Seen w := by
  simp only [Min.min]
  split
  next => exact right
  next => exact left
  next => exact seen_undefined

theorem Seen.max (left : a.Seen w) (right : b.Seen w) : (max a b).Seen w := by
  simp only [Max.max]
  split
  next => exact right
  next => exact left
  next => exact seen_undefined

theorem seen_minOf {cs : List ExtInt} (seen : ∀ c ∈ cs, c.Seen w) : (minOf cs).Seen w := by
  cases cs with
  | nil => exact seen_undefined
  | cons a rest =>
      exact List.foldlRecOn rest _ (seen a List.mem_cons_self)
        fun a left b member => left.min (seen b (List.mem_cons_of_mem _ member))

theorem seen_maxOf {cs : List ExtInt} (seen : ∀ c ∈ cs, c.Seen w) : (maxOf cs).Seen w := by
  cases cs with
  | nil => exact seen_undefined
  | cons a rest =>
      exact List.foldlRecOn rest _ (seen a List.mem_cons_self)
        fun a left b member => left.max (seen b (List.mem_cons_of_mem _ member))

end ExtInt

/-! ## Values -/

namespace Window

variable (w : Window) (a b : ExtInt)

theorem seen_clamp (n : Int) : (w.clamp n).Seen w := by
  intro m isFin
  unfold clamp at isFin
  split at isFin
  next => cases isFin
  next below =>
    split at isFin
    next => cases isFin
    next above =>
      cases isFin
      exact ⟨Int.not_lt.mp above, Int.not_lt.mp below⟩

theorem seen_infinity (sign : Int) : (ExtInt.infinity sign).Seen w := by
  unfold ExtInt.infinity
  split
  next => exact ExtInt.seen_negInf
  next => exact ExtInt.seen_posInf

theorem seen_neg : (w.neg a).Seen w := by
  cases a with
  | negInf => exact ExtInt.seen_posInf
  | fin n => exact w.seen_clamp _
  | posInf => exact ExtInt.seen_negInf
  | undefined => exact ExtInt.seen_undefined

theorem seen_add : (w.add a b).Seen w := by
  unfold add
  split
  · exact ExtInt.seen_undefined
  · exact ExtInt.seen_undefined
  · exact w.seen_clamp _
  · exact ExtInt.seen_undefined
  · exact ExtInt.seen_undefined
  · exact ExtInt.seen_posInf
  · exact ExtInt.seen_negInf
  · exact ExtInt.seen_posInf
  · exact ExtInt.seen_negInf

theorem seen_sub : (w.sub a b).Seen w := by
  unfold sub
  split
  · exact w.seen_clamp _
  · exact ExtInt.seen_posInf
  · exact ExtInt.seen_negInf
  · exact w.seen_add _ _

theorem seen_mul : (w.mul a b).Seen w := by
  unfold mul
  split
  · exact ExtInt.seen_undefined
  · exact ExtInt.seen_undefined
  · exact w.seen_clamp _
  · split
    · exact w.seen_clamp _
    · split
      · exact w.seen_infinity _
      · exact ExtInt.seen_undefined

theorem seen_div : (w.div a b).Seen w := by
  unfold div
  split
  · exact ExtInt.seen_undefined
  · exact ExtInt.seen_undefined
  · exact ExtInt.seen_undefined
  · exact w.seen_clamp _
  · exact w.seen_clamp _
  · split
    · split
      · exact w.seen_clamp _
      · exact w.seen_infinity _
    · exact ExtInt.seen_undefined

variable {w a b}

theorem neg_anti (le : a ≤ b) : w.neg b ≤ w.neg a := by
  cases a <;> cases b <;> simp_all [neg]
  case negInf.fin => exact ExtInt.le_posInf (w.clamp_ne_undefined _)
  case fin.fin => exact clamp_mono (Int.neg_le_neg le)
  case fin.posInf => exact ExtInt.negInf_le (w.clamp_ne_undefined _)

/-- Positive integers are seen as positive by a window that reaches down to `1`. -/
theorem clamp_pos {n : Int} (reach : w.lo ≤ 1) (pos : 0 < n) : .fin 0 < w.clamp n := by
  unfold clamp
  split
  next => simp
  next => rw [if_neg (by omega)]; simpa using pos

/-- Negative integers are seen as negative by a window that reaches up to `-1`. -/
theorem clamp_neg {n : Int} (reach : -1 ≤ w.hi) (neg : n < 0) : w.clamp n < .fin 0 := by
  unfold clamp
  rw [if_neg (by omega)]
  split
  next => simp
  next => simpa using neg

end Window

/-! ## Intervals -/

/-- Both ends are seen through the window. -/
structure Interval.Seen (w : Window) (a : Interval) : Prop where
  lo : a.lo.Seen w
  hi : a.hi.Seen w

namespace Interval

variable {w : Window} {a b c : Interval}

/-- The interval is empty, or its ends are defined, in order, and no integers outside of the
window. -/
def InWindow (w : Window) (a : Interval) : Prop :=
  a = empty ∨ a.lo ≠ .undefined ∧ a.hi ≠ .undefined ∧ a.lo ≤ a.hi ∧
    ∀ n, a.lo = .fin n ∨ a.hi = .fin n → w.lo ≤ n ∧ n ≤ w.hi

theorem Seen.inWindow (seen : Seen w a) : InWindow w a := by
  obtain ⟨lo, hi, canonical⟩ := a
  rcases canonical with ⟨rfl, rfl⟩ | ⟨lower, upper, order⟩
  · exact .inl rfl
  · refine .inr ⟨lower, upper, order, ?_⟩
    rintro n (isLower | isUpper)
    · exact Window.mem_iff.mp (seen.lo n isLower)
    · exact Window.mem_iff.mp (seen.hi n isUpper)

theorem seen_empty : Seen w empty := ⟨ExtInt.seen_undefined, ExtInt.seen_undefined⟩

theorem seen_top : Seen w top := ⟨ExtInt.seen_negInf, ExtInt.seen_posInf⟩

theorem seen_ofEnds {lo hi : ExtInt} (lower : lo.Seen w) (upper : hi.Seen w) :
    Seen w (ofEnds lo hi) := by
  unfold ofEnds
  split
  next => exact ⟨lower, upper⟩
  next => exact seen_empty

theorem seen_const (n : Int) : Seen w (const w n) := seen_ofEnds (w.seen_clamp n) (w.seen_clamp n)

theorem seen_around {corners : List ExtInt} (seen : ∀ c ∈ corners, c.Seen w) :
    Seen w (around corners) :=
  seen_ofEnds (ExtInt.seen_minOf seen) (ExtInt.seen_maxOf seen)

theorem Seen.hull (left : a.Seen w) (right : b.Seen w) : (a.hull b).Seen w := by
  unfold Interval.hull
  split
  next => exact right
  next =>
    split
    next => exact left
    next => exact seen_ofEnds (left.lo.min right.lo) (left.hi.max right.hi)

theorem Seen.meet (left : a.Seen w) (right : b.Seen w) : (a.meet b).Seen w := by
  unfold Interval.meet
  split
  next => exact seen_empty
  next => exact seen_ofEnds (left.lo.max right.lo) (left.hi.min right.hi)

theorem seen_add (a b : Interval) : Seen w (a.add w b) := by
  unfold add
  split
  next => exact seen_empty
  next => exact seen_ofEnds (w.seen_add _ _) (w.seen_add _ _)

theorem seen_sub (a b : Interval) : Seen w (a.sub w b) := by
  unfold sub
  split
  next => exact seen_empty
  next => exact seen_ofEnds (w.seen_sub _ _) (w.seen_sub _ _)

theorem seen_mul (a b : Interval) : Seen w (a.mul w b) := by
  unfold mul
  split
  next => exact seen_empty
  next => exact seen_around (by simp [w.seen_mul])

theorem seen_divPositive (divided : divPositive w a b = .ok c) : c.Seen w := by
  unfold divPositive at divided
  split at divided
  next =>
    cases divided
    exact seen_around (by simp [w.seen_div])
  next => cases divided

theorem seen_divWithin {depth : Nat} (divided : divWithin w a depth b = .ok c) : c.Seen w := by
  induction depth generalizing b c with
  | zero => cases divided
  | succ depth ih =>
      unfold divWithin at divided
      repeat' split at divided
      · cases divided
        exact seen_empty
      · cases divided
        exact seen_empty
      · exact seen_divPositive divided
      · exact seen_divPositive divided
      · exact ih divided
      · exact ih divided
      · obtain ⟨below, hbelow, divided⟩ := bind_eq_ok_iff.mp divided
        obtain ⟨above, habove, divided⟩ := bind_eq_ok_iff.mp divided
        cases pure_eq_ok_iff.mp divided
        exact (ih hbelow).hull (ih habove)

theorem Seen.rem (left : a.Seen w) (b : Interval) : (a.rem w b).Seen w := by
  have size : (max (w.sub (w.abs b.lo) (.fin 1)) (w.sub (w.abs b.hi) (.fin 1))).Seen w :=
    (w.seen_sub _ _).max (w.seen_sub _ _)
  unfold Interval.rem
  dsimp only
  repeat' split
  · exact seen_empty
  · exact seen_empty
  · exact seen_ofEnds (w.seen_clamp 0) (left.hi.min size)
  · exact seen_ofEnds (w.seen_neg _) (w.seen_clamp 0)
  · exact seen_ofEnds (w.seen_neg _) (left.hi.min size)

/-- Narrowing keeps both sides seen. -/
theorem Seen.refine (left : a.Seen w) (right : b.Seen w) (rel : Relation) :
    (refine w rel a b).1.Seen w ∧ (refine w rel a b).2.Seen w := by
  have none : Seen w infeasible.1 ∧ Seen w infeasible.2 := ⟨seen_empty, seen_empty⟩
  have lessThan : ∀ {a b : Interval}, a.Seen w → b.Seen w →
      (refineLt w a b).1.Seen w ∧ (refineLt w a b).2.Seen w := by
    intro a b left right
    unfold refineLt
    split
    next => exact none
    next => exact ⟨seen_ofEnds left.lo (left.hi.min (w.seen_sub _ _)),
      seen_ofEnds ((w.seen_add _ _).max right.lo) right.hi⟩
  have atMost : ∀ {a b : Interval}, a.Seen w → b.Seen w →
      (refineLe a b).1.Seen w ∧ (refineLe a b).2.Seen w := by
    intro a b left right
    unfold refineLe
    split
    next => exact none
    next => exact ⟨seen_ofEnds left.lo (left.hi.min right.hi),
      seen_ofEnds (left.lo.max right.lo) right.hi⟩
  cases rel with
  | eq =>
      show (refineEq a b).1.Seen w ∧ (refineEq a b).2.Seen w
      unfold refineEq
      split
      next => exact none
      next => exact ⟨left.meet right, left.meet right⟩
  | ne =>
      show (refineNe a b).1.Seen w ∧ (refineNe a b).2.Seen w
      unfold refineNe
      split
      next => exact none
      next =>
        split
        next => exact none
        next => exact ⟨left, right⟩
  | lt => exact lessThan left right
  | le => exact atMost left right
  | gt =>
      show (refineGt w a b).1.Seen w ∧ (refineGt w a b).2.Seen w
      rw [refineGt_eq]
      exact (lessThan right left).symm
  | ge =>
      show (refineGe a b).1.Seen w ∧ (refineGe a b).2.Seen w
      rw [refineGe_eq]
      exact (atMost right left).symm

/-! ## Division looks nothing up -/

theorem divPositive_inRange : InRange (divPositive w a b) := by
  unfold divPositive
  split
  next => exact .ok rfl
  next => exact fun size index stops => by cases stops

theorem divWithin_inRange {depth : Nat} : InRange (divWithin w a depth b) := by
  induction depth generalizing b with
  | zero => exact fun size index stops => by cases stops
  | succ depth ih =>
      unfold divWithin
      repeat' split
      · exact .ok rfl
      · exact .ok rfl
      · exact divPositive_inRange
      · exact divPositive_inRange
      · exact ih
      · exact ih
      · exact ih.bind fun _ _ => ih.bind fun _ _ => .ok rfl

end Interval

end FlowGraph
