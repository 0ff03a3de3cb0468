import FlowGraph.Proofs.Interval.Emptiness

/-!
# How deep a division goes

A divisor that reaches zero is cut, and division goes on with its parts.  `CutsInto` says which
divisors a division goes on with, and `Nests` that it does so to some depth.  A division with a
depth to spare comes to one of three things (`Plan`).  It is done, it goes on with one part, or it
goes on with both and joins the results.  Hence it has a result exactly if its parts do not nest as
deep as it may go, and in no other way does it fail (`divWithin_outcome`).  In particular a divisor
that is taken for positive is positive.

Where the cut points `-1` and `1` end up decides how deep the parts nest (`div_descent`).  A window
that reaches down to `1` and up to `-1` shows both points on their own side of zero, and no part is
cut again.  Any other window shows both as the same infinity, and a divisor to both sides of zero is
one of its own parts.
-/

namespace FlowGraph

namespace Window

variable {w : Window} {u : ExtInt}

/-- The opposite of a seen negative value is positive, in any window. -/
theorem neg_pos_of_seen (seen : u.Seen w) (negative : u < .fin 0) : .fin 0 < w.neg u := by
  cases u with
  | negInf => simp [neg]
  | fin n =>
      have inside := (seen n rfl).1
      rw [ExtInt.fin_lt_fin] at negative
      exact clamp_pos (by omega) (by omega)
  | posInf => simp at negative
  | undefined => simp at negative

end Window

namespace Interval

variable {w : Window} {a b c part : Interval} {depth : Nat}

/-- Dividing `a` by `b` goes on with a division by `part`.  A divisor has no part on a side where its
end is zero. -/
inductive CutsInto (w : Window) (a b : Interval) : Interval → Prop where
  | below (dividend : a.isEmpty = false) (cut : ¬ b.Uncut) (reaches : b.lo ≠ .fin 0) :
      CutsInto w a b (b.belowZero w)
  | above (dividend : a.isEmpty = false) (cut : ¬ b.Uncut) (reaches : b.hi ≠ .fin 0) :
      CutsInto w a b (b.aboveZero w)

/-- The divisions that dividing `a` by a divisor goes on with nest to a depth. -/
def Nests (w : Window) (a : Interval) : Nat → Interval → Prop
  | 0, _ => True
  | depth + 1, b => ∃ part, CutsInto w a b part ∧ Nests w a depth part

theorem CutsInto.cut (goesOn : CutsInto w a b part) : ¬ b.Uncut := by
  cases goesOn with
  | below _ cut _ => exact cut
  | above _ cut _ => exact cut

theorem seen_belowZero (seen : b.Seen w) : (b.belowZero w).Seen w :=
  seen_ofEnds seen.lo (w.seen_clamp (-1))

theorem seen_aboveZero (seen : b.Seen w) : (b.aboveZero w).Seen w :=
  seen_ofEnds (w.seen_clamp 1) seen.hi

theorem CutsInto.seen (goesOn : CutsInto w a b part) (seen : b.Seen w) : part.Seen w := by
  cases goesOn with
  | below _ _ _ => exact seen_belowZero seen
  | above _ _ _ => exact seen_aboveZero seen

/-! ## One step of a division -/

/-- What a division comes to that may go on at least once more. -/
inductive Plan (w : Window) (a b : Interval) : Prop where
  /-- It has a result at once. -/
  | done (c : Interval) (stops : ∀ part, ¬ CutsInto w a b part)
      (result : ∀ depth, divWithin w a (depth + 1) b = .ok c)
  /-- It has the result of one part. -/
  | one (part : Interval) (goesOn : ∀ other, CutsInto w a b other ↔ other = part)
      (result : ∀ depth, divWithin w a (depth + 1) b = divWithin w a depth part)
  /-- It joins the results of the two parts. -/
  | both (goesOn : ∀ part, CutsInto w a b part ↔ part = b.belowZero w ∨ part = b.aboveZero w)
      (result : ∀ depth, divWithin w a (depth + 1) b = do
        let below ← divWithin w a depth (b.belowZero w)
        let above ← divWithin w a depth (b.aboveZero w)
        return below.hull above)

/-- A divisor that is not cut is divided by at once. -/
theorem plan_of_uncut (seen : b.Seen w) (uncut : b.Uncut) : Plan w a b := by
  have stops : ∀ part, ¬ CutsInto w a b part := fun part goesOn => goesOn.cut uncut
  cases isEmpty : a.isEmpty || b.isEmpty with
  | true =>
      refine .done empty stops fun depth => ?_
      rw [divWithin, if_pos isEmpty]
  | false =>
      obtain ⟨-, right⟩ : a.isEmpty = false ∧ b.isEmpty = false := by simpa using isEmpty
      rcases uncut with none | positive | negative
      · exact absurd none (by simp [right])
      · refine .done (endQuotients w a b) stops fun depth => ?_
        rw [divWithin, isEmpty, if_neg Bool.false_ne_true,
          if_neg fun zero => ne_of_gt positive zero.1, if_pos positive, divPositive_eq positive]
      · have opposite : .fin 0 < (b.neg w).lo := by
          rw [(neg_ends right).2.1]
          exact Window.neg_pos_of_seen seen.hi negative
        refine .done (endQuotients w (a.neg w) (b.neg w)) stops fun depth => ?_
        rw [divWithin, isEmpty, if_neg Bool.false_ne_true,
          if_neg fun zero => ne_of_lt negative zero.2, if_neg (not_lo_pos right negative),
          if_pos negative, divPositive_eq opposite]

/-- A divisor that reaches zero is cut where an end goes beyond zero. -/
theorem plan_of_cut (dividend : a.isEmpty = false) (cut : ¬ b.Uncut) : Plan w a b := by
  obtain ⟨right, lower, upper⟩ := not_uncut_iff.mp cut
  have notPositive : ¬ .fin 0 < b.lo := not_lt_of_ge lower
  have notNegative : ¬ b.hi < .fin 0 := not_lt_of_ge upper
  have nonempty : ¬ (a.isEmpty || b.isEmpty) = true := by simp [dividend, right]
  by_cases lo : b.lo = .fin 0
  · by_cases hi : b.hi = .fin 0
    · refine .done empty ?_ fun depth => ?_
      · rintro part (⟨-, -, reaches⟩ | ⟨-, -, reaches⟩)
        · exact reaches lo
        · exact reaches hi
      · rw [divWithin, if_neg nonempty, if_pos ⟨lo, hi⟩]
    · refine .one (b.aboveZero w) (fun other => ⟨?_, ?_⟩) fun depth => ?_
      · rintro (⟨-, -, reaches⟩ | -)
        · exact absurd lo reaches
        · rfl
      · rintro rfl
        exact .above dividend cut hi
      · rw [divWithin, if_neg nonempty, if_neg fun zero => hi zero.2, if_neg notPositive,
          if_neg notNegative, if_pos lo]
  · by_cases hi : b.hi = .fin 0
    · refine .one (b.belowZero w) (fun other => ⟨?_, ?_⟩) fun depth => ?_
      · rintro (- | ⟨-, -, reaches⟩)
        · rfl
        · exact absurd hi reaches
      · rintro rfl
        exact .below dividend cut lo
      · rw [divWithin, if_neg nonempty, if_neg fun zero => lo zero.1, if_neg notPositive,
          if_neg notNegative, if_neg lo, if_pos hi]
    · refine .both (fun part => ⟨?_, ?_⟩) fun depth => ?_
      · rintro (- | -)
        · exact .inl rfl
        · exact .inr rfl
      · rintro (rfl | rfl)
        · exact .below dividend cut lo
        · exact .above dividend cut hi
      · rw [divWithin, if_neg nonempty, if_neg fun zero => lo zero.1, if_neg notPositive,
          if_neg notNegative, if_neg lo, if_neg hi]

theorem plan (seen : b.Seen w) : Plan w a b := by
  cases dividend : a.isEmpty with
  | true =>
      refine .done empty ?_ fun depth => ?_
      · rintro part (⟨nonempty, -, -⟩ | ⟨nonempty, -, -⟩) <;> simp [dividend] at nonempty
      · rw [divWithin, if_pos (by simp [dividend])]
  | false =>
      by_cases uncut : b.Uncut
      · exact plan_of_uncut seen uncut
      · exact plan_of_cut dividend uncut

/-! ## Division to any depth -/

/-- A division has a result unless its parts nest as deep as it may go.  Then it is given up. -/
theorem divWithin_outcome (depth : Nat) (seen : b.Seen w) :
    (Nests w a depth b → divWithin w a depth b = .error .endlessDivision) ∧
      (¬ Nests w a depth b → ∃ c, divWithin w a depth b = .ok c) := by
  induction depth generalizing b with
  | zero => exact ⟨fun _ => rfl, fun none => absurd trivial none⟩
  | succ depth ih =>
      cases plan (a := a) seen with
      | done c stops result =>
          exact ⟨fun ⟨part, goesOn, _⟩ => absurd goesOn (stops part), fun _ => ⟨c, result depth⟩⟩
      | one part goesOn result =>
          have next := ih (((goesOn part).mpr rfl).seen seen)
          rw [result depth]
          constructor
          · rintro ⟨other, into, nests⟩
            rw [(goesOn other).mp into] at nests
            exact next.1 nests
          · exact fun none => next.2 fun nests => none ⟨part, (goesOn part).mpr rfl, nests⟩
      | both goesOn result =>
          have below := ih (seen_belowZero seen)
          have above := ih (seen_aboveZero seen)
          rw [result depth]
          by_cases nests : Nests w a depth (b.belowZero w)
          · constructor
            · intro _
              rw [below.1 nests]
              rfl
            · exact fun none => absurd ⟨_, (goesOn _).mpr (.inl rfl), nests⟩ none
          · obtain ⟨c, found⟩ := below.2 nests
            constructor
            · rintro ⟨part, into, deep⟩
              rcases (goesOn part).mp into with rfl | rfl
              · exact absurd deep nests
              · rw [found, above.1 deep]
                rfl
            · intro none
              obtain ⟨d, found'⟩ := above.2 fun deep =>
                none ⟨_, (goesOn _).mpr (.inr rfl), deep⟩
              exact ⟨c.hull d, by rw [found, found']; rfl⟩

/-- A result does not change if the division may go deeper. -/
theorem divWithin_of_le {depth' : Nat} (le : depth ≤ depth') (seen : b.Seen w)
    (divided : divWithin w a depth b = .ok c) : divWithin w a depth' b = .ok c := by
  induction depth generalizing b c depth' with
  | zero => cases divided
  | succ depth ih =>
      obtain ⟨deeper, rfl⟩ : ∃ deeper, depth' = deeper + 1 := ⟨depth' - 1, by omega⟩
      have le' : depth ≤ deeper := by omega
      cases plan (a := a) seen with
      | done d stops result =>
          rw [result] at divided ⊢
          exact divided
      | one part goesOn result =>
          rw [result] at divided ⊢
          exact ih le' (((goesOn part).mpr rfl).seen seen) divided
      | both goesOn result =>
          rw [result] at divided ⊢
          obtain ⟨below, hbelow, divided⟩ := bind_eq_ok_iff.mp divided
          obtain ⟨above, habove, divided⟩ := bind_eq_ok_iff.mp divided
          rw [ih le' (seen_belowZero seen) hbelow, ih le' (seen_aboveZero seen) habove]
          exact divided

theorem divWithin_eq_endless_iff (seen : b.Seen w) :
    divWithin w a depth b = .error .endlessDivision ↔ Nests w a depth b := by
  refine ⟨fun givenUp => ?_, (divWithin_outcome depth seen).1⟩
  by_contra none
  obtain ⟨c, divided⟩ := (divWithin_outcome depth seen).2 none
  rw [givenUp] at divided
  cases divided

theorem divWithin_ne_notPositive (seen : b.Seen w) :
    divWithin w a depth b ≠ .error .divisorNotPositive := by
  intro fails
  by_cases nests : Nests w a depth b
  · rw [(divWithin_outcome depth seen).1 nests] at fails
    cases fails
  · obtain ⟨c, divided⟩ := (divWithin_outcome depth seen).2 nests
    rw [fails] at divided
    cases divided

/-- However deep a division may go, it goes deeper. -/
def Endless (w : Window) (a b : Interval) : Prop :=
  ∀ depth, divWithin w a depth b = .error .endlessDivision

/-- A division that goes on with its own divisor is endless. -/
theorem CutsInto.endless (self : CutsInto w a b b) (seen : b.Seen w) : Endless w a b := by
  intro depth
  rw [divWithin_eq_endless_iff seen]
  induction depth with
  | zero => trivial
  | succ depth ih => exact ⟨b, self, ih⟩

/-- A division by a divisor that is not cut returns at once. -/
theorem returns_of_uncut (seen : b.Seen w) (uncut : b.Uncut) :
    ∃ c, ∀ depth, 1 ≤ depth → divWithin w a depth b = .ok c := by
  have none : ¬ Nests w a 1 b := by
    rintro ⟨part, goesOn, -⟩
    exact goesOn.cut uncut
  obtain ⟨c, divided⟩ := (divWithin_outcome 1 seen).2 none
  exact ⟨c, fun depth enough => divWithin_of_le enough seen divided⟩

theorem not_endless_of_uncut (seen : b.Seen w) (uncut : b.Uncut) : ¬ Endless w a b := by
  intro endless
  obtain ⟨c, divided⟩ := returns_of_uncut (a := a) seen uncut
  have fails := endless 1
  rw [divided 1 (Nat.le_refl 1)] at fails
  cases fails

/-! ## Windows that show both sides of zero -/

/-- A part is not cut again. -/
theorem CutsInto.uncut (down : w.lo ≤ 1) (up : -1 ≤ w.hi) (goesOn : CutsInto w a b part) :
    part.Uncut := by
  cases goesOn with
  | below _ _ _ => exact uncut_belowZero up
  | above _ _ _ => exact uncut_aboveZero down

/-! ## Windows to one side of zero -/

/-- In a window without zero, the divisors that are cut are those on both sides of zero. -/
theorem cut_iff_straddles (outside : 0 ∉ w) (seen : b.Seen w) (right : b.isEmpty = false) :
    ¬ b.Uncut ↔ b.lo < .fin 0 ∧ .fin 0 < b.hi := by
  rw [not_uncut_iff]
  constructor
  · rintro ⟨-, lower, upper⟩
    exact ⟨lt_of_le_of_ne lower fun zero => outside (seen.lo 0 zero),
      lt_of_le_of_ne upper fun zero => outside (seen.hi 0 zero.symm)⟩
  · rintro ⟨below, above⟩
    exact ⟨right, le_of_lt below, le_of_lt above⟩

theorem zero_outside (far : 1 < w.lo ∨ w.hi < -1) : 0 ∉ w := by
  rintro ⟨lower, upper⟩
  omega

/-- A window beyond `1` or beyond `-1` makes a divisor on both sides of zero its own part. -/
theorem cutsInto_self (far : 1 < w.lo ∨ w.hi < -1) (seen : b.Seen w) (dividend : a.isEmpty = false)
    (cut : ¬ b.Uncut) : CutsInto w a b b := by
  obtain ⟨below, above⟩ :=
    (cut_iff_straddles (zero_outside far) seen (not_uncut_iff.mp cut).1).mp cut
  rcases far with high | low
  · have whole : b.aboveZero w = b := by
      rw [aboveZero, Window.clamp_eq_negInf high, ← lo_eq_negInf (by omega) seen below, ofEnds_self]
    have goesOn : CutsInto w a b (b.aboveZero w) := .above dividend cut (ne_of_gt above)
    rwa [whole] at goesOn
  · have whole : b.belowZero w = b := by
      rw [belowZero, Window.clamp_eq_posInf low, ← hi_eq_posInf (by omega) seen above, ofEnds_self]
    have goesOn : CutsInto w a b (b.belowZero w) := .below dividend cut (ne_of_lt below)
    rwa [whole] at goesOn

theorem endless_iff_cut (far : 1 < w.lo ∨ w.hi < -1) (seen : b.Seen w)
    (dividend : a.isEmpty = false) : Endless w a b ↔ ¬ b.Uncut :=
  ⟨fun endless uncut => not_endless_of_uncut seen uncut endless,
    fun cut => (cutsInto_self far seen dividend cut).endless seen⟩

/-! ## All windows -/

/-- How deep the division of an interval by another can go, both with values.  A division that is
given up nests as deep as it was allowed to, and no division takes a divisor for positive that is
not.  In a window that shows both sides of zero no part is cut again, and the division returns.  In
any other window it is endless exactly if the divisor lies on both sides of zero, and then because
the divisor is cut into itself. -/
theorem div_descent (seen : b.Seen w) (left : a ≠ empty) (right : b ≠ empty) :
    (∀ depth, (divWithin w a depth b = .error .endlessDivision ↔ Nests w a depth b) ∧
      divWithin w a depth b ≠ .error .divisorNotPositive) ∧
    (w.lo ≤ 1 → -1 ≤ w.hi →
      (∀ part, CutsInto w a b part →
        (∀ smaller, ¬ CutsInto w a part smaller) ∧ ∃ c, divWithin w a 1 part = .ok c) ∧
      ∃ c, a.div w b = .ok c ∧ ∀ depth, 2 ≤ depth → divWithin w a depth b = .ok c) ∧
    (1 < w.lo ∨ w.hi < -1 →
      (Endless w a b ↔ b.lo < .fin 0 ∧ .fin 0 < b.hi) ∧
      (Endless w a b → CutsInto w a b b ∧ a.div w b = .error .endlessDivision) ∧
      (¬ Endless w a b → ∃ c, a.div w b = .ok c ∧
        ∀ depth, 1 ≤ depth → divWithin w a depth b = .ok c)) := by
  rw [← isEmpty_eq_false_iff] at left right
  refine ⟨fun depth => ⟨divWithin_eq_endless_iff seen, divWithin_ne_notPositive seen⟩, ?_, ?_⟩
  · intro down up
    constructor
    · intro part goesOn
      have uncut := goesOn.uncut down up
      obtain ⟨c, divided⟩ := returns_of_uncut (a := a) (goesOn.seen seen) uncut
      exact ⟨fun smaller further => further.cut uncut, c, divided 1 (Nat.le_refl 1)⟩
    · obtain ⟨c, divided⟩ := div_returns (a := a) (b := b) down up
      exact ⟨c, divided, fun depth enough => divWithin_of_le enough seen divided⟩
  · intro far
    have isCut : Endless w a b ↔ ¬ b.Uncut := endless_iff_cut far seen left
    refine ⟨isCut.trans (cut_iff_straddles (zero_outside far) seen right), ?_, ?_⟩
    · exact fun endless => ⟨cutsInto_self far seen left (isCut.mp endless), endless 2⟩
    · intro ends
      obtain ⟨c, divided⟩ := returns_of_uncut (a := a) seen (not_not.mp (mt isCut.mpr ends))
      exact ⟨c, divided 2 (by decide), divided⟩

/-- A window in which neither cut point is seen on its own side of zero. -/
def beyondOne : Window := ⟨2, 10, by decide⟩

/-- Two divisors on both sides of zero.  One is cut once, the other without end. -/
theorem div_descent_straddling :
    ((range Window.loops (-3) 4).Seen Window.loops ∧
      ∃ c, (ofEnds .negInf (.fin 5)).div Window.loops (range Window.loops (-3) 4) = .ok c ∧
        ∀ depth, 2 ≤ depth → divWithin Window.loops (ofEnds .negInf (.fin 5)) depth
          (range Window.loops (-3) 4) = .ok c) ∧
    (ofEnds .negInf (.fin 5)).Seen beyondOne ∧
      Endless beyondOne (const beyondOne 7) (ofEnds .negInf (.fin 5)) :=
  have near : (range Window.loops (-3) 4).Seen Window.loops :=
    seen_ofEnds (Window.loops.seen_clamp _) (Window.loops.seen_clamp _)
  have far : (ofEnds .negInf (.fin 5)).Seen beyondOne :=
    seen_ofEnds ExtInt.seen_negInf fun n isFin => by cases isFin; decide
  ⟨⟨near, ((div_descent near (by decide) (by decide)).2.1 (by decide) (by decide)).2⟩, far,
    ((div_descent far (by decide) (by decide)).2.2 (.inl (by decide))).1.mpr (by decide)⟩

end Interval

end FlowGraph
