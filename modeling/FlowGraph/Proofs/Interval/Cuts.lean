import FlowGraph.Proofs.Interval.Emptiness

/-!
# Cutting a divisor

Division by a whole divisor is the hull of the divisions by its parts, wherever the divisor is cut
(`div_cut`).  The place of the cut does not matter, and neither do infinite ends.

On one side of zero the quotients by the hull of two divisors are the hull of the quotients
(`quotient_hull_of_pos`, `quotient_hull_of_neg`).  This holds because a quotient moves in one
direction as its divisor grows, so that the quotients by a divisor in between are found between
those by the ends (`div_between`).  Any divisor falls into the values that are seen at or above one
and those seen at or below minus one (`positives`, `negatives`), and division joins the quotients by
both (`div_eq_hull`).  The members of the two sides are divided up by a cut like those of the whole.
-/

namespace FlowGraph

namespace Window

variable {w : Window} {u v v' : ExtInt}

/-! ## Quotients by a growing divisor -/

/-- A dividend that is not negative has smaller quotients by larger divisors.  An infinite dividend
has an infinite quotient by every integer, and a unit by an infinity. -/
theorem div_anti_of_nonneg (nonneg : .fin 0 ≤ u) (pos : .fin 0 < v) (le : v ≤ v') :
    w.div u v' ≤ w.div u v := by
  have defined : u ≠ .undefined := fun none => by simp [none] at nonneg
  have quotient : w.div u v' ≠ .undefined := div_ne_undefined defined (lt_of_lt_of_le pos le)
  cases v with
  | negInf => simp at pos
  | fin m =>
      have mpos : 0 < m := by simpa using pos
      cases u with
      | negInf => simp at nonneg
      | fin l =>
          have lpos : 0 ≤ l := by simpa using nonneg
          rw [div_fin_fin mpos]
          cases v' with
          | negInf => simp at le
          | fin n =>
              have mn : m ≤ n := by simpa using le
              rw [div_fin_fin (by omega)]
              exact clamp_mono (tdiv_le_tdiv_left lpos mpos mn)
          | posInf => exact clamp_mono (Int.tdiv_nonneg lpos (by omega))
          | undefined => simp at le
      | posInf =>
          rw [div_posInf_fin mpos]
          exact ExtInt.le_posInf quotient
      | undefined => simp at nonneg
  | posInf => rw [le_antisymm le (ExtInt.le_posInf fun none => by simp [none] at le)]
  | undefined => simp at pos

/-- A dividend that is not positive has larger quotients by larger divisors. -/
theorem div_mono_of_nonpos (nonpos : u ≤ .fin 0) (pos : .fin 0 < v) (le : v ≤ v') :
    w.div u v ≤ w.div u v' := by
  have defined : u ≠ .undefined := fun none => by simp [none] at nonpos
  have quotient : w.div u v' ≠ .undefined := div_ne_undefined defined (lt_of_lt_of_le pos le)
  cases v with
  | negInf => simp at pos
  | fin m =>
      have mpos : 0 < m := by simpa using pos
      cases u with
      | negInf =>
          rw [div_negInf_fin mpos]
          exact ExtInt.negInf_le quotient
      | fin l =>
          have lneg : l ≤ 0 := by simpa using nonpos
          rw [div_fin_fin mpos]
          cases v' with
          | negInf => simp at le
          | fin n =>
              have mn : m ≤ n := by simpa using le
              rw [div_fin_fin (by omega)]
              exact clamp_mono (tdiv_le_tdiv_left_of_nonpos lneg mpos mn)
          | posInf => exact clamp_mono (tdiv_nonpos lneg mpos)
          | undefined => simp at le
      | posInf => simp at nonpos
      | undefined => simp at nonpos
  | posInf => rw [le_antisymm le (ExtInt.le_posInf fun none => by simp [none] at le)]
  | undefined => simp at pos

/-- The quotient by a divisor between two others lies between the quotients by these. -/
theorem div_between {l h : ExtInt} (defined : u ≠ .undefined) (pos : .fin 0 < l) (lower : l ≤ v)
    (upper : v ≤ h) :
    (w.div u l ≤ w.div u v ∧ w.div u v ≤ w.div u h) ∨
      (w.div u h ≤ w.div u v ∧ w.div u v ≤ w.div u l) := by
  have pos' : .fin 0 < v := lt_of_lt_of_le pos lower
  rcases ExtInt.le_total defined (b := .fin 0) (by simp) with nonpos | nonneg
  · exact .inl ⟨div_mono_of_nonpos nonpos pos lower, div_mono_of_nonpos nonpos pos' upper⟩
  · exact .inr ⟨div_anti_of_nonneg nonneg pos' upper, div_anti_of_nonneg nonneg pos lower⟩

/-! ## Opposites of the smaller and the larger -/

theorem neg_max (left : u ≠ .undefined) (right : v ≠ .undefined) :
    w.neg (max u v) = min (w.neg u) (w.neg v) := by
  rcases ExtInt.le_total left right with le | le
  · rw [ExtInt.max_eq_right le, ExtInt.min_eq_right (neg_anti le)]
  · rw [ExtInt.max_eq_left le, ExtInt.min_eq_left (neg_anti le)]

theorem neg_min (left : u ≠ .undefined) (right : v ≠ .undefined) :
    w.neg (min u v) = max (w.neg u) (w.neg v) := by
  rcases ExtInt.le_total left right with le | le
  · rw [ExtInt.min_eq_left le, ExtInt.max_eq_left (neg_anti le)]
  · rw [ExtInt.min_eq_right le, ExtInt.max_eq_right (neg_anti le)]

end Window

namespace Interval

variable {w : Window} {a b l h : Interval} {k : Int}

theorem neg_hull : (l.hull h).neg w = (l.neg w).hull (h.neg w) := by
  cases left : l.isEmpty with
  | true =>
      rw [isEmpty_iff.mp left]
      rfl
  | false =>
      cases right : h.isEmpty with
      | true =>
          rw [isEmpty_iff.mp right, hull_empty_right]
          exact hull_empty_right.symm
      | false =>
          obtain ⟨llo, lhi, -⟩ := ends_of_nonempty left
          obtain ⟨hlo, hhi, -⟩ := ends_of_nonempty right
          obtain ⟨nonempty, lower, upper⟩ := hull_eq left right
          obtain ⟨leftNeg, leftLo, leftHi⟩ := neg_ends (w := w) left
          obtain ⟨rightNeg, rightLo, rightHi⟩ := neg_ends (w := w) right
          obtain ⟨-, lower', upper'⟩ := hull_eq leftNeg rightNeg
          obtain ⟨-, negLo, negHi⟩ := neg_ends (w := w) nonempty
          apply eq_of_ends
          · rw [negLo, upper, lower', leftLo, rightLo, Window.neg_max lhi hhi]
          · rw [negHi, lower, upper', leftHi, rightHi, Window.neg_min llo hlo]

/-! ## Divisors on one side of zero -/

theorem hull_around {cs ds : List ExtInt} (left : ∀ v ∈ cs, v ≠ .undefined)
    (right : ∀ v ∈ ds, v ≠ .undefined) (some : cs ≠ []) (some' : ds ≠ []) :
    (around cs).hull (around ds) = around (cs ++ ds) := by
  obtain ⟨c, hc⟩ := List.exists_mem_of_ne_nil cs some
  obtain ⟨d, hd⟩ := List.exists_mem_of_ne_nil ds some'
  have both : ∀ v ∈ cs ++ ds, v ≠ .undefined := by
    intro v member
    exact (List.mem_append.mp member).elim (left v) (right v)
  obtain ⟨nonempty, leftLo, leftHi⟩ := around_eq left hc
  obtain ⟨nonempty', rightLo, rightHi⟩ := around_eq right hd
  obtain ⟨-, lo, hi⟩ := around_eq both (List.mem_append_left ds hc)
  obtain ⟨-, lower, upper⟩ := hull_eq nonempty nonempty'
  apply eq_of_ends
  · rw [lower, leftLo, rightLo, lo, ExtInt.minOf_append some some']
  · rw [upper, leftHi, rightHi, hi, ExtInt.maxOf_append some some']

/-- The interval around some values is the interval around those of them that reach as far. -/
theorem around_eq_around {cs es : List ExtInt} (defined : ∀ v ∈ cs, v ≠ .undefined)
    (some : cs ≠ []) (chosen : ∀ e ∈ es, e ∈ cs)
    (reached : ∀ v ∈ cs, (∃ e ∈ es, e ≤ v) ∧ ∃ e ∈ es, v ≤ e) : around cs = around es := by
  obtain ⟨c, hc⟩ := List.exists_mem_of_ne_nil cs some
  obtain ⟨e, he, -⟩ := (reached c hc).1
  have defined' : ∀ v ∈ es, v ≠ .undefined := fun v member => defined v (chosen v member)
  obtain ⟨nonempty, lo, hi⟩ := around_eq defined hc
  obtain ⟨nonempty', lo', hi'⟩ := around_eq defined' he
  obtain ⟨least, greatest, -⟩ := ends_of_nonempty nonempty
  obtain ⟨least', greatest', -⟩ := ends_of_nonempty nonempty'
  rw [lo] at least
  rw [hi] at greatest
  rw [lo'] at least'
  rw [hi'] at greatest'
  apply eq_of_ends
  · rw [lo, lo']
    obtain ⟨u, hu, below⟩ := (reached _ (ExtInt.minOf_mem least)).1
    exact le_antisymm (ExtInt.minOf_le defined (chosen _ (ExtInt.minOf_mem least')))
      (le_trans (ExtInt.minOf_le defined' hu) below)
  · rw [hi, hi']
    obtain ⟨u, hu, above⟩ := (reached _ (ExtInt.maxOf_mem greatest)).2
    exact le_antisymm (le_trans above (ExtInt.le_maxOf defined' hu))
      (ExtInt.le_maxOf defined (chosen _ (ExtInt.maxOf_mem greatest')))

/-- The quotients of the ends of a dividend by the ends of a divisor. -/
def corners (w : Window) (a b : Interval) : List ExtInt :=
  [w.div a.lo b.lo, w.div a.lo b.hi, w.div a.hi b.lo, w.div a.hi b.hi]

theorem endQuotients_eq_around : endQuotients w a b = around (corners w a b) := rfl

theorem mem_corners_iff {c : ExtInt} :
    c ∈ corners w a b ↔ ∃ u v, a.IsEnd u ∧ b.IsEnd v ∧ c = w.div u v := by
  constructor
  · intro member
    simp only [corners, List.mem_cons, List.not_mem_nil, or_false] at member
    rcases member with rfl | rfl | rfl | rfl
    · exact ⟨a.lo, b.lo, .inl rfl, .inl rfl, rfl⟩
    · exact ⟨a.lo, b.hi, .inl rfl, .inr rfl, rfl⟩
    · exact ⟨a.hi, b.lo, .inr rfl, .inl rfl, rfl⟩
    · exact ⟨a.hi, b.hi, .inr rfl, .inr rfl, rfl⟩
  · rintro ⟨u, v, rfl | rfl, rfl | rfl, rfl⟩ <;> simp [corners]

theorem corners_defined (left : a.isEmpty = false) (right : b.isEmpty = false)
    (positive : .fin 0 < b.lo) : ∀ c ∈ corners w a b, c ≠ .undefined := by
  intro c member
  obtain ⟨u, v, hu, hv, rfl⟩ := mem_corners_iff.mp member
  exact Window.div_ne_undefined (hu.mem left).1 (lt_of_lt_of_le positive (hv.mem right).2.1)

/-- The quotient of an end by any member of a divisor above zero lies between two corners. -/
theorem corners_reach {u v : ExtInt} (left : a.isEmpty = false) (positive : .fin 0 < b.lo)
    (hu : a.IsEnd u) (member : v ∈ b) :
    (∃ c ∈ corners w a b, c ≤ w.div u v) ∧ ∃ c ∈ corners w a b, w.div u v ≤ c := by
  have lowest : w.div u b.lo ∈ corners w a b := mem_corners_iff.mpr ⟨u, _, hu, .inl rfl, rfl⟩
  have highest : w.div u b.hi ∈ corners w a b := mem_corners_iff.mpr ⟨u, _, hu, .inr rfl, rfl⟩
  rcases Window.div_between (w := w) (hu.mem left).1 positive member.2.1 member.2.2 with
    ⟨below, above⟩ | ⟨below, above⟩
  · exact ⟨⟨_, lowest, below⟩, _, highest, above⟩
  · exact ⟨⟨_, highest, below⟩, _, lowest, above⟩

theorem hull_lo_pos (hl : l.isEmpty = false) (hh : h.isEmpty = false) (lpos : .fin 0 < l.lo)
    (hpos : .fin 0 < h.lo) : .fin 0 < (l.hull h).lo := by
  rcases IsEnd.of_hull (.inl rfl) hl hh with isEnd | isEnd
  · exact lt_of_lt_of_le lpos (isEnd.mem hl).2.1
  · exact lt_of_lt_of_le hpos (isEnd.mem hh).2.1

/-- The quotients by the hull of two divisors above zero. -/
theorem endQuotients_hull (left : a.isEmpty = false) (hl : l.isEmpty = false)
    (hh : h.isEmpty = false) (lpos : .fin 0 < l.lo) (hpos : .fin 0 < h.lo) :
    endQuotients w a (l.hull h) = (endQuotients w a l).hull (endQuotients w a h) := by
  have positive := hull_lo_pos hl hh lpos hpos
  have definedLeft := corners_defined (w := w) left hl lpos
  have definedRight := corners_defined (w := w) left hh hpos
  simp only [endQuotients_eq_around]
  rw [hull_around definedLeft definedRight (List.cons_ne_nil _ _) (List.cons_ne_nil _ _)]
  symm
  -- the corners by the hull are some of the corners by its parts, and reach as far
  apply around_eq_around
  · intro c member
    exact (List.mem_append.mp member).elim (definedLeft c) (definedRight c)
  · exact List.cons_ne_nil _ _
  · intro c member
    obtain ⟨u, v, hu, hv, rfl⟩ := mem_corners_iff.mp member
    rcases hv.of_hull hl hh with hv | hv
    · exact List.mem_append_left _ (mem_corners_iff.mpr ⟨u, v, hu, hv, rfl⟩)
    · exact List.mem_append_right _ (mem_corners_iff.mpr ⟨u, v, hu, hv, rfl⟩)
  · intro c member
    rcases List.mem_append.mp member with member | member
    · obtain ⟨u, v, hu, hv, rfl⟩ := mem_corners_iff.mp member
      exact corners_reach left positive hu (mem_hull_left (hv.mem hl))
    · obtain ⟨u, v, hu, hv, rfl⟩ := mem_corners_iff.mp member
      exact corners_reach left positive hu (mem_hull_right (hv.mem hh))

/-- Without a dividend or without one of two divisors there is nothing to join. -/
theorem quotient_hull_of_nonempty
    (joined : a.isEmpty = false → l.isEmpty = false → h.isEmpty = false →
      quotient w a (l.hull h) = (quotient w a l).hull (quotient w a h)) :
    quotient w a (l.hull h) = (quotient w a l).hull (quotient w a h) := by
  cases left : a.isEmpty with
  | true =>
      rw [isEmpty_iff.mp left, quotient_empty_left, quotient_empty_left, quotient_empty_left,
        hull_empty_left]
  | false =>
      cases low : l.isEmpty with
      | true => rw [isEmpty_iff.mp low, hull_empty_left, quotient_empty_right, hull_empty_left]
      | false =>
          cases high : h.isEmpty with
          | true =>
              rw [isEmpty_iff.mp high, hull_empty_right, quotient_empty_right, hull_empty_right]
          | false => exact joined left low high

/-- The quotients by the hull of two divisors that have no value at or below zero. -/
theorem quotient_hull_of_pos (hl : ∀ v ∈ l, .fin 0 < v) (hh : ∀ v ∈ h, .fin 0 < v) :
    quotient w a (l.hull h) = (quotient w a l).hull (quotient w a h) := by
  apply quotient_hull_of_nonempty
  intro left low high
  have lpos := hl _ (lo_mem low)
  have hpos := hh _ (lo_mem high)
  rw [quotient_of_pos left (hull_eq low high).1 (hull_lo_pos low high lpos hpos),
    quotient_of_pos left low lpos, quotient_of_pos left high hpos,
    endQuotients_hull left low high lpos hpos]

/-- The quotients by the hull of two divisors that have no value at or above zero. -/
theorem quotient_hull_of_neg (down : w.lo ≤ 1) (hl : ∀ v ∈ l, v < .fin 0)
    (hh : ∀ v ∈ h, v < .fin 0) :
    quotient w a (l.hull h) = (quotient w a l).hull (quotient w a h) := by
  apply quotient_hull_of_nonempty
  intro left low high
  have lneg := hl _ (hi_mem low)
  have hneg := hh _ (hi_mem high)
  have negative : (l.hull h).hi < .fin 0 := by
    rcases IsEnd.of_hull (.inr rfl) low high with isEnd | isEnd
    · exact hl _ (isEnd.mem low)
    · exact hh _ (isEnd.mem high)
  rw [quotient_of_neg left (hull_eq low high).1 negative, quotient_of_neg left low lneg,
    quotient_of_neg left high hneg, neg_hull]
  exact endQuotients_hull (neg_ends left).1 (neg_ends low).1 (neg_ends high).1
    (neg_lo_pos down low lneg) (neg_lo_pos down high hneg)

/-! ## The two sides of a divisor -/

/-- The values of a divisor at or above what is seen of one. -/
def positives (w : Window) (b : Interval) : Interval := b.meet (ofEnds (w.clamp 1) .posInf)

/-- The values of a divisor at or below what is seen of minus one. -/
def negatives (w : Window) (b : Interval) : Interval := b.meet (ofEnds .negInf (w.clamp (-1)))

theorem mem_positives_iff {v : ExtInt} : v ∈ b.positives w ↔ v ∈ b ∧ w.clamp 1 ≤ v := by
  rw [positives, mem_meet_iff, mem_ofEnds_iff]
  exact and_congr_right fun member => ⟨fun above => above.2.1,
    fun above => ⟨member.1, above, ExtInt.le_posInf member.1⟩⟩

theorem mem_negatives_iff {v : ExtInt} : v ∈ b.negatives w ↔ v ∈ b ∧ v ≤ w.clamp (-1) := by
  rw [negatives, mem_meet_iff, mem_ofEnds_iff]
  exact and_congr_right fun member => ⟨fun below => below.2.2,
    fun below => ⟨member.1, ExtInt.negInf_le member.1, below⟩⟩

theorem pos_of_mem_positives {v : ExtInt} (down : w.lo ≤ 1) (member : v ∈ b.positives w) :
    .fin 0 < v :=
  lt_of_lt_of_le (Window.clamp_pos down (by decide)) (mem_positives_iff.mp member).2

theorem neg_of_mem_negatives {v : ExtInt} (up : -1 ≤ w.hi) (member : v ∈ b.negatives w) :
    v < .fin 0 :=
  lt_of_le_of_lt (mem_negatives_iff.mp member).2 (Window.clamp_neg up (by decide))

theorem belowZero_eq_negatives (up : -1 ≤ w.hi) (reaches : .fin 0 ≤ b.hi) :
    b.belowZero w = b.negatives w := by
  have beyond : w.clamp (-1) ≤ b.hi :=
    le_trans (le_of_lt (Window.clamp_neg up (by decide))) reaches
  apply eq_of_mem_iff
  intro v
  rw [belowZero, mem_ofEnds_iff, mem_negatives_iff]
  constructor
  · rintro ⟨defined, lower, below⟩
    exact ⟨⟨defined, lower, le_trans below beyond⟩, below⟩
  · rintro ⟨member, below⟩
    exact ⟨member.1, member.2.1, below⟩

theorem aboveZero_eq_positives (down : w.lo ≤ 1) (reaches : b.lo ≤ .fin 0) :
    b.aboveZero w = b.positives w := by
  have beyond : b.lo ≤ w.clamp 1 :=
    le_trans reaches (le_of_lt (Window.clamp_pos down (by decide)))
  apply eq_of_mem_iff
  intro v
  rw [aboveZero, mem_ofEnds_iff, mem_positives_iff]
  constructor
  · rintro ⟨defined, above, upper⟩
    exact ⟨⟨defined, le_trans beyond above, upper⟩, above⟩
  · rintro ⟨member, above⟩
    exact ⟨member.1, above, member.2.2⟩

/-- A divisor above zero is its positive side. -/
theorem sides_of_pos (up : -1 ≤ w.hi) (seen : b.Seen w) (positive : .fin 0 < b.lo) :
    b.negatives w = empty ∧ b.positives w = b := by
  constructor
  · apply eq_empty_of_not_mem
    intro v member
    have above : .fin 0 < v := lt_of_lt_of_le positive (mem_negatives_iff.mp member).1.2.1
    exact lt_asymm above (neg_of_mem_negatives up member)
  · apply eq_of_mem_iff
    intro v
    rw [mem_positives_iff, and_iff_left_iff_imp]
    exact fun member => le_trans (Window.clamp_one_le seen.lo positive) member.2.1

/-- A divisor below zero is its negative side. -/
theorem sides_of_neg (down : w.lo ≤ 1) (seen : b.Seen w) (negative : b.hi < .fin 0) :
    b.negatives w = b ∧ b.positives w = empty := by
  constructor
  · apply eq_of_mem_iff
    intro v
    rw [mem_negatives_iff, and_iff_left_iff_imp]
    exact fun member => le_trans member.2.2 (Window.le_clamp_neg_one seen.hi negative)
  · apply eq_empty_of_not_mem
    intro v member
    have below : v < .fin 0 := lt_of_le_of_lt (mem_positives_iff.mp member).1.2.2 negative
    exact lt_asymm below (pos_of_mem_positives down member)

/-- Division joins the quotients by the two sides of the divisor. -/
theorem div_eq_hull (down : w.lo ≤ 1) (up : -1 ≤ w.hi) (seen : b.Seen w) :
    a.div w b =
      .ok ((quotient w a (b.negatives w)).hull (quotient w a (b.positives w))) := by
  by_cases uncut : b.Uncut
  · rw [div_of_uncut down uncut]
    rcases uncut with isEmpty | positive | negative
    · have none : b.negatives w = empty ∧ b.positives w = empty := by
        rw [isEmpty_iff.mp isEmpty]
        exact ⟨rfl, rfl⟩
      rw [none.1, none.2, isEmpty_iff.mp isEmpty, quotient_empty_right, hull_empty_left]
    · obtain ⟨below, above⟩ := sides_of_pos up seen positive
      rw [below, above, quotient_empty_right, hull_empty_left]
    · obtain ⟨below, above⟩ := sides_of_neg down seen negative
      rw [below, above, quotient_empty_right, hull_empty_right]
  · obtain ⟨-, reachesDown, reachesUp⟩ := not_uncut_iff.mp uncut
    rw [div_of_cut down up uncut, belowZero_eq_negatives up reachesUp,
      aboveZero_eq_positives down reachesDown]

/-! ## Cuts -/

/-- A cut between two consecutive integers divides up the members. -/
theorem mem_cut_iff (lower : b.lo ≤ .fin k) (upper : .fin (k + 1) ≤ b.hi) {v : ExtInt} :
    v ∈ b ↔ v ∈ ofEnds b.lo (.fin k) ∨ v ∈ ofEnds (.fin (k + 1)) b.hi := by
  have step : ExtInt.fin k ≤ .fin (k + 1) := by
    rw [ExtInt.fin_le_fin]
    omega
  rw [mem_ofEnds_iff, mem_ofEnds_iff]
  constructor
  · rintro ⟨defined, above, below⟩
    exact (ExtInt.le_fin_or_succ_le defined k).imp (fun left => ⟨defined, above, left⟩)
      fun right => ⟨defined, right, below⟩
  · rintro (⟨defined, above, left⟩ | ⟨defined, right, below⟩)
    · exact ⟨defined, above, le_trans left (le_trans step upper)⟩
    · exact ⟨defined, le_trans lower (le_trans step right), below⟩

theorem positives_cut (lower : b.lo ≤ .fin k) (upper : .fin (k + 1) ≤ b.hi) :
    b.positives w = ((ofEnds b.lo (.fin k)).positives w).hull
      ((ofEnds (.fin (k + 1)) b.hi).positives w) := by
  apply eq_hull_of_mem_iff
  intro v
  rw [mem_positives_iff, mem_positives_iff, mem_positives_iff, mem_cut_iff lower upper,
    or_and_right]

theorem negatives_cut (lower : b.lo ≤ .fin k) (upper : .fin (k + 1) ≤ b.hi) :
    b.negatives w = ((ofEnds b.lo (.fin k)).negatives w).hull
      ((ofEnds (.fin (k + 1)) b.hi).negatives w) := by
  apply eq_hull_of_mem_iff
  intro v
  rw [mem_negatives_iff, mem_negatives_iff, mem_negatives_iff, mem_cut_iff lower upper,
    or_and_right]

theorem hull_hull_hull_comm (a b c d : Interval) :
    (a.hull b).hull (c.hull d) = (a.hull c).hull (b.hull d) := by
  rw [hull_assoc, ← hull_assoc b c d, hull_comm b c, hull_assoc c b d, ← hull_assoc a c]

/-- Division by a divisor that is cut between two consecutive integers is the hull of the divisions
by the two parts. -/
theorem div_cut (down : w.lo ≤ 1) (up : -1 ≤ w.hi) (seen : b.Seen w) (hk : k ∈ w)
    (hk' : k + 1 ∈ w) (lower : b.lo ≤ .fin k) (upper : .fin (k + 1) ≤ b.hi) :
    ∃ c d, a.div w (ofEnds b.lo (.fin k)) = .ok c ∧ a.div w (ofEnds (.fin (k + 1)) b.hi) = .ok d ∧
      a.div w b = .ok (c.hull d) := by
  have seenLow : (ofEnds b.lo (.fin k)).Seen w :=
    seen_ofEnds seen.lo fun n isFin => ExtInt.fin.inj isFin ▸ hk
  have seenHigh : (ofEnds (.fin (k + 1)) b.hi).Seen w :=
    seen_ofEnds (fun n isFin => ExtInt.fin.inj isFin ▸ hk') seen.hi
  refine ⟨_, _, div_eq_hull down up seenLow, div_eq_hull down up seenHigh, ?_⟩
  rw [div_eq_hull down up seen, negatives_cut lower upper, positives_cut lower upper,
    quotient_hull_of_neg down (fun v => neg_of_mem_negatives up) fun v => neg_of_mem_negatives up,
    quotient_hull_of_pos (fun v => pos_of_mem_positives down) fun v => pos_of_mem_positives down,
    hull_hull_hull_comm]

/-- A cut below zero, where the opposites of the divisors leave the window. -/
theorem div_cut_lopsided :
    ((ofEnds (.fin (-20)) .posInf).Seen lopsided ∧ -9 ∈ lopsided ∧ -9 + 1 ∈ lopsided) ∧
    (range lopsided (-20) 5).div lopsided (ofEnds (.fin (-20)) (.fin (-9))) =
      .ok (range lopsided 0 1) ∧
    (range lopsided (-20) 5).div lopsided (ofEnds (.fin (-9 + 1)) .posInf) =
      .ok (ofEnds (.fin (-20)) .posInf) ∧
    (range lopsided (-20) 5).div lopsided (ofEnds (.fin (-20)) .posInf) =
      .ok ((range lopsided 0 1).hull (ofEnds (.fin (-20)) .posInf)) := by
  have seen : (ofEnds (.fin (-20)) .posInf).Seen lopsided :=
    seen_ofEnds (fun n isFin => by cases isFin; decide) ExtInt.seen_posInf
  have low : (range lopsided (-20) 5).div lopsided (ofEnds (.fin (-20)) (.fin (-9))) =
      .ok (range lopsided 0 1) := by decide +kernel
  have high : (range lopsided (-20) 5).div lopsided (ofEnds (.fin (-9 + 1)) .posInf) =
      .ok (ofEnds (.fin (-20)) .posInf) := by decide +kernel
  obtain ⟨c, d, isLow, isHigh, whole⟩ := div_cut (a := range lopsided (-20) 5) (k := -9)
    (by decide) (by decide) seen (by decide) (by decide) (by decide) (by decide)
  cases low.symm.trans isLow
  cases high.symm.trans isHigh
  exact ⟨⟨seen, by decide, by decide⟩, low, high, whole⟩

end Interval

end FlowGraph
