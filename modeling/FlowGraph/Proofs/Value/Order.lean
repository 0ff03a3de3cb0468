import FlowGraph.Value.Window
import Mathlib.Order.Defs.PartialOrder

/-!
# The order of the extended integers

The comparison of extended integers is a partial order in which `undefined` stands alone.  On the
other values it is total, and there `min` and `max` are the lattice operations.  Both absorb
`undefined`, which makes them associative, commutative and idempotent everywhere.

A bound on an integer of a window survives clamping, on either side (`clamp_le_fin`,
`fin_le_clamp`).
-/

namespace FlowGraph

namespace ExtInt

/-! ## Comparisons -/

@[simp] theorem negInf_le_fin {n : Int} : negInf ≤ fin n := by simp [LE.le, cmp?]

@[simp] theorem negInf_le_posInf : negInf ≤ posInf := by simp [LE.le, cmp?]

@[simp] theorem fin_le_posInf {n : Int} : fin n ≤ posInf := by simp [LE.le, cmp?]

@[simp] theorem not_fin_le_negInf {n : Int} : ¬fin n ≤ negInf := by simp [LE.le, cmp?]

@[simp] theorem not_posInf_le_fin {n : Int} : ¬posInf ≤ fin n := by simp [LE.le, cmp?]

@[simp] theorem not_posInf_le_negInf : ¬posInf ≤ negInf := by simp [LE.le, cmp?]

@[simp] theorem le_undefined_iff {a : ExtInt} : a ≤ undefined ↔ a = undefined := by
  cases a <;> simp [LE.le, cmp?]

@[simp] theorem undefined_le_iff {a : ExtInt} : undefined ≤ a ↔ a = undefined := by
  cases a <;> simp [LE.le, cmp?]

theorem le_refl' (a : ExtInt) : a ≤ a := by
  cases a <;> simp [LE.le, cmp?]

@[simp] theorem negInf_lt_fin {n : Int} : negInf < fin n := by simp [LT.lt, cmp?]

@[simp] theorem negInf_lt_posInf : negInf < posInf := by simp [LT.lt, cmp?]

@[simp] theorem fin_lt_posInf {n : Int} : fin n < posInf := by simp [LT.lt, cmp?]

@[simp] theorem not_lt_negInf {a : ExtInt} : ¬a < negInf := by
  cases a <;> simp [LT.lt, cmp?]

@[simp] theorem not_posInf_lt {a : ExtInt} : ¬posInf < a := by
  cases a <;> simp [LT.lt, cmp?]

@[simp] theorem not_lt_undefined {a : ExtInt} : ¬a < undefined := by
  cases a <;> simp [LT.lt, cmp?]

@[simp] theorem not_undefined_lt {a : ExtInt} : ¬undefined < a := by
  cases a <;> simp [LT.lt, cmp?]

instance : PartialOrder ExtInt where
  le_refl := le_refl'
  le_trans a b c := by
    cases a <;> cases b <;> cases c <;> simp
    exact Int.le_trans
  le_antisymm a b := by
    cases a <;> cases b <;> simp
    exact Int.le_antisymm
  lt_iff_le_not_ge a b := by
    cases a <;> cases b <;> simp [le_refl']
    exact Int.le_of_lt

theorem le_posInf {a : ExtInt} (defined : a ≠ undefined) : a ≤ posInf := by
  cases a <;> simp_all

theorem negInf_le {a : ExtInt} (defined : a ≠ undefined) : negInf ≤ a := by
  cases a <;> simp_all

/-- The defined values are totally ordered. -/
theorem le_total {a b : ExtInt} (left : a ≠ undefined) (right : b ≠ undefined) :
    a ≤ b ∨ b ≤ a := by
  cases a <;> cases b <;> simp_all
  exact Int.le_total _ _

theorem lt_of_not_le {a b : ExtInt} (left : a ≠ undefined) (right : b ≠ undefined)
    (notLe : ¬ b ≤ a) : a < b :=
  lt_of_le_not_ge ((le_total left right).resolve_right notLe) notLe

theorem le_of_not_lt {a b : ExtInt} (left : a ≠ undefined) (right : b ≠ undefined)
    (notLt : ¬ a < b) : b ≤ a := by
  by_cases le : b ≤ a
  · exact le
  · exact absurd (lt_of_not_le left right le) notLt

/-- There is no value between two consecutive integers. -/
theorem le_fin_or_succ_le {a : ExtInt} (defined : a ≠ undefined) (k : Int) :
    a ≤ fin k ∨ fin (k + 1) ≤ a := by
  cases a with
  | negInf => exact .inl negInf_le_fin
  | fin n =>
      rw [fin_le_fin, fin_le_fin]
      omega
  | posInf => exact .inr fin_le_posInf
  | undefined => exact absurd rfl defined

/-! ## The smaller and the larger of two values -/

@[simp] theorem min_undefined_left (a : ExtInt) : min undefined a = undefined := by
  cases a <;> rfl

@[simp] theorem min_undefined_right (a : ExtInt) : min a undefined = undefined := by
  cases a <;> rfl

@[simp] theorem max_undefined_left (a : ExtInt) : max undefined a = undefined := by
  cases a <;> rfl

@[simp] theorem max_undefined_right (a : ExtInt) : max a undefined = undefined := by
  cases a <;> rfl

theorem min_eq_left {a b : ExtInt} (le : a ≤ b) : min a b = a := by
  rcases le with lt | eq
  · simp only [min, lt]
  · simp only [min, eq]

theorem max_eq_left {a b : ExtInt} (le : b ≤ a) : max a b = a := by
  have notLt : a.cmp? b ≠ some .lt := not_lt_of_ge le
  have compares : a.cmp? b ≠ none := by
    cases a <;> cases b <;> simp_all [cmp?]
  simp only [max]
  split <;> simp_all

theorem min_eq_right {a b : ExtInt} (le : b ≤ a) : min a b = b := by
  by_cases same : a = b
  · rw [same, min_eq_left (le_refl b)]
  · have lt : b < a := lt_of_le_of_ne le (Ne.symm same)
    cases a <;> cases b <;> simp_all [min, cmp?]
    rw [Int.compare_eq_gt.mpr lt]

theorem max_eq_right {a b : ExtInt} (le : a ≤ b) : max a b = b := by
  by_cases same : a = b
  · rw [same, max_eq_left (le_refl b)]
  · have lt : a.cmp? b = some .lt := lt_of_le_of_ne le same
    simp only [max, lt]

theorem min_ne_undefined {a b : ExtInt} (left : a ≠ undefined) (right : b ≠ undefined) :
    min a b ≠ undefined := by
  rcases le_total left right with le | le
  · rwa [min_eq_left le]
  · rwa [min_eq_right le]

theorem max_ne_undefined {a b : ExtInt} (left : a ≠ undefined) (right : b ≠ undefined) :
    max a b ≠ undefined := by
  rcases le_total left right with le | le
  · rwa [max_eq_right le]
  · rwa [max_eq_left le]

theorem min_le_left {a b : ExtInt} (right : b ≠ undefined) : min a b ≤ a := by
  by_cases left : a = undefined
  · simp [left]
  · rcases le_total left right with le | le
    · rw [min_eq_left le]
    · rwa [min_eq_right le]

theorem le_max_left {a b : ExtInt} (right : b ≠ undefined) : a ≤ max a b := by
  by_cases left : a = undefined
  · simp [left]
  · rcases le_total left right with le | le
    · rwa [max_eq_right le]
    · rw [max_eq_left le]

theorem min_comm (a b : ExtInt) : min a b = min b a := by
  by_cases left : a = undefined
  · simp [left]
  · by_cases right : b = undefined
    · simp [right]
    · rcases le_total left right with le | le
      · rw [min_eq_left le, min_eq_right le]
      · rw [min_eq_right le, min_eq_left le]

theorem max_comm (a b : ExtInt) : max a b = max b a := by
  by_cases left : a = undefined
  · simp [left]
  · by_cases right : b = undefined
    · simp [right]
    · rcases le_total left right with le | le
      · rw [max_eq_right le, max_eq_left le]
      · rw [max_eq_left le, max_eq_right le]

theorem min_le_right {a b : ExtInt} (left : a ≠ undefined) : min a b ≤ b := by
  rw [min_comm]
  exact min_le_left left

theorem le_max_right {a b : ExtInt} (left : a ≠ undefined) : b ≤ max a b := by
  rw [max_comm]
  exact le_max_left left

theorem le_min {a b c : ExtInt} (left : c ≤ a) (right : c ≤ b) : c ≤ min a b := by
  by_cases undef : c = undefined
  · simp_all
  · have ha : a ≠ undefined := fun h => undef (by simpa [h] using left)
    have hb : b ≠ undefined := fun h => undef (by simpa [h] using right)
    rcases le_total ha hb with le | le
    · rwa [min_eq_left le]
    · rwa [min_eq_right le]

theorem max_le {a b c : ExtInt} (left : a ≤ c) (right : b ≤ c) : max a b ≤ c := by
  by_cases undef : c = undefined
  · simp_all
  · have ha : a ≠ undefined := fun h => undef (by simpa [h] using left)
    have hb : b ≠ undefined := fun h => undef (by simpa [h] using right)
    rcases le_total ha hb with le | le
    · rwa [max_eq_right le]
    · rwa [max_eq_left le]

theorem le_min_iff {a b c : ExtInt} (defined : c ≠ undefined) : c ≤ min a b ↔ c ≤ a ∧ c ≤ b := by
  constructor
  · intro le
    have left : a ≠ undefined := fun h => defined (by simpa [h] using le)
    have right : b ≠ undefined := fun h => defined (by simpa [h] using le)
    exact ⟨le_trans le (min_le_left right), le_trans le (min_le_right left)⟩
  · exact fun ⟨left, right⟩ => le_min left right

theorem max_le_iff {a b c : ExtInt} (defined : c ≠ undefined) : max a b ≤ c ↔ a ≤ c ∧ b ≤ c := by
  constructor
  · intro le
    have left : a ≠ undefined := fun h => defined (by simpa [h] using le)
    have right : b ≠ undefined := fun h => defined (by simpa [h] using le)
    exact ⟨le_trans (le_max_left right) le, le_trans (le_max_right left) le⟩
  · exact fun ⟨left, right⟩ => max_le left right

theorem min_assoc (a b c : ExtInt) : min (min a b) c = min a (min b c) := by
  by_cases ha : a = undefined
  · simp [ha]
  by_cases hb : b = undefined
  · simp [hb]
  by_cases hc : c = undefined
  · simp [hc]
  have hab := min_ne_undefined ha hb
  have hbc := min_ne_undefined hb hc
  apply le_antisymm
  · exact le_min (le_trans (min_le_left hc) (min_le_left hb))
      (le_min (le_trans (min_le_left hc) (min_le_right ha)) (min_le_right hab))
  · exact le_min (le_min (min_le_left hbc) (le_trans (min_le_right ha) (min_le_left hc)))
      (le_trans (min_le_right ha) (min_le_right hb))

theorem max_assoc (a b c : ExtInt) : max (max a b) c = max a (max b c) := by
  by_cases ha : a = undefined
  · simp [ha]
  by_cases hb : b = undefined
  · simp [hb]
  by_cases hc : c = undefined
  · simp [hc]
  have hab := max_ne_undefined ha hb
  have hbc := max_ne_undefined hb hc
  apply le_antisymm
  · exact max_le (max_le (le_max_left hbc) (le_trans (le_max_left hc) (le_max_right ha)))
      (le_trans (le_max_right hb) (le_max_right ha))
  · exact max_le (le_trans (le_max_left hb) (le_max_left hc))
      (max_le (le_trans (le_max_right ha) (le_max_left hc)) (le_max_right hab))

/-! ## The smallest and the largest of some values -/

theorem foldl_min_le {rest : List ExtInt} {a : ExtInt} (ha : a ≠ undefined)
    (hrest : ∀ c ∈ rest, c ≠ undefined) :
    rest.foldl min a ≠ undefined ∧ rest.foldl min a ≤ a ∧ ∀ c ∈ rest, rest.foldl min a ≤ c := by
  induction rest generalizing a with
  | nil => exact ⟨ha, le_refl a, by simp⟩
  | cons b rest ih =>
      have hb := hrest b List.mem_cons_self
      obtain ⟨defined, first, others⟩ := ih (min_ne_undefined ha hb)
        (fun c hc => hrest c (List.mem_cons_of_mem b hc))
      refine ⟨defined, le_trans first (min_le_left hb), fun c hc => ?_⟩
      rcases List.mem_cons.mp hc with rfl | hc
      · exact le_trans first (min_le_right ha)
      · exact others c hc

theorem le_foldl_max {rest : List ExtInt} {a : ExtInt} (ha : a ≠ undefined)
    (hrest : ∀ c ∈ rest, c ≠ undefined) :
    rest.foldl max a ≠ undefined ∧ a ≤ rest.foldl max a ∧ ∀ c ∈ rest, c ≤ rest.foldl max a := by
  induction rest generalizing a with
  | nil => exact ⟨ha, le_refl a, by simp⟩
  | cons b rest ih =>
      have hb := hrest b List.mem_cons_self
      obtain ⟨defined, first, others⟩ := ih (max_ne_undefined ha hb)
        (fun c hc => hrest c (List.mem_cons_of_mem b hc))
      refine ⟨defined, le_trans (le_max_left hb) first, fun c hc => ?_⟩
      rcases List.mem_cons.mp hc with rfl | hc
      · exact le_trans (le_max_right ha) first
      · exact others c hc

theorem minOf_le {cs : List ExtInt} (defined : ∀ c ∈ cs, c ≠ undefined) {c : ExtInt}
    (member : c ∈ cs) : minOf cs ≤ c := by
  cases cs with
  | nil => cases member
  | cons a rest =>
      obtain ⟨-, first, others⟩ := foldl_min_le (defined a List.mem_cons_self)
        (fun c hc => defined c (List.mem_cons_of_mem a hc))
      rcases List.mem_cons.mp member with rfl | member
      · exact first
      · exact others c member

theorem le_maxOf {cs : List ExtInt} (defined : ∀ c ∈ cs, c ≠ undefined) {c : ExtInt}
    (member : c ∈ cs) : c ≤ maxOf cs := by
  cases cs with
  | nil => cases member
  | cons a rest =>
      obtain ⟨-, first, others⟩ := le_foldl_max (defined a List.mem_cons_self)
        (fun c hc => defined c (List.mem_cons_of_mem a hc))
      rcases List.mem_cons.mp member with rfl | member
      · exact first
      · exact others c member

/-- The smaller of two values is one of them, unless they do not compare. -/
theorem min_cases (a b : ExtInt) : min a b = a ∨ min a b = b ∨ min a b = undefined := by
  simp only [min]
  split
  next => exact .inr (.inl rfl)
  next => exact .inl rfl
  next => exact .inr (.inr rfl)

/-- The larger of two values is one of them, unless they do not compare. -/
theorem max_cases (a b : ExtInt) : max a b = a ∨ max a b = b ∨ max a b = undefined := by
  simp only [max]
  split
  next => exact .inr (.inl rfl)
  next => exact .inl rfl
  next => exact .inr (.inr rfl)

/-- To pick one of two values over and over is to pick one of the list, unless some two do not
compare. -/
theorem foldl_picks {pick : ExtInt → ExtInt → ExtInt}
    (picks : ∀ a b, pick a b = a ∨ pick a b = b ∨ pick a b = undefined) (rest : List ExtInt)
    (a : ExtInt) : rest.foldl pick a ∈ a :: rest ∨ rest.foldl pick a = undefined := by
  induction rest generalizing a with
  | nil => exact .inl List.mem_cons_self
  | cons b rest ih =>
      rw [List.foldl_cons]
      rcases ih (pick a b) with member | none
      · rcases List.mem_cons.mp member with picked | member
        · rw [picked]
          rcases picks a b with left | right | none
          · exact .inl (List.mem_cons.mpr (.inl left))
          · exact .inl (List.mem_cons_of_mem _ (List.mem_cons.mpr (.inl right)))
          · exact .inr none
        · exact .inl (List.mem_cons_of_mem _ (List.mem_cons_of_mem _ member))
      · exact .inr none

theorem minOf_mem {cs : List ExtInt} (defined : minOf cs ≠ undefined) : minOf cs ∈ cs := by
  cases cs with
  | nil => exact absurd rfl defined
  | cons a rest => exact (foldl_picks min_cases rest a).resolve_right defined

theorem maxOf_mem {cs : List ExtInt} (defined : maxOf cs ≠ undefined) : maxOf cs ∈ cs := by
  cases cs with
  | nil => exact absurd rfl defined
  | cons a rest => exact (foldl_picks max_cases rest a).resolve_right defined

instance : Std.Associative (min : ExtInt → ExtInt → ExtInt) := ⟨min_assoc⟩

instance : Std.Associative (max : ExtInt → ExtInt → ExtInt) := ⟨max_assoc⟩

theorem minOf_append {cs ds : List ExtInt} (left : cs ≠ []) (right : ds ≠ []) :
    minOf (cs ++ ds) = min (minOf cs) (minOf ds) := by
  obtain ⟨a, cs, rfl⟩ := List.exists_cons_of_ne_nil left
  obtain ⟨b, ds, rfl⟩ := List.exists_cons_of_ne_nil right
  show (cs ++ b :: ds).foldl min a = min (cs.foldl min a) (ds.foldl min b)
  rw [List.foldl_append, List.foldl_cons, List.foldl_assoc]

theorem maxOf_append {cs ds : List ExtInt} (left : cs ≠ []) (right : ds ≠ []) :
    maxOf (cs ++ ds) = max (maxOf cs) (maxOf ds) := by
  obtain ⟨a, cs, rfl⟩ := List.exists_cons_of_ne_nil left
  obtain ⟨b, ds, rfl⟩ := List.exists_cons_of_ne_nil right
  show (cs ++ b :: ds).foldl max a = max (cs.foldl max a) (ds.foldl max b)
  rw [List.foldl_append, List.foldl_cons, List.foldl_assoc]

end ExtInt

/-! ## Windows -/

namespace Window

variable {w : Window}

/-- An integer lies in a window if it is between the ends. -/
instance : Membership Int Window where
  mem w n := w.lo ≤ n ∧ n ≤ w.hi

instance (n : Int) (w : Window) : Decidable (n ∈ w) :=
  inferInstanceAs (Decidable (w.lo ≤ n ∧ n ≤ w.hi))

theorem mem_iff {n : Int} : n ∈ w ↔ w.lo ≤ n ∧ n ≤ w.hi := Iff.rfl

@[simp] theorem clamp_ne_undefined (n : Int) : w.clamp n ≠ .undefined := by
  unfold clamp
  split
  · simp
  · split <;> simp

theorem clamp_mem {n : Int} (inside : n ∈ w) : w.clamp n = .fin n :=
  clamp_of_mem inside.1 inside.2

/-- Clamping keeps a lower bound on an integer that is not above the window. -/
theorem clamp_le_fin {m n : Int} (inside : n ≤ w.hi) (le : m ≤ n) : w.clamp m ≤ .fin n := by
  unfold clamp
  split
  · omega
  · split
    · simp
    · simpa using le

/-- Clamping keeps an upper bound on an integer that is not below the window. -/
theorem fin_le_clamp {m n : Int} (inside : w.lo ≤ n) (le : n ≤ m) : .fin n ≤ w.clamp m := by
  unfold clamp
  split
  · simp
  · split
    · omega
    · simpa using le

/-- An integer that is not above the window is at least what its clamped value is. -/
theorem le_of_fin_le_clamp {m n : Int} (inside : m ≤ w.hi) (le : .fin n ≤ w.clamp m) :
    n ≤ m := by
  rw [clamp, if_neg (Int.not_lt.mpr inside)] at le
  split at le
  next => simp at le
  next => simpa using le

/-- An integer that is not below the window is at most what its clamped value is. -/
theorem le_of_clamp_le_fin {m n : Int} (inside : w.lo ≤ m) (le : w.clamp m ≤ .fin n) :
    m ≤ n := by
  unfold clamp at le
  split at le
  next => simp at le
  next =>
    rw [if_neg (Int.not_lt.mpr inside)] at le
    simpa using le

theorem clamp_eq_posInf {n : Int} (above : w.hi < n) : w.clamp n = .posInf := if_pos above

theorem clamp_eq_negInf {n : Int} (below : n < w.lo) : w.clamp n = .negInf := by
  have ordered := w.lo_le_hi
  rw [clamp, if_neg (by omega), if_pos below]

/-- An integer seen through the window is the integer itself. -/
theorem eq_of_clamp_eq_fin {m n : Int} (seen : w.clamp m = .fin n) : m = n := by
  unfold clamp at seen
  split at seen
  next => cases seen
  next =>
    split at seen
    next => cases seen
    next => exact ExtInt.fin.inj seen

/-- Only integers beyond the window look alike. -/
theorem isInf_clamp_of_eq {m n : Int} (same : w.clamp m = w.clamp n) (ne : m ≠ n) :
    (w.clamp m).isInf = true := by
  rcases Int.lt_or_le w.hi m with above | notAbove
  · rw [clamp_eq_posInf above]
    rfl
  · rcases Int.lt_or_le m w.lo with below | notBelow
    · rw [clamp_eq_negInf below]
      rfl
    · rw [clamp_of_mem notBelow notAbove] at same
      exact absurd (eq_of_clamp_eq_fin same.symm).symm ne

theorem clamp_mono {m n : Int} (le : m ≤ n) : w.clamp m ≤ w.clamp n := by
  unfold clamp
  split
  next => rw [if_pos (by omega)]
  next =>
    split
    next =>
      split
      next => simp
      next => split <;> simp
    next inside =>
      exact fin_le_clamp (Int.not_lt.mp inside) le

end Window

end FlowGraph
