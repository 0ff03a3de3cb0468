import FlowGraph.Demo.Sample
import FlowGraph.Proofs.Interval.Hull
import FlowGraph.Proofs.Report

/-!
# How far variables can be apart

The separation of two intervals is the larger of two differences of their ends, each clamped, made
positive and clamped again.  A difference that leaves the window ends at `posInf` on either side, so
clamping never makes a distance smaller (`abs_sub_cases`).  Hence a separation bounds the distances
of all members, and one that is an integer is the distance of two ends.

The report takes every two of the values it shows.  Values are shown in ascending order, so the
earlier of a pair is the smaller, and no pair comes twice (`separations_tight`).
-/

namespace FlowGraph

namespace Window

variable {w : Window} {u v : ExtInt} {x y : Int}

/-! ## Distances seen through a window -/

/-- The size of a clamped integer is exact or infinite.  It is never below the window, for it is no
smaller than the integer. -/
theorem abs_clamp (w : Window) (n : Int) :
    w.abs (w.clamp n) = .fin n.natAbs ∨ w.abs (w.clamp n) = .posInf := by
  rcases Int.lt_or_le w.hi n with above | notAbove
  · rw [clamp_eq_posInf above]
    exact .inr rfl
  rcases Int.lt_or_le n w.lo with below | notBelow
  · rw [clamp_eq_negInf below]
    exact .inr rfl
  rw [clamp_of_mem notBelow notAbove, abs]
  rcases Int.lt_or_le w.hi n.natAbs with large | small
  · exact .inr (clamp_eq_posInf large)
  · exact .inl (clamp_of_mem (by omega) small)

/-- The size of a difference is exact or infinite.  It is missing only if the ends bound no
integers. -/
theorem abs_sub_cases (w : Window) (u v : ExtInt) :
    (∃ x y, u = .fin x ∧ v = .fin y ∧ w.abs (w.sub u v) = .fin (x - y).natAbs) ∨
      w.abs (w.sub u v) = .posInf ∨
      w.abs (w.sub u v) = .undefined ∧ ∀ x y, .fin x ≤ u → ¬ v ≤ .fin y := by
  cases u with
  | fin x =>
      cases v with
      | fin y =>
          rcases w.abs_clamp (x - y) with isSize | beyond
          · exact .inl ⟨x, y, rfl, rfl, isSize⟩
          · exact .inr (.inl beyond)
      | _ => simp [sub, neg, add, abs]
  | _ => cases v <;> simp [sub, neg, add, abs]

theorem abs_sub_ne_undefined (upper : .fin x ≤ u) (lower : v ≤ .fin y) :
    w.abs (w.sub u v) ≠ .undefined := by
  rcases w.abs_sub_cases u v with ⟨m, k, -, -, isSize⟩ | beyond | ⟨-, noBounds⟩
  · simp [isSize]
  · simp [beyond]
  · exact absurd lower (noBounds x y upper)

/-- The size of a difference of bounds bounds the distance. -/
theorem le_abs_sub (upper : .fin x ≤ u) (lower : v ≤ .fin y) (order : y ≤ x) :
    .fin (x - y).natAbs ≤ w.abs (w.sub u v) := by
  rcases w.abs_sub_cases u v with ⟨m, k, rfl, rfl, isSize⟩ | beyond | ⟨-, noBounds⟩
  · rw [ExtInt.fin_le_fin] at upper lower
    rw [isSize, ExtInt.fin_le_fin]
    omega
  · rw [beyond]
    exact ExtInt.fin_le_posInf
  · exact absurd lower (noBounds x y upper)

end Window

namespace Interval

variable {w : Window} {a b : Interval} {x y d : Int}

/-! ## Separations of intervals -/

theorem sep_comm (w : Window) (a b : Interval) : a.sep w b = b.sep w a := ExtInt.max_comm _ _

/-- No two members are farther apart than the separation. -/
theorem le_sep (left : .fin x ∈ a) (right : .fin y ∈ b) : .fin (x - y).natAbs ≤ a.sep w b := by
  obtain ⟨xLower, xUpper⟩ := fin_mem_iff.mp left
  obtain ⟨yLower, yUpper⟩ := fin_mem_iff.mp right
  have forth : w.abs (w.sub a.hi b.lo) ≠ .undefined := Window.abs_sub_ne_undefined xUpper yLower
  have back : w.abs (w.sub b.hi a.lo) ≠ .undefined := Window.abs_sub_ne_undefined yUpper xLower
  rcases Int.le_total y x with order | order
  · exact le_trans (Window.le_abs_sub xUpper yLower order) (ExtInt.le_max_left back)
  · have size : (x - y).natAbs = (y - x).natAbs := by omega
    rw [size]
    exact le_trans (Window.le_abs_sub yUpper xLower order) (ExtInt.le_max_right forth)

theorem fin_mem_of_isEnd (isEnd : a.IsEnd (.fin x)) : .fin x ∈ a := by
  refine isEnd.mem ?_
  cases nonempty : a.isEmpty with
  | false => rfl
  | true =>
      rw [isEmpty_iff.mp nonempty] at isEnd
      rcases isEnd with isLo | isHi
      · cases isLo
      · cases isHi

/-- Two ends whose difference has an integer size are members that far apart. -/
theorem exists_of_abs_sub {u v : ExtInt} (left : a.IsEnd u) (right : b.IsEnd v)
    (isSize : w.abs (w.sub u v) = .fin d) :
    ∃ x y, .fin x ∈ a ∧ .fin y ∈ b ∧ (x - y).natAbs = d := by
  rcases w.abs_sub_cases u v with ⟨x, y, rfl, rfl, distance⟩ | beyond | ⟨missing, -⟩
  · rw [distance, ExtInt.fin.injEq] at isSize
    exact ⟨x, y, fin_mem_of_isEnd left, fin_mem_of_isEnd right, isSize⟩
  · rw [beyond] at isSize
    cases isSize
  · rw [missing] at isSize
    cases isSize

/-- A separation that is an integer is the distance of two members. -/
theorem exists_of_sep_eq_fin (isSep : a.sep w b = .fin d) :
    ∃ x y, .fin x ∈ a ∧ .fin y ∈ b ∧ (x - y).natAbs = d := by
  rcases ExtInt.max_cases (w.abs (w.sub a.hi b.lo)) (w.abs (w.sub b.hi a.lo)) with
    first | second | missing
  · exact exists_of_abs_sub (.inr rfl) (.inl rfl) (first.symm.trans isSep)
  · obtain ⟨y, x, right, left, distance⟩ :=
      exists_of_abs_sub (.inr rfl) (.inl rfl) (second.symm.trans isSep)
    exact ⟨x, y, left, right, by omega⟩
  · cases missing.symm.trans isSep

end Interval

namespace Ranges

variable {f : Procedure} {s : Ranges} {settings : Settings}

/-! ## Pairs -/

section Pairs

variable {α : Type} {R : α → α → Prop} {xs : List α}

/-- The pairs of a list in order are the pairs of entries in order. -/
theorem mem_pairs_iff (asymm : ∀ x y, R x y → ¬ R y x) (ordered : xs.Pairwise R) {x y : α} :
    (x, y) ∈ pairs xs ↔ x ∈ xs ∧ y ∈ xs ∧ R x y := by
  induction xs with
  | nil => simp [pairs]
  | cons a rest ih =>
      obtain ⟨before, ordered⟩ := List.pairwise_cons.mp ordered
      rw [pairs, List.mem_append, ih ordered]
      constructor
      · rintro (first | ⟨left, right, inOrder⟩)
        · obtain ⟨y', there, same⟩ := List.mem_map.mp first
          cases same
          exact ⟨List.mem_cons_self, List.mem_cons_of_mem _ there, before y there⟩
        · exact ⟨List.mem_cons_of_mem _ left, List.mem_cons_of_mem _ right, inOrder⟩
      · rintro ⟨left, right, inOrder⟩
        rcases List.mem_cons.mp left with rfl | left
        · rcases List.mem_cons.mp right with rfl | right
          · exact absurd inOrder (asymm _ _ inOrder)
          · exact .inl (List.mem_map.mpr ⟨y, right, rfl⟩)
        · rcases List.mem_cons.mp right with isFirst | right
          · rw [isFirst] at inOrder
            exact absurd (before x left) (asymm _ _ inOrder)
          · exact .inr ⟨left, right, inOrder⟩

/-- The pairs of a list in order are in lexicographic order. -/
theorem pairwise_pairs (ordered : xs.Pairwise R) :
    (pairs xs).Pairwise fun p q => R p.1 q.1 ∨ p.1 = q.1 ∧ R p.2 q.2 := by
  induction xs with
  | nil => exact .nil
  | cons a rest ih =>
      obtain ⟨before, ordered⟩ := List.pairwise_cons.mp ordered
      refine List.pairwise_append.mpr ⟨?_, ih ordered, ?_⟩
      · exact List.pairwise_map.mpr (ordered.imp fun inOrder => .inr ⟨rfl, inOrder⟩)
      · intro p first q later
        obtain ⟨y, -, rfl⟩ := List.mem_map.mp first
        exact .inl (before q.1 (mem_of_mem_pairs later).1)

end Pairs

/-! ## Shown values -/

/-- A value that reports show, with its interval: it is not the slot for the return value. -/
def Shown (settings : Settings) (f : Procedure) (s : Ranges) (id : InstId) (a : Interval) : Prop :=
  s[id]? = some a ∧ ∃ name, f.valueName id = .ok name ∧ name ≠ settings.returnSlot

theorem mem_shown_iff {values : List (InstId × String × Interval)}
    (shown : s.shown settings f = .ok values) {id : InstId} {a : Interval} :
    (∃ name, (id, name, a) ∈ values) ↔ Shown settings f s id a := by
  obtain ⟨all, named, same⟩ := bind_eq_ok_iff.mp shown
  cases pure_eq_ok_iff.mp same
  have entry : ∀ name, (id, name, a) ∈ all ↔ s[id]? = some a ∧ f.valueName id = .ok name := by
    intro name
    rw [mem_mapM_iff named]
    constructor
    · rintro ⟨⟨id', a'⟩, member, found⟩
      obtain ⟨name', isName, same⟩ := bind_eq_ok_iff.mp found
      cases pure_eq_ok_iff.mp same
      exact ⟨Std.ExtTreeMap.mem_toList_iff_getElem?_eq_some.mp member, isName⟩
    · rintro ⟨found, isName⟩
      exact ⟨(id, a), Std.ExtTreeMap.mem_toList_iff_getElem?_eq_some.mpr found,
        bind_eq_ok_iff.mpr ⟨name, isName, rfl⟩⟩
  simp only [List.mem_filter, entry, Shown, bne_iff_ne, and_assoc, exists_and_left]

theorem shown_ascending {values : List (InstId × String × Interval)}
    (shown : s.shown settings f = .ok values) : values.Pairwise fun p q => p.1 < q.1 := by
  obtain ⟨all, named, same⟩ := bind_eq_ok_iff.mp shown
  cases pure_eq_ok_iff.mp same
  refine List.Pairwise.filter _ (pairwise_mapM named ?_ s.ordered_keys_toList)
  intro p q p' q' before found found'
  obtain ⟨name, -, same⟩ := bind_eq_ok_iff.mp found
  obtain ⟨name', -, same'⟩ := bind_eq_ok_iff.mp found'
  cases pure_eq_ok_iff.mp same
  cases pure_eq_ok_iff.mp same'
  exact Nat.compare_eq_lt.mp before

/-! ## The report of separations -/

theorem mem_separations_iff {listed : List (InstId × InstId × ExtInt)}
    (found : s.separations settings f = .ok listed) {x y : InstId} {d : ExtInt} :
    (x, y, d) ∈ listed ↔ x < y ∧ ∃ a b, Shown settings f s x a ∧ Shown settings f s y b ∧
      d = a.sep settings.window b := by
  obtain ⟨values, shown, same⟩ := bind_eq_ok_iff.mp found
  cases pure_eq_ok_iff.mp same
  have paired := @mem_pairs_iff _ (fun p q : InstId × String × Interval => p.1 < q.1) values
    (fun p q before after => Nat.lt_asymm before after) (shown_ascending shown)
  rw [List.mem_map]
  constructor
  · rintro ⟨⟨⟨x', first, a⟩, y', second, b⟩, member, same⟩
    cases same
    obtain ⟨left, right, before⟩ := paired.mp member
    exact ⟨before, a, b, (mem_shown_iff shown).mp ⟨first, left⟩,
      (mem_shown_iff shown).mp ⟨second, right⟩, rfl⟩
  · rintro ⟨before, a, b, left, right, rfl⟩
    obtain ⟨first, left⟩ := (mem_shown_iff shown).mpr left
    obtain ⟨second, right⟩ := (mem_shown_iff shown).mpr right
    exact ⟨((x, first, a), y, second, b), paired.mpr ⟨left, right, before⟩, rfl⟩

theorem separations_ascending {listed : List (InstId × InstId × ExtInt)}
    (found : s.separations settings f = .ok listed) :
    listed.Pairwise fun p q => p.1 < q.1 ∨ p.1 = q.1 ∧ p.2.1 < q.2.1 := by
  obtain ⟨values, shown, same⟩ := bind_eq_ok_iff.mp found
  cases pure_eq_ok_iff.mp same
  refine List.pairwise_map.mpr ((pairwise_pairs (shown_ascending shown)).imp ?_)
  rintro ⟨p, p'⟩ ⟨q, q'⟩ (before | ⟨rfl, before⟩)
  · exact .inl before
  · exact .inr ⟨rfl, before⟩

/-- The separation of two intervals is symmetric and bounds the distances of their members, and if
it is an integer, some members are that far apart.  In a state whose values are instructions of the
procedure, separations are found.  They list every two shown values once, the smaller first, in
lexicographic order, with the separation of their intervals. -/
theorem separations_tight :
    (∀ (w : Window) (a b : Interval),
      (∀ x y, .fin x ∈ a → .fin y ∈ b → .fin (x - y).natAbs ≤ a.sep w b) ∧
      (∀ d, a.sep w b = .fin d → ∃ x y, .fin x ∈ a ∧ .fin y ∈ b ∧ (x - y).natAbs = d) ∧
      a.sep w b = b.sep w a) ∧
    ∀ (settings : Settings) (f : Procedure) (s : Ranges), (∀ v ∈ s, v < f.numInsts) →
      ∃ listed, s.separations settings f = .ok listed ∧
        (listed.Pairwise fun p q => p.1 < q.1 ∨ p.1 = q.1 ∧ p.2.1 < q.2.1) ∧
        ∀ x y d, (x, y, d) ∈ listed ↔ x < y ∧ ∃ a b, Shown settings f s x a ∧
          Shown settings f s y b ∧ d = a.sep settings.window b := by
  refine ⟨fun w a b => ⟨fun x y => Interval.le_sep, fun d => Interval.exists_of_sep_eq_fin,
    Interval.sep_comm w a b⟩, fun settings f s inside => ?_⟩
  obtain ⟨listed, found, -⟩ := separations_returns settings inside
  exact ⟨listed, found, separations_ascending found, fun x y d => mem_separations_iff found⟩

/-- Ranges of the variables of the diamond sample. -/
def diamondRanges : Ranges :=
  .ofList [(3, Interval.ofEnds .negInf (.fin 5)), (0, Interval.ofEnds (.fin 0) (.fin 0)),
    (2, Interval.ofEnds (.fin (-3)) (.fin 3)), (1, Interval.ofEnds (.fin 7) (.fin 7))]

/-- The slot for the return value is left out, and `a` and `b` are ten apart at most.  There is no
bound on how far `x` is below the others. -/
theorem separations_tight_diamond :
    let listed := [(1, 2, .fin 10), (1, 3, .posInf), (2, 3, .posInf)]
    (∀ v ∈ diamondRanges, v < Sample.diamondDraft.layout.numInsts) ∧
    diamondRanges.separations ⟨.loops, "source", "retval"⟩ Sample.diamondDraft.layout =
      .ok listed ∧
    (∃ x y, .fin x ∈ Interval.ofEnds (.fin 7) (.fin 7) ∧
      .fin y ∈ Interval.ofEnds (.fin (-3)) (.fin 3) ∧ (x - y).natAbs = (10 : Int)) ∧
    ¬ ∃ a, Shown ⟨.loops, "source", "retval"⟩ Sample.diamondDraft.layout diamondRanges 0 a := by
  have keys : ∀ v ∈ diamondRanges.keys, v < Sample.diamondDraft.layout.numInsts := by
    decide +kernel
  have inside : ∀ v ∈ diamondRanges, v < Sample.diamondDraft.layout.numInsts :=
    fun v member => keys v (Std.ExtTreeMap.mem_keys.mpr member)
  have isList : diamondRanges.separations ⟨.loops, "source", "retval"⟩
      Sample.diamondDraft.layout = .ok [(1, 2, .fin 10), (1, 3, .posInf), (2, 3, .posInf)] := by
    decide +kernel
  obtain ⟨onIntervals, onStates⟩ := separations_tight
  obtain ⟨listed, found, -, members⟩ :=
    onStates ⟨.loops, "source", "retval"⟩ Sample.diamondDraft.layout diamondRanges inside
  cases isList.symm.trans found
  refine ⟨inside, isList, (onIntervals .loops _ _).2.1 10 (by decide), ?_⟩
  rintro ⟨a, shown⟩
  obtain ⟨-, a', b, -, other, -⟩ := (members 1 2 (.fin 10)).mp (by decide)
  have member := (members 0 2 _).mpr ⟨by decide, a, b, shown, other, rfl⟩
  simp at member

end Ranges

end FlowGraph
