import FlowGraph.Proofs.Interval.Arithmetic

/-!
# Interval arithmetic is tight

The interval that an operation gives has every exact result that lies in the window.  On intervals
between two integers, an end of the result that is an integer is the exact result at two members
(`Tight`).  Both halves are `arithmetic_exact`.

An end that is infinite stands for an exact result beyond the window.  So every end of the result is
the exact result at two members as the window shows it (`Attained`).  This makes the result as small
as an interval can be: it lies within every interval that has all results as the window shows them
(`arithmetic_least`).

The ends rest on one observation for all operations.  An end of the result is the operation on two
ends of the operands (`attained_of_ends`), and on integers that is the exact result, clamped.
-/

namespace FlowGraph

namespace Interval

variable {w : Window} {a b c e : Interval} {lo hi u : ExtInt}

/-- The interval has values and both ends are integers. -/
def Bounded (a : Interval) : Prop := (∃ l, a.lo = .fin l) ∧ ∃ h, a.hi = .fin h

theorem Bounded.isEmpty (bounded : a.Bounded) : a.isEmpty = false := by
  obtain ⟨⟨l, isLo⟩, h, isHi⟩ := bounded
  simp [Interval.isEmpty, ExtInt.isUndefined, isLo, isHi]

/-- An end of an interval between integers is an integer of the interval. -/
theorem Bounded.exists_mem {u : ExtInt} (bounded : a.Bounded) (isEnd : a.IsEnd u) :
    ∃ x, u = .fin x ∧ .fin x ∈ a := by
  have member := isEnd.mem bounded.isEmpty
  obtain ⟨⟨l, isLo⟩, h, isHi⟩ := bounded
  rcases isEnd with rfl | rfl
  · exact ⟨l, isLo, isLo ▸ member⟩
  · exact ⟨h, isHi, isHi ▸ member⟩

/-- An end of the interval between two values is one of them. -/
theorem isEnd_ofEnds (defined : u ≠ .undefined) (isEnd : (ofEnds lo hi).IsEnd u) :
    u = lo ∨ u = hi := by
  unfold ofEnds at isEnd
  split at isEnd
  next => exact isEnd
  next => rcases isEnd with isLo | isHi <;> contradiction

/-- An end of the interval around some values is one of them. -/
theorem mem_of_isEnd_around {cs : List ExtInt} (defined : u ≠ .undefined)
    (isEnd : (around cs).IsEnd u) : u ∈ cs := by
  rcases isEnd_ofEnds defined isEnd with rfl | rfl
  · exact ExtInt.minOf_mem defined
  · exact ExtInt.maxOf_mem defined

/-! ## Ends that are results -/

/-- Every integer at an end of `c` is the result of `f` at members of `a` and `b`. -/
def Tight (f : Int → Int → Int) (a b c : Interval) : Prop :=
  ∀ n, c.IsEnd (.fin n) → ∃ x y, .fin x ∈ a ∧ .fin y ∈ b ∧ f x y = n

/-- Every end of `c` is the result of `f` at members of `a` and `b`, as the window shows it. -/
def Attained (w : Window) (f : Int → Int → Int) (a b c : Interval) : Prop :=
  ∀ u, u ≠ .undefined → c.IsEnd u → ∃ x y, .fin x ∈ a ∧ .fin y ∈ b ∧ w.clamp (f x y) = u

theorem Attained.tight {f : Int → Int → Int} (attained : Attained w f a b c) : Tight f a b c := by
  intro n isEnd
  obtain ⟨x, y, hx, hy, shown⟩ := attained (.fin n) (by simp) isEnd
  exact ⟨x, y, hx, hy, Window.eq_of_clamp_eq_fin shown⟩

/-- Nothing smaller has all results as the window shows them. -/
theorem Attained.least {f : Int → Int → Int} (attained : Attained w f a b c)
    (all : ∀ x y, .fin x ∈ a → .fin y ∈ b → w.clamp (f x y) ∈ e) {v : ExtInt} (member : v ∈ c) :
    v ∈ e := by
  have ends : ∀ u, c.IsEnd u → u ∈ e := by
    intro u isEnd
    have defined := (isEnd.mem (isEmpty_of_mem member)).1
    obtain ⟨x, y, hx, hy, rfl⟩ := attained u defined isEnd
    exact all x y hx hy
  have lower := (ends c.lo (.inl rfl)).2.1
  have upper := (ends c.hi (.inr rfl)).2.2
  exact ⟨member.1, le_trans lower member.2.1, le_trans member.2.2 upper⟩

/-- The ends of a result are attained if they come from ends of the operands, by an operation on
values that clamps the exact result on integers. -/
theorem attained_of_ends {f : Int → Int → Int} (value : ExtInt → ExtInt → ExtInt)
    (exact : ∀ x y, value (.fin x) (.fin y) = w.clamp (f x y)) (left : a.Bounded)
    (right : b.Bounded) (ends : ∀ u, u ≠ .undefined → c.IsEnd u →
      ∃ s t, a.IsEnd s ∧ b.IsEnd t ∧ value s t = u) : Attained w f a b c := by
  intro u defined isEnd
  obtain ⟨s, t, hs, ht, result⟩ := ends u defined isEnd
  obtain ⟨x, rfl, hx⟩ := left.exists_mem hs
  obtain ⟨y, rfl, hy⟩ := right.exists_mem ht
  exact ⟨x, y, hx, hy, (exact x y).symm.trans result⟩

theorem neg_attained (bounded : a.Bounded) : Attained w (fun x _ => -x) a a (a.neg w) := by
  refine attained_of_ends (fun u _ => w.neg u) (fun _ _ => rfl) bounded bounded ?_
  rw [neg, bounded.isEmpty, if_neg Bool.false_ne_true]
  intro u defined isEnd
  rcases isEnd_ofEnds defined isEnd with result | result
  · exact ⟨a.hi, a.hi, .inr rfl, .inr rfl, result.symm⟩
  · exact ⟨a.lo, a.lo, .inl rfl, .inl rfl, result.symm⟩

theorem add_attained (left : a.Bounded) (right : b.Bounded) :
    Attained w (· + ·) a b (a.add w b) := by
  refine attained_of_ends w.add (fun _ _ => rfl) left right ?_
  rw [add, left.isEmpty, right.isEmpty, Bool.or_self, if_neg Bool.false_ne_true]
  intro u defined isEnd
  rcases isEnd_ofEnds defined isEnd with result | result
  · exact ⟨a.lo, b.lo, .inl rfl, .inl rfl, result.symm⟩
  · exact ⟨a.hi, b.hi, .inr rfl, .inr rfl, result.symm⟩

theorem sub_attained (left : a.Bounded) (right : b.Bounded) :
    Attained w (· - ·) a b (a.sub w b) := by
  refine attained_of_ends w.sub (fun _ _ => rfl) left right ?_
  rw [sub, left.isEmpty, right.isEmpty, Bool.or_self, if_neg Bool.false_ne_true]
  intro u defined isEnd
  rcases isEnd_ofEnds defined isEnd with result | result
  · exact ⟨a.lo, b.hi, .inl rfl, .inr rfl, result.symm⟩
  · exact ⟨a.hi, b.lo, .inr rfl, .inl rfl, result.symm⟩

theorem mul_attained (left : a.Bounded) (right : b.Bounded) :
    Attained w (· * ·) a b (a.mul w b) := by
  refine attained_of_ends w.mul (fun _ _ => rfl) left right ?_
  rw [mul, left.isEmpty, right.isEmpty, Bool.or_self, if_neg Bool.false_ne_true]
  intro u defined isEnd
  have corner := mem_of_isEnd_around defined isEnd
  simp only [List.mem_cons, List.not_mem_nil, or_false] at corner
  rcases corner with result | result | result | result
  · exact ⟨a.lo, b.lo, .inl rfl, .inl rfl, result.symm⟩
  · exact ⟨a.lo, b.hi, .inl rfl, .inr rfl, result.symm⟩
  · exact ⟨a.hi, b.lo, .inr rfl, .inl rfl, result.symm⟩
  · exact ⟨a.hi, b.hi, .inr rfl, .inr rfl, result.symm⟩

/-! ## All operations -/

/-- Opposites, sums, differences and products have every exact result of the window, and on
intervals between integers their ends are exact results or infinite. -/
theorem arithmetic_exact (w : Window) (a b : Interval) :
    ((∀ x, .fin x ∈ a → -x ∈ w → .fin (-x) ∈ a.neg w) ∧
      ∀ x y, .fin x ∈ a → .fin y ∈ b →
        (x + y ∈ w → .fin (x + y) ∈ a.add w b) ∧
        (x - y ∈ w → .fin (x - y) ∈ a.sub w b) ∧
        (x * y ∈ w → .fin (x * y) ∈ a.mul w b)) ∧
    (a.Bounded → ∀ n, (a.neg w).IsEnd (.fin n) → ∃ x, .fin x ∈ a ∧ -x = n) ∧
    (a.Bounded → b.Bounded →
      Tight (· + ·) a b (a.add w b) ∧ Tight (· - ·) a b (a.sub w b) ∧
        Tight (· * ·) a b (a.mul w b)) := by
  refine ⟨⟨fun x => mem_neg, fun x y hx hy => ⟨mem_add hx hy, mem_sub hx hy, mem_mul hx hy⟩⟩, ?_,
    fun left right => ?_⟩
  · intro bounded n isEnd
    obtain ⟨x, _, hx, _, same⟩ := (neg_attained bounded).tight n isEnd
    exact ⟨x, hx, same⟩
  · exact ⟨(add_attained left right).tight, (sub_attained left right).tight,
      (mul_attained left right).tight⟩

/-- A window above zero.  The least difference lies below it, and the greatest is `5 - 3`.  All
products lie in it. -/
theorem arithmetic_exact_above :
    let w : Window := ⟨2, 25, by decide⟩
    ((range w 2 5).Bounded ∧ (range w 3 4).Bounded ∧
      (range w 2 5).sub w (range w 3 4) = ofEnds .negInf (.fin 2) ∧
      (range w 2 5).mul w (range w 3 4) = range w 6 20 ∧
      .fin 5 ∈ range w 2 5 ∧ .fin 3 ∈ range w 3 4 ∧ (5 - 3 : Int) ∈ w ∧ (5 * 3 : Int) ∈ w) ∧
    (.fin (5 - 3) ∈ (range w 2 5).sub w (range w 3 4) ∧
      .fin (5 * 3) ∈ (range w 2 5).mul w (range w 3 4)) ∧
    Tight (· - ·) (range w 2 5) (range w 3 4) ((range w 2 5).sub w (range w 3 4)) ∧
    Tight (· * ·) (range w 2 5) (range w 3 4) ((range w 2 5).mul w (range w 3 4)) :=
  have left : (range ⟨2, 25, by decide⟩ 2 5).Bounded := ⟨⟨2, rfl⟩, 5, rfl⟩
  have right : (range ⟨2, 25, by decide⟩ 3 4).Bounded := ⟨⟨3, rfl⟩, 4, rfl⟩
  have both := arithmetic_exact ⟨2, 25, by decide⟩ (range _ 2 5) (range _ 3 4)
  have members := both.1.2 5 3 (by decide) (by decide)
  ⟨⟨left, right, by decide, by decide, by decide, by decide, by decide, by decide⟩,
    ⟨members.2.1 (by decide), members.2.2 (by decide)⟩, (both.2.2 left right).2⟩

/-- On intervals between integers, a result lies within every interval that has all exact results as
the window shows them. -/
theorem arithmetic_least (w : Window) (left : a.Bounded) (right : b.Bounded) (e : Interval) :
    ((∀ x, .fin x ∈ a → w.clamp (-x) ∈ e) → ∀ v ∈ a.neg w, v ∈ e) ∧
    ((∀ x y, .fin x ∈ a → .fin y ∈ b → w.clamp (x + y) ∈ e) → ∀ v ∈ a.add w b, v ∈ e) ∧
    ((∀ x y, .fin x ∈ a → .fin y ∈ b → w.clamp (x - y) ∈ e) → ∀ v ∈ a.sub w b, v ∈ e) ∧
    ((∀ x y, .fin x ∈ a → .fin y ∈ b → w.clamp (x * y) ∈ e) → ∀ v ∈ a.mul w b, v ∈ e) := by
  refine ⟨fun all v => (neg_attained left).least fun x _ hx _ => all x hx, fun all v => ?_,
    fun all v => ?_, fun all v => ?_⟩
  · exact (add_attained left right).least all
  · exact (sub_attained left right).least all
  · exact (mul_attained left right).least all

end Interval

end FlowGraph
