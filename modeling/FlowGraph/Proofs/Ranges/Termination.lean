import FlowGraph.Proofs.Ranges.Window
import FlowGraph.Proofs.Solver.Termination

/-!
# Runs for ranges end

A window sees finitely many values, and they have a position in it: the integers in order between
the two infinities (`position`).  A hull moves the lower end down and the upper end up, so an interval
can change only as often as there are positions below the one and above the other.  An empty interval
can still become any other, and a variable without an interval can still get one.
-/

namespace FlowGraph

namespace Window

variable {w : Window} {a b : ExtInt}

/-- The number of integers in a window. -/
def size (w : Window) : Nat := (w.hi - w.lo).toNat + 1

/-- The position of a value among those that a window sees. -/
def position (w : Window) : ExtInt → Nat
  | .negInf => 0
  | .fin n => (n - w.lo).toNat + 1
  | .posInf => w.size + 1
  | .undefined => 0

theorem position_le (seen : a.Seen w) : w.position a ≤ w.size + 1 := by
  cases a with
  | fin n =>
      obtain ⟨lower, upper⟩ := seen n rfl
      simp only [position, size]
      omega
  | _ => simp [position]

theorem position_lt (left : a.Seen w) (right : b.Seen w) (lt : a < b) :
    w.position a < w.position b := by
  cases a with
  | negInf =>
      cases b with
      | fin n => exact Nat.succ_pos _
      | posInf => exact Nat.succ_pos _
      | _ => simp at lt
  | fin m =>
      obtain ⟨lower, upper⟩ := left m rfl
      cases b with
      | fin n =>
          rw [ExtInt.fin_lt_fin] at lt
          simp only [position]
          omega
      | posInf =>
          simp only [position, size]
          omega
      | _ => simp at lt
  | _ => simp at lt

theorem position_mono (left : a.Seen w) (right : b.Seen w) (le : a ≤ b) :
    w.position a ≤ w.position b := by
  rcases le.eq_or_lt with rfl | lt
  · exact le_refl _
  · exact (position_lt left right lt).le

end Window

namespace Interval

variable {w : Window} {a b : Interval}

/-- How often an interval can still change. -/
def slack (w : Window) (a : Interval) : Nat :=
  if a.isEmpty then 2 * w.size + 3
  else w.position a.lo + (w.size + 1 - w.position a.hi)

theorem slack_le (seen : a.Seen w) : a.slack w ≤ 2 * w.size + 3 := by
  have bound := Window.position_le seen.lo
  unfold slack
  split <;> omega


theorem slack_hull_lt (left : a.Seen w) (right : b.Seen w) (changed : a.hull b ≠ a) :
    (a.hull b).slack w < a.slack w := by
  cases emptyA : a.isEmpty with
  | true =>
      rw [isEmpty_iff.mp emptyA, hull_empty_left] at changed ⊢
      have nonempty : b.isEmpty = false := by
        rw [← Bool.not_eq_true, isEmpty_iff]
        exact changed
      have bound := Window.position_le right.lo
      rw [slack, nonempty, if_neg Bool.false_ne_true, slack, if_pos (isEmpty_iff.mpr rfl)]
      omega
  | false =>
      cases emptyB : b.isEmpty with
      | true =>
          rw [isEmpty_iff.mp emptyB, hull_empty_right] at changed
          exact absurd rfl changed
      | false =>
          obtain ⟨nonempty, lower, upper⟩ := hull_eq emptyA emptyB
          obtain ⟨aLo, aHi, -⟩ := ends_of_nonempty emptyA
          obtain ⟨bLo, bHi, -⟩ := ends_of_nonempty emptyB
          have seen := left.hull right
          have loLe : (a.hull b).lo ≤ a.lo := lower ▸ ExtInt.min_le_left bLo
          have hiLe : a.hi ≤ (a.hull b).hi := upper ▸ ExtInt.le_max_left bHi
          have down := Window.position_mono seen.lo left.lo loLe
          have up := Window.position_mono left.hi seen.hi hiLe
          have top := Window.position_le seen.hi
          -- one of the two ends has moved
          have moved : w.position (a.hull b).lo < w.position a.lo ∨
              w.position a.hi < w.position (a.hull b).hi := by
            rcases loLe.lt_or_eq with lt | same
            · exact .inl (Window.position_lt seen.lo left.lo lt)
            rcases hiLe.lt_or_eq with lt | same'
            · exact .inr (Window.position_lt left.hi seen.hi lt)
            exact absurd (eq_of_ends same same'.symm) changed
          simp only [slack, nonempty, emptyA, if_neg Bool.false_ne_true]
          omega

end Interval

namespace Ranges

variable {w : Window} {f : Procedure} {s t : Ranges} {v : InstId}

/-- How often the interval of a value can still change. -/
def weight (w : Window) : Option Interval → Nat
  | none => 2 * w.size + 4
  | some a => a.slack w

/-- How often some ranges can still change. -/
def room (w : Window) (f : Procedure) (s : Ranges) : Nat :=
  ∑ v ∈ Finset.range f.numInsts, weight w s[v]?

theorem weight_le (seen : SeenVariables w f s) : weight w s[v]? ≤ 2 * w.size + 4 := by
  cases found : s[v]? with
  | none => exact le_refl _
  | some a => exact (Interval.slack_le (seen v a found).2).trans (Nat.le_succ _)

theorem weight_join_lt (left : SeenVariables w f s) (right : SeenVariables w f t)
    (changed : (s.join t)[v]? ≠ s[v]?) : weight w (s.join t)[v]? < weight w s[v]? := by
  rw [getElem?_join] at changed ⊢
  cases inLeft : s[v]? with
  | none =>
      cases inRight : t[v]? with
      | none =>
          rw [inLeft, inRight] at changed
          exact absurd rfl changed
      | some b => exact Nat.lt_succ_of_le (Interval.slack_le (right v b inRight).2)
  | some a =>
      cases inRight : t[v]? with
      | none =>
          rw [inLeft, inRight] at changed
          exact absurd rfl changed
      | some b =>
          rw [inLeft, inRight, Option.merge_some_some] at changed
          exact Interval.slack_hull_lt (left v a inLeft).2 (right v b inRight).2
            fun same => changed (by rw [same])

theorem weight_join_le (left : SeenVariables w f s) (right : SeenVariables w f t) :
    weight w (s.join t)[v]? ≤ weight w s[v]? := by
  by_cases same : (s.join t)[v]? = s[v]?
  · rw [same]
  · exact (weight_join_lt left right same).le

theorem room_join_lt (left : SeenVariables w f s) (right : SeenVariables w f t)
    (changed : s.join t ≠ s) : room w f (s.join t) < room w f s := by
  have somewhere : ∃ v : InstId, (s.join t)[v]? ≠ s[v]? := by
    by_contra none
    push Not at none
    exact changed (Std.ExtTreeMap.ext_getElem? none)
  obtain ⟨v, differs⟩ := somewhere
  have inside : v < f.numInsts := by
    cases found : (s.join t)[v]? with
    | some a => exact Procedure.lt_of_hasVariable ((left.join right) v a found).1
    | none =>
        cases inLeft : s[v]? with
        | none => exact absurd (found.trans inLeft.symm) differs
        | some a => exact Procedure.lt_of_hasVariable (left v a inLeft).1
  refine Finset.sum_lt_sum (fun v _ => weight_join_le left right) ?_
  exact ⟨v, Finset.mem_range.mpr inside, weight_join_lt left right differs⟩

/-! ## The analysis -/

theorem analysis_preserves (closed : f.Closed) (settings : Settings) :
    (analysis settings).Preserves f
      (fun b s => b < f.numBlocks ∧ SeenVariables settings.window f s)
      (fun _ s => SeenVariables settings.window f s) := by
  refine Analysis.preserves_of_states closed seen_empty (fun x y left right => left.join right)
    ?_ ?_
  · intro b s flow here seen carried
    exact (through_seen closed here seen carried).1
  · intro b s state edges here seen carried
    exact (through_seen closed here seen carried).2 state edges rfl

theorem analysis_bounded (closed : f.Closed) (settings : Settings) (down : settings.window.lo ≤ 1)
    (up : -1 ≤ settings.window.hi) :
    (analysis settings).Bounded f (SeenVariables settings.window f) (room settings.window f)
      (f.numInsts * (2 * settings.window.size + 4)) where
  keeps := analysis_preserves closed settings
  returns b s here seen := through_returns closed down up here seen
  room_le s seen := by
    have all := Finset.sum_le_card_nsmul (Finset.range f.numInsts) _ _
      fun v _ => weight_le (v := v) seen
    rwa [Finset.card_range] at all
  shrinks x y left right changed := room_join_lt left right changed

theorem analysis_drains (closed : f.Closed) (settings : Settings) (down : settings.window.lo ≤ 1)
    (up : -1 ≤ settings.window.hi) : Worklist.Drains (analysis settings) f :=
  Worklist.drains_of_bounded closed (analysis_bounded closed settings down up)

end Ranges

end FlowGraph
