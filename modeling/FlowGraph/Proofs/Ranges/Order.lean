import FlowGraph.Analysis.Ranges
import FlowGraph.Proofs.Interval.Lattice
import FlowGraph.Proofs.Solver.Order

/-!
# The order of ranges

Ranges are joined value by value, and a value that only one side has keeps its interval there.
With the laws of the hull this makes the join associative, commutative and idempotent.

Ranges cover the contents of some slots if every content is a member of the interval of its slot.
Larger ranges cover what smaller ones cover.
-/

namespace FlowGraph

namespace Ranges

variable {s t : Ranges} {id k : InstId} {a : Interval}

/-! ## Intervals of values -/

theorem rangeOf_eq : s.rangeOf k = s[k]?.getD .empty := Std.ExtTreeMap.getD_eq_getD_getElem?

@[simp] theorem rangeOf_insert_self : rangeOf (s.insert id a) id = a :=
  Std.ExtTreeMap.getD_insert_self

theorem rangeOf_insert_of_ne (ne : k ≠ id) : rangeOf (s.insert id a) k = s.rangeOf k := by
  rw [rangeOf, Std.ExtTreeMap.getD_insert, if_neg, rangeOf]
  rw [Nat.compare_eq_eq]
  exact ne.symm

theorem getElem?_join : (join s t)[k]? = s[k]?.merge Interval.hull t[k]? := by
  rw [join, Std.ExtTreeMap.getElem?_map, Std.ExtTreeMap.getElem?_union, rangeOf_eq, rangeOf_eq]
  cases s[k]? <;> cases t[k]? <;> simp

theorem rangeOf_join : (join s t).rangeOf k = (s.rangeOf k).hull (t.rangeOf k) := by
  rw [rangeOf_eq, getElem?_join, rangeOf_eq, rangeOf_eq]
  cases s[k]? <;> cases t[k]? <;> simp

theorem analysis_isJoin (settings : Settings) : (analysis settings).IsJoin where
  assoc x y z := by
    refine Std.ExtTreeMap.ext_getElem? fun k => ?_
    change (join (join x y) z)[k]? = (join x (join y z))[k]?
    simp only [getElem?_join]
    cases x[k]? <;> cases y[k]? <;> cases z[k]? <;> simp [Interval.hull_assoc]
  comm x y := by
    refine Std.ExtTreeMap.ext_getElem? fun k => ?_
    change (join x y)[k]? = (join y x)[k]?
    simp only [getElem?_join]
    cases x[k]? <;> cases y[k]? <;> simp [Interval.hull_comm]
  idem x := by
    refine Std.ExtTreeMap.ext_getElem? fun k => ?_
    change (join x x)[k]? = x[k]?
    rw [getElem?_join]
    cases x[k]? <;> simp [Interval.hull_idem]

/-! ## Contents of slots -/

/-- Every content is a member of the interval of its slot. -/
def Covers (s : Ranges) (slots : InstId → Option Int) : Prop :=
  ∀ v n, slots v = some n → .fin n ∈ s.rangeOf v

theorem Covers.of_below {settings : Settings} {slots : InstId → Option Int}
    (covers : s.Covers slots) (below : (analysis settings).Below s t) : t.Covers slots := by
  intro v n content
  have same : join t s = t := below
  rw [← same, rangeOf_join]
  exact Interval.mem_hull_right (covers v n content)

end Ranges

end FlowGraph
