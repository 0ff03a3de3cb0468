import FlowGraph.Analysis.Trails
import FlowGraph.Proofs.Procedure.Texts
import FlowGraph.Proofs.Solver.Order

/-!
# The order of trails

Trails are joined value by value.  A value is tainted in a join if it is tainted in either part, and
it has the trails that it has in either part.  So the join is associative, commutative and
idempotent.
-/

namespace FlowGraph

namespace Trails

variable {s t : Trails} {v : InstId} {p : String}

theorem getElem?_join : (join s t)[v]? = s[v]?.merge (· ∪ ·) t[v]? := by
  have left : ∀ x : TextSet, ∅ ∪ x = x := fun x => by
    apply Std.ExtTreeSet.ext_mem
    simp
  have right : ∀ x : TextSet, x ∪ ∅ = x := fun x => by rw [Analysis.union_comm, left]
  rw [join, Std.ExtTreeMap.getElem?_map, Std.ExtTreeMap.getElem?_union, TextMap.textsOf,
    TextMap.textsOf, Std.ExtTreeMap.getD_eq_getD_getElem?, Std.ExtTreeMap.getD_eq_getD_getElem?]
  cases s[v]? <;> cases t[v]? <;> simp [left, right]

theorem mem_join_iff : v ∈ join s t ↔ v ∈ s ∨ v ∈ t := by
  simp only [Std.ExtTreeMap.mem_iff_isSome_getElem?, getElem?_join]
  cases s[v]? <;> cases t[v]? <;> simp

theorem mem_textsOf_join_iff :
    p ∈ TextMap.textsOf (join s t) v ↔ p ∈ s.textsOf v ∨ p ∈ t.textsOf v := by
  simp only [mem_textsOf_iff, getElem?_join]
  cases s[v]? <;> cases t[v]? <;> simp

theorem analysis_isJoin (settings : Settings) : (analysis settings).IsJoin where
  assoc x y z := by
    refine Std.ExtTreeMap.ext_getElem? fun v => ?_
    change (join (join x y) z)[v]? = (join x (join y z))[v]?
    simp only [getElem?_join]
    cases x[v]? <;> cases y[v]? <;> cases z[v]? <;> simp [Analysis.union_assoc]
  comm x y := by
    refine Std.ExtTreeMap.ext_getElem? fun v => ?_
    change (join x y)[v]? = (join y x)[v]?
    simp only [getElem?_join]
    cases x[v]? <;> cases y[v]? <;> simp [Analysis.union_comm]
  idem x := by
    refine Std.ExtTreeMap.ext_getElem? fun v => ?_
    change (join x x)[v]? = x[v]?
    rw [getElem?_join]
    cases x[v]? <;> simp [Analysis.union_self]

end Trails

end FlowGraph
