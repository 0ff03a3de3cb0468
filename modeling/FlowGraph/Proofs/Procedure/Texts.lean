import FlowGraph.Procedure.Texts

/-!
# Members of texts

A text of a value is a member of the set that the map has for the value.  A map may have a value
with no texts, so having texts is more than being in the map.
-/

namespace FlowGraph

variable {m : TextMap} {v : InstId} {e : String}

theorem mem_textsOf_iff : e ∈ m.textsOf v ↔ ∃ es, m[v]? = some es ∧ e ∈ es := by
  rw [TextMap.textsOf, Std.ExtTreeMap.getD_eq_getD_getElem?]
  cases m[v]? with
  | none => simp
  | some es => simp

theorem mem_of_mem_textsOf (member : e ∈ m.textsOf v) : v ∈ m := by
  obtain ⟨es, found, -⟩ := mem_textsOf_iff.mp member
  exact Std.ExtTreeMap.mem_iff_isSome_getElem?.mpr (by rw [found]; rfl)

end FlowGraph
