import FlowGraph.Proofs.Busy.Termination

/-!
# The order of busy states

Meeting takes expressions away.  So the states are ordered by what they have: a meeting is included
in both of its parts.

Meeting a state with itself may still change it, since a meeting drops variables that have no
expression.  States of a run have no such variables (`Compact`).  Compact states are equal as soon as
the same expressions are busy in them, variable by variable (`Compact.eq_of_members`).  A meeting is
compact and has what both of its parts have.  So meeting is associative and commutative, on compact
states it is idempotent, and a compact state does not change when it meets one that includes it
(`meet_eq_of_includes`).
-/

namespace FlowGraph

namespace BusyState

variable {f : Procedure} {id v : InstId} {e : String} {s t u : BusyState}

/-! ## Inclusion -/

/-- What is busy in the second state is busy in the first, also variable by variable. -/
structure Includes (s t : BusyState) : Prop where
  exprs : ∀ e ∈ t.exprs, e ∈ s.exprs
  byVar : ∀ (v : InstId) (es : TextSet), t.byVar[v]? = some es →
    ∃ all : TextSet, s.byVar[v]? = some all ∧ ∀ e ∈ es, e ∈ all

/-- A variable of a meeting is one of both states, with the expressions that both have. -/
theorem getElem?_meet_eq_some {es : TextSet} (found : (s.meet t).byVar[v]? = some es) :
    ∃ left right, s.byVar[v]? = some left ∧ t.byVar[v]? = some right ∧ es = left ∩ right ∧
      es ≠ ∅ := by
  rw [getElem?_meet] at found
  obtain ⟨left, inLeft, found⟩ := Option.bind_eq_some_iff.mp found
  obtain ⟨right, inRight, found⟩ := Option.bind_eq_some_iff.mp found
  split at found
  next => cases found
  next nonempty =>
    cases found
    exact ⟨left, right, inLeft, inRight, rfl, fun none => nonempty (by simp [none])⟩

theorem analysis_raises : analysis.Raises Includes where
  refl s := ⟨fun _ member => member, fun _ es found => ⟨es, found, fun _ member => member⟩⟩
  trans first second := by
    refine ⟨fun e member => first.exprs e (second.exprs e member), fun v es found => ?_⟩
    obtain ⟨middle, found', fewer⟩ := second.byVar v es found
    obtain ⟨all, found'', fewer'⟩ := first.byVar v middle found'
    exact ⟨all, found'', fun e member => fewer' e (fewer e member)⟩
  left s t := by
    refine ⟨fun e member => (mem_meet_iff.mp member).1, fun v es found => ?_⟩
    obtain ⟨left, right, inLeft, -, rfl, -⟩ := getElem?_meet_eq_some found
    exact ⟨left, inLeft, fun e member => (Std.ExtTreeSet.mem_inter_iff.mp member).1⟩
  right s t := by
    refine ⟨fun e member => (mem_meet_iff.mp member).2, fun v es found => ?_⟩
    obtain ⟨left, right, -, inRight, rfl, -⟩ := getElem?_meet_eq_some found
    exact ⟨right, inRight, fun e member => (Std.ExtTreeSet.mem_inter_iff.mp member).2⟩

/-! ## Compact states -/

/-- Every variable of the state has an expression. -/
def Compact (s : BusyState) : Prop :=
  ∀ (v : InstId) (es : TextSet), s.byVar[v]? = some es → es ≠ ∅

theorem compact_empty : Compact empty := by
  intro v es found
  simp [empty] at found

theorem Compact.meet : (s.meet t).Compact := by
  intro v es found
  obtain ⟨left, right, -, -, -, nonempty⟩ := getElem?_meet_eq_some found
  exact nonempty

theorem Compact.kill (compact : s.Compact) (v : InstId) : (s.kill v).Compact := by
  intro w es found
  rw [getElem?_kill] at found
  split at found
  next => cases found
  next => exact compact w es found

theorem Compact.gen (compact : s.Compact) (e : String) (vars : List InstId) :
    (s.gen e vars).Compact := by
  refine List.foldlRecOn vars (motive := fun m : TextMap =>
    ∀ (v : InstId) (es : TextSet), m[v]? = some es → es ≠ ∅) _ compact ?_
  intro m before v _ w es found
  rw [Std.ExtTreeMap.getElem?_insert] at found
  split at found
  next =>
    cases found
    exact Std.ExtTreeSet.insert_ne_empty
  next => exact before w es found

theorem Compact.effect (compact : s.Compact) (id : InstId) : (effect f id s).Compact := by
  unfold BusyState.effect
  split
  next e _ => exact compact.gen e _
  next v _ _ => exact compact.kill v
  next => exact compact

/-- A compact state has a variable exactly if an expression is listed under it. -/
theorem Compact.getElem? (compact : s.Compact) : s.byVar[v]? =
    if (s.byVar.textsOf v).isEmpty then none else some (s.byVar.textsOf v) := by
  rw [TextMap.textsOf, Std.ExtTreeMap.getD_eq_getD_getElem?]
  cases found : s.byVar[v]? with
  | none => simp
  | some es => simp [compact v es found]

/-- Compact states are equal if they have the same expressions, also variable by variable. -/
theorem Compact.eq_of_members (left : s.Compact) (right : t.Compact)
    (exprs : ∀ e, e ∈ s.exprs ↔ e ∈ t.exprs)
    (byVar : ∀ v e, e ∈ s.byVar.textsOf v ↔ e ∈ t.byVar.textsOf v) : s = t := by
  have sameExprs : s.exprs = t.exprs := Std.ExtTreeSet.ext_mem fun e => exprs e
  have sameMap : s.byVar = t.byVar := by
    refine Std.ExtTreeMap.ext_getElem? fun v => ?_
    have sameTexts : s.byVar.textsOf v = t.byVar.textsOf v := Std.ExtTreeSet.ext_mem (byVar v)
    rw [left.getElem?, right.getElem?, sameTexts]
  calc s = ⟨s.exprs, s.byVar⟩ := rfl
    _ = t := by rw [sameExprs, sameMap]

/-- A compact state takes in every state that includes it. -/
theorem meet_eq_of_includes (compact : t.Compact) (includes : s.Includes t) : t.meet s = t := by
  refine Compact.meet.eq_of_members compact (fun e => ?_) fun v e => ?_
  · rw [mem_meet_iff]
    exact and_iff_left_of_imp (includes.exprs e)
  · rw [mem_textsOf_meet_iff]
    refine and_iff_left_of_imp fun listed => ?_
    obtain ⟨es, found, member⟩ := mem_textsOf_iff.mp listed
    obtain ⟨all, found', fewer⟩ := includes.byVar v es found
    exact mem_textsOf_iff.mpr ⟨all, found', fewer e member⟩

theorem meet_assoc (s t u : BusyState) : (s.meet t).meet u = s.meet (t.meet u) := by
  refine Compact.meet.eq_of_members Compact.meet (fun e => ?_) fun v e => ?_
  · simp only [mem_meet_iff, and_assoc]
  · simp only [mem_textsOf_meet_iff, and_assoc]

theorem meet_comm (s t : BusyState) : s.meet t = t.meet s := by
  refine Compact.meet.eq_of_members Compact.meet (fun e => ?_) fun v e => ?_
  · rw [mem_meet_iff, mem_meet_iff, and_comm]
  · rw [mem_textsOf_meet_iff, mem_textsOf_meet_iff, and_comm]

theorem Compact.meet_self (compact : s.Compact) : s.meet s = s :=
  meet_eq_of_includes compact (analysis_raises.refl s)

-- a variable without an expression is lost when its state meets itself
example : let s : BusyState := ⟨∅, .ofList [(0, ∅)]⟩; s ≠ empty ∧ s.meet s = empty := by
  decide +kernel

theorem analysis_isJoinOn : analysis.IsJoinOn Compact where
  good _ _ _ _ := Compact.meet
  assoc x y z _ _ _ := meet_assoc x y z
  comm x y _ _ := meet_comm x y
  idem _ compact := compact.meet_self

theorem Compact.effects (compact : s.Compact) (ids : List InstId) :
    Compact (ids.foldr (BusyState.effect f) s) :=
  List.foldrRecOn ids _ compact fun _ compact id _ => compact.effect id

theorem analysis_preserves_compact (closed : f.Closed) :
    analysis.Preserves f (fun b s => b < f.numBlocks ∧ s.Compact) (fun _ s => s.Compact) := by
  exact analysis_preserves closed compact_empty (fun x y _ _ => Compact.meet)
    fun _ ids _ _ compact => compact.effects ids

end BusyState

end FlowGraph
