import FlowGraph.Analysis.GenKill
import FlowGraph.Demo.Sample
import FlowGraph.Proofs.Solver.Equations
import FlowGraph.Proofs.Solver.Rerun
import FlowGraph.Proofs.Solver.Routes
import FlowGraph.Proofs.Solver.Termination

/-!
# Gen and kill problems are solved

Union and intersection are one notion here.  Combining by union keeps what one of two states has,
and combining by intersection keeps what one of two states lacks.  So a fact is settled by a state
that has it, or by one that lacks it, and a combination settles what either state settles
(`settled_combine`).

Whatever the rules make, a run ends with a solution, and running again is quiet (`run_solved`).  It
ends since there are finitely many facts, and each end of a block settles a fact once.  This takes
no order: a rule may make facts where another is absent.

A problem is plain if its rules only make and kill (`Plain`).  Then the solution is exact.  By union
a block has the facts that hold along some route to it, and by intersection those that hold along
all routes (`plain_exact`).
-/

namespace FlowGraph

namespace GenKill

variable {p : Problem} {r : Rule} {f : Procedure} {b : BlockId} {s x y : FactSet} {fact : String}

/-! ## Settled facts -/

/-- The state settles the fact: by having it under union, by lacking it under intersection. -/
def Problem.Settled (p : Problem) (s : FactSet) (fact : String) : Prop :=
  fact ∈ s ↔ p.meeting = .union

instance : Decidable (p.Settled s fact) :=
  inferInstanceAs (Decidable (fact ∈ s ↔ p.meeting = .union))

theorem settled_of_union (union : p.meeting = .union) : p.Settled s fact ↔ fact ∈ s := by
  simp [Problem.Settled, union]

theorem settled_of_intersect (intersect : p.meeting = .intersect) :
    p.Settled s fact ↔ fact ∉ s := by
  simp [Problem.Settled, intersect]

theorem settled_combine : p.Settled (p.analysis.combine x y) fact ↔
    p.Settled x fact ∨ p.Settled y fact := by
  cases meeting : p.meeting with
  | union =>
      simp only [settled_of_union meeting, Problem.analysis, meeting]
      exact Std.ExtTreeSet.mem_union_iff
  | intersect =>
      simp only [settled_of_intersect meeting, Problem.analysis, meeting,
        Std.ExtTreeSet.mem_inter_iff, not_and_or]

/-- States that settle the same facts are the same. -/
theorem eq_of_settled (same : ∀ fact, p.Settled x fact ↔ p.Settled y fact) : x = y := by
  refine Std.ExtTreeSet.ext_mem fun fact => ?_
  cases meeting : p.meeting with
  | union => simpa only [settled_of_union meeting] using same fact
  | intersect => simpa only [settled_of_intersect meeting, not_iff_not] using same fact

theorem analysis_isJoin (p : Problem) : p.analysis.IsJoin where
  assoc x y z := eq_of_settled fun fact => by
    rw [settled_combine, settled_combine, settled_combine, settled_combine, or_assoc]
  comm x y := eq_of_settled fun fact => by rw [settled_combine, settled_combine, or_comm]
  idem x := eq_of_settled fun fact => by rw [settled_combine, or_self]

/-! ## What a block makes of the facts -/

theorem mem_apply_iff : fact ∈ r.apply s ↔ (fact ∈ s ∧ fact ∉ r.kill ∨ fact ∈ r.gen) ∨
    ∃ key facts, r.unless? = some (key, facts) ∧ key ∉ s ∧ fact ∈ facts := by
  have changed : fact ∈ s.filter (fun fact => !r.kill.contains fact) ∪ r.gen ↔
      fact ∈ s ∧ fact ∉ r.kill ∨ fact ∈ r.gen := by
    simp [← Bool.not_eq_true]
  simp only [Rule.apply]
  cases r.unless? with
  | none => simp [changed]
  | some added =>
      obtain ⟨key, facts⟩ := added
      by_cases present : key ∈ s
      · simp [changed, present]
      · simp [changed, present]

/-- The facts that a rule can make. -/
def Rule.made (r : Rule) : List String :=
  r.gen.toList ++ r.unless?.elim [] (·.2.toList) ++ (r.edges?.getD []).flatMap (·.2.toList)

/-- The facts that can come up. -/
def Problem.facts (p : Problem) : List String := p.boundary.toList ++ p.rules.flatMap (·.2.made)

/-- All facts of the state can come up. -/
def Problem.Known (p : Problem) (s : FactSet) : Prop := ∀ fact ∈ s, fact ∈ p.facts

theorem mem_facts_of_made (rule : p.rules.lookup b = some r) (made : fact ∈ r.made) :
    fact ∈ p.facts := by
  obtain ⟨before, after, shape, -⟩ := List.lookup_eq_some_iff.mp rule
  refine List.mem_append_right _ (List.mem_flatMap.mpr ⟨(b, r), ?_, made⟩)
  rw [shape]
  exact List.mem_append_right _ List.mem_cons_self

/-- A rule adds facts that can come up. -/
theorem known_apply (rule : p.rules.lookup b = some r) (known : p.Known s) :
    p.Known (r.apply s) := by
  intro fact member
  rcases mem_apply_iff.mp member with (⟨old, -⟩ | new) | ⟨key, facts, added, -, new⟩
  · exact known fact old
  · refine mem_facts_of_made rule ?_
    simp [Rule.made, new]
  · refine mem_facts_of_made rule ?_
    simp [Rule.made, added, new]

theorem known_flow_state (known : p.Known s) : p.Known (p.flow b s).state := by
  unfold Problem.flow
  cases rule : p.rules.lookup b with
  | none => exact known
  | some r =>
      simp only [Rule.flow]
      cases r.edges? with
      | none => exact known_apply rule known
      | some edges => exact known_apply rule known

/-- The edges that rules list lead to blocks. -/
def Problem.EdgesInside (p : Problem) (f : Procedure) : Prop :=
  ∀ b r edges, p.rules.lookup b = some r → r.edges? = some edges → ∀ e ∈ edges, e.1 < f.numBlocks

theorem known_listed (inside : p.EdgesInside f) (known : p.Known s) {state : FactSet}
    {edges : List (BlockId × FactSet)} (split : p.flow b s = .split state edges) :
    ∀ dest x, (dest, x) ∈ edges → dest < f.numBlocks ∧ p.Known x := by
  unfold Problem.flow at split
  cases rule : p.rules.lookup b with
  | none =>
      rw [rule] at split
      cases split
  | some r =>
      simp only [rule, Rule.flow] at split
      cases listed : r.edges? with
      | none =>
          rw [listed] at split
          cases split
      | some edges' =>
          rw [listed] at split
          cases split
          intro dest x member
          obtain ⟨e, there, same⟩ := List.mem_map.mp member
          cases same
          refine ⟨inside b r edges' rule listed e there, fun fact either => ?_⟩
          rcases Std.ExtTreeSet.mem_union_iff.mp either with after | extra
          · exact known_apply rule known fact after
          · refine mem_facts_of_made rule ?_
            simp only [Rule.made, listed, Option.getD_some, List.mem_append, List.mem_flatMap]
            exact .inr ⟨e, there, Std.ExtTreeSet.mem_toList.mpr extra⟩

/-! ## Runs end -/

/-- The number of facts that a state has yet to settle. -/
def Problem.unsettled (p : Problem) (s : FactSet) : Nat :=
  (p.facts.toFinset.filter fun fact => ¬ p.Settled s fact).card

/-- A fact that one state settles and another does not can come up. -/
theorem mem_facts_of_settled (left : p.Known x) (right : p.Known y) (settled : p.Settled y fact)
    (missing : ¬ p.Settled x fact) : fact ∈ p.facts := by
  cases meeting : p.meeting with
  | union =>
      rw [settled_of_union meeting] at settled
      exact right fact settled
  | intersect =>
      rw [settled_of_intersect meeting, not_not] at missing
      exact left fact missing

theorem unsettled_combine_lt (left : p.Known x) (right : p.Known y)
    (changed : p.analysis.combine x y ≠ x) :
    p.unsettled (p.analysis.combine x y) < p.unsettled x := by
  -- what changed is that some fact of the second state is new to the first
  have new : ∃ fact, p.Settled y fact ∧ ¬ p.Settled x fact := by
    by_contra none
    push Not at none
    refine changed (eq_of_settled (p := p) fun fact => ?_)
    rw [settled_combine]
    exact or_iff_left_of_imp (none fact)
  obtain ⟨fact, settled, missing⟩ := new
  have comesUp := List.mem_toFinset.mpr (mem_facts_of_settled left right settled missing)
  refine Finset.card_lt_card (Finset.ssubset_iff_of_subset ?_ |>.mpr ⟨fact, ?_, ?_⟩)
  · refine Finset.monotone_filter_right _ fun fact _ unsettled old => ?_
    exact unsettled (settled_combine.mpr (.inl old))
  · exact Finset.mem_filter.mpr ⟨comesUp, missing⟩
  · intro member
    exact (Finset.mem_filter.mp member).2 (settled_combine.mpr (.inr settled))

theorem known_combine (left : p.Known x) (right : p.Known y) :
    p.Known (p.analysis.combine x y) := by
  intro fact member
  cases meeting : p.meeting with
  | union =>
      simp only [Problem.analysis, meeting] at member
      exact (Std.ExtTreeSet.mem_union_iff.mp member).elim (left fact) (right fact)
  | intersect =>
      simp only [Problem.analysis, meeting] at member
      exact left fact (Std.ExtTreeSet.mem_inter_iff.mp member).1

theorem known_boundary : p.Known p.boundary := fun _ member =>
  List.mem_append_left _ (Std.ExtTreeSet.mem_toList.mpr member)

theorem analysis_bounded (closed : f.Closed) (inside : p.EdgesInside f) :
    p.analysis.Bounded f p.Known p.unsettled p.facts.toFinset.card where
  keeps := by
    refine Analysis.preserves_of_states closed known_boundary (fun x y => known_combine) ?_ ?_
    · intro b s flow _ known carried
      cases carried
      exact known_flow_state known
    · intro b s state edges _ known carried
      exact known_listed inside known (Except.ok.inj carried)
  returns b s _ _ := ⟨p.flow b s, rfl⟩
  room_le s _ := Finset.card_filter_le _ _
  shrinks x y left right changed := unsettled_combine_lt left right changed

/-- A run ends whatever the rules make, as long as the edges they list lead to blocks. -/
theorem analysis_drains (closed : f.Closed) (inside : p.EdgesInside f) :
    Worklist.Drains p.analysis f :=
  Worklist.drains_of_bounded closed (analysis_bounded closed inside)

/-- Whatever the rules make, a run ends with a solution, and running again is quiet. -/
theorem run_solved {d : Draft} (built : d.build = .ok f) (inside : p.EdgesInside f) :
    (∃ done, (∀ limit, done.visits ≤ limit →
        Worklist.run p.analysis f limit (.fresh f) = .ok done) ∧
      p.analysis.Solves f done.tables) ∧ Worklist.Rests p.analysis f := by
  have join := analysis_isJoin p
  obtain ⟨done, -, ends⟩ := analysis_drains (Procedure.closed_of_build built) inside
  obtain ⟨w, started, visits, drained⟩ := Worklist.run_anyRun (ends done.visits (le_refl _))
  exact ⟨⟨done, ends, visits.solves join started drained⟩, Worklist.rests_of_join join⟩

/-! ## Plain problems -/

/-- The rules only make and kill. -/
def Problem.Plain (p : Problem) : Prop :=
  ∀ b r, p.rules.lookup b = some r → r.unless? = none ∧ r.edges? = none

theorem edgesInside_of_plain (plain : p.Plain) : p.EdgesInside f := by
  intro b r edges rule listed
  rw [(plain b r rule).2] at listed
  cases listed

/-- After a block there are the facts it makes, and of those before it the ones it does not kill. -/
theorem plain_flow (plain : p.Plain) (b : BlockId) : ∃ gen kill : FactSet, ∀ s,
    p.flow b s = .uniform (p.flow b s).state ∧
      ∀ fact, fact ∈ (p.flow b s).state ↔ fact ∈ s ∧ fact ∉ kill ∨ fact ∈ gen := by
  unfold Problem.flow
  cases rule : p.rules.lookup b with
  | none =>
      refine ⟨∅, ∅, fun s => ⟨rfl, fun fact => ?_⟩⟩
      simp [Flow.state]
  | some r =>
      obtain ⟨noUnless, noEdges⟩ := plain b r rule
      refine ⟨r.gen, r.kill, fun s => ?_⟩
      simp only [Rule.flow, noEdges]
      refine ⟨rfl, fun fact => ?_⟩
      simp [Flow.state, mem_apply_iff, noUnless]

/-- A fact is settled after a block whatever comes in, or because it was settled before. -/
theorem plain_cause (plain : p.Plain) (settled : p.Settled (p.flow b s).state fact) :
    (∀ t, p.Settled (p.flow b t).state fact) ∨
      p.Settled s fact ∧ ∀ t, p.Settled t fact → p.Settled (p.flow b t).state fact := by
  obtain ⟨gen, kill, across⟩ := plain_flow plain b
  have members := fun t => (across t).2 fact
  cases meeting : p.meeting with
  | union =>
      simp only [settled_of_union meeting, members] at settled ⊢
      rcases settled with ⟨before, stays⟩ | made
      · exact .inr ⟨before, fun t there => .inl ⟨there, stays⟩⟩
      · exact .inl fun t => .inr made
  | intersect =>
      simp only [settled_of_intersect meeting, members, not_or, not_and_or, not_not] at settled ⊢
      obtain ⟨absent | killed, unmade⟩ := settled
      · exact .inr ⟨absent, fun t missing => ⟨.inl missing, unmade⟩⟩
      · exact .inl fun t => ⟨.inr killed, unmade⟩

theorem plain_pointwise (closed : f.Closed) (plain : p.Plain) :
    p.analysis.Pointwise f p.Known p.Settled where
  keeps := (analysis_bounded closed (edgesInside_of_plain plain)).keeps
  returns b s _ _ := ⟨p.flow b s, rfl⟩
  uniform b s flow carried := by
    cases carried
    obtain ⟨gen, kill, across⟩ := plain_flow plain b
    exact (across s).1
  combine x y fact := settled_combine
  cause b s flow fact _ carried settled := by
    cases carried
    rcases plain_cause plain settled with always | ⟨before, because⟩
    · refine .inl fun t flow' _ carried' => ?_
      cases carried'
      exact always t
    · refine .inr ⟨fact, before, fun t flow' _ there carried' => ?_⟩
      cases carried'
      exact because t there

/-- The run of a plain problem ends.  By union a block has the facts that hold along some route to
it, by intersection those that hold along all routes, and without a route it has no state. -/
theorem plain_exact {d : Draft} (built : d.build = .ok f) (plain : p.Plain) :
    ∃ done, (∀ limit, done.visits ≤ limit →
        Worklist.run p.analysis f limit (.fresh f) = .ok done) ∧
      p.analysis.Exact f p.Settled done.tables ∧
      ∀ b s fact, done.tables.nearAt p.direction b = some s →
        (p.meeting = .union → (fact ∈ s ↔ ∃ before u, p.analysis.Route f before b ∧
          p.analysis.along f before = .ok u ∧ fact ∈ u)) ∧
        (p.meeting = .intersect → (fact ∈ s ↔ ∀ before u, p.analysis.Route f before b →
          p.analysis.along f before = .ok u → fact ∈ u)) := by
  have closed := Procedure.closed_of_build built
  obtain ⟨done, -, ends⟩ := analysis_drains closed (edgesInside_of_plain plain)
  obtain ⟨w, started, visits, drained⟩ := Worklist.run_anyRun (ends done.visits (le_refl _))
  have exact := (plain_pointwise closed plain).exact closed started visits drained
  refine ⟨done, ends, exact, fun b s fact near => ⟨fun union => ?_, fun intersect => ?_⟩⟩
  · have along := exact.near b s fact near
    simpa only [settled_of_union union] using along
  · have along := exact.near b s fact near
    simp only [settled_of_intersect intersect] at along
    rw [← not_iff_not, along]
    push Not
    rfl

/-- Both ways to the last block make one fact, and one way makes another. -/
example :
    let ways (meeting : Meeting) : Problem := ⟨.forward, meeting, ∅,
      [(1, ⟨.ofList ["one", "two"], ∅, none, none⟩), (2, ⟨.ofList ["two"], ∅, none, none⟩)]⟩
    let last (meeting : Meeting) : Option (List String) := do
      let f := Sample.diamondDraft.layout
      let done ← (Worklist.run (ways meeting).analysis f 9 (.fresh f)).toOption
      let facts ← done.tables.entry[3]?.join
      return facts.toList
    last .union = some ["one", "two"] ∧ last .intersect = some ["two"] := by
  decide +kernel

end GenKill

end FlowGraph
