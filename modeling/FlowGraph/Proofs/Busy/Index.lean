import FlowGraph.Proofs.Busy.Paths
import FlowGraph.Proofs.Solver.Configurations

/-!
# The index of busy expressions

A state lists its busy expressions under the variables they read.  The lists and the set of busy
expressions are kept apart.  When a variable changes, its expressions stop being busy and its list
goes, but an expression that reads a second variable stays in the list of that one
(`lists_after_store`).

So a listed expression need not be busy.  If it is not, some other variable that it reads has lost
it (`Indexed`).  This holds of nothing, every instruction keeps it, and so do meetings.  Hence it
holds in every configuration of a run (`occurs_indexed`).  An expression that is listed under all
the variables it reads is busy, in particular if it reads one variable only.
-/

namespace FlowGraph

open Worklist (Occurs)

namespace BusyState

variable {f : Procedure} {id u v : InstId} {e : String} {s t : BusyState}

/-- A variable that an expression reads does not list it. -/
def LostUnder (f : Procedure) (s : BusyState) (e : String) (v : InstId) : Prop :=
  Reads f e v ∧ e ∉ s.byVar.textsOf v

/-- An expression is listed under variables it reads only, and it is busy unless one of them has
lost it. -/
def Indexed (f : Procedure) (s : BusyState) : Prop :=
  ∀ e v, e ∈ s.byVar.textsOf v → Reads f e v ∧ (e ∈ s.exprs ∨ ∃ u, LostUnder f s e u)

/-! ## What keeps the index -/

theorem indexed_empty : Indexed f empty := by
  intro e v listed
  simp [empty, TextMap.textsOf] at listed

theorem Indexed.meet (left : Indexed f s) (right : Indexed f t) : Indexed f (s.meet t) := by
  intro e v listed
  obtain ⟨inLeft, inRight⟩ := mem_textsOf_meet_iff.mp listed
  obtain ⟨reads, busyLeft | ⟨u, readsLost, lost⟩⟩ := left e v inLeft
  · obtain ⟨-, busyRight | ⟨u, readsLost, lost⟩⟩ := right e v inRight
    · exact ⟨reads, .inl (mem_meet_iff.mpr ⟨busyLeft, busyRight⟩)⟩
    · exact ⟨reads, .inr ⟨u, readsLost, fun both => lost (mem_textsOf_meet_iff.mp both).2⟩⟩
  · exact ⟨reads, .inr ⟨u, readsLost, fun both => lost (mem_textsOf_meet_iff.mp both).1⟩⟩

/-- What the changed variable had listed is no longer busy, and it is lost there. -/
theorem Indexed.kill (indexed : Indexed f s) (u : InstId) : Indexed f (s.kill u) := by
  intro e v listed
  obtain ⟨-, before⟩ := mem_textsOf_kill_iff.mp listed
  obtain ⟨reads, busy | ⟨w, readsLost, lost⟩⟩ := indexed e v before
  · by_cases ended : e ∈ s.byVar.textsOf u
    · refine ⟨reads, .inr ⟨u, (indexed e u ended).1, fun still => ?_⟩⟩
      exact (mem_textsOf_kill_iff.mp still).1 rfl
    · exact ⟨reads, .inl (mem_kill_iff.mpr ⟨busy, ended⟩)⟩
  · exact ⟨reads, .inr ⟨w, readsLost, fun still => lost (mem_textsOf_kill_iff.mp still).2⟩⟩

theorem Indexed.gen (indexed : Indexed f s) (isExpr : expr? f id = some e) :
    Indexed f (s.gen e (readsOf f id)) := by
  intro e' v listed
  rcases mem_textsOf_gen_iff.mp listed with ⟨rfl, reads⟩ | before
  · exact ⟨⟨id, isExpr, reads⟩, .inl (mem_gen_iff.mpr (.inl rfl))⟩
  · obtain ⟨reads, busy | ⟨u, readsLost, lost⟩⟩ := indexed e' v before
    · exact ⟨reads, .inl (mem_gen_iff.mpr (.inr busy))⟩
    · -- an expression that was lost stays lost, unless it is the one that becomes busy
      by_cases same : e = e'
      · exact ⟨reads, .inl (mem_gen_iff.mpr (.inl same))⟩
      · refine ⟨reads, .inr ⟨u, readsLost, fun found => ?_⟩⟩
        rcases mem_textsOf_gen_iff.mp found with ⟨made, -⟩ | old
        · exact same made
        · exact lost old

theorem Indexed.effect (indexed : Indexed f s) (id : InstId) : Indexed f (effect f id s) := by
  unfold BusyState.effect
  split
  next e isExpr => exact indexed.gen isExpr
  next v _ _ => exact indexed.kill v
  next => exact indexed

theorem analysis_preserves_indexed (closed : f.Closed) :
    analysis.Preserves f (fun b s => b < f.numBlocks ∧ Indexed f s) (fun _ s => Indexed f s) :=
  analysis_preserves closed indexed_empty (fun _ _ left right => left.meet right)
    fun _ ids _ _ indexed =>
      List.foldrRecOn ids _ indexed fun _ indexed id _ => indexed.effect id

/-! ## Every configuration -/

/-- On every built procedure, in each state that is recorded or pending, an expression listed under
a variable is busy, or another variable that it reads has lost it. -/
theorem occurs_indexed {d : Draft} (built : d.build = .ok f) {w : Worklist BusyState}
    (occurs : Occurs analysis f w) (has : w.Has s) (listed : e ∈ s.byVar.textsOf v) :
    e ∈ s.exprs ∨ ∃ u, u ≠ v ∧ Reads f e u ∧ e ∉ s.byVar.textsOf u := by
  have closed := Procedure.closed_of_build built
  have indexed := (occurs.good (analysis_preserves_indexed closed)).2 s has
  refine (indexed e v listed).2.imp_right ?_
  rintro ⟨u, reads, lost⟩
  refine ⟨u, ?_, reads, lost⟩
  rintro rfl
  exact lost listed

/-- In the diamond sample `a - b` is listed under both of its variables after the entry block, so
neither has lost it and it is busy. -/
theorem occurs_indexed_diamond : ∃ f w s, Sample.diamondDraft.build = .ok f ∧
    Occurs analysis f w ∧ w.Has s ∧ "a - b" ∈ s.byVar.textsOf 1 ∧ "a - b" ∈ s.byVar.textsOf 2 ∧
    "a - b" ∈ s.exprs := by
  have built : Sample.diamondDraft.build = .ok Sample.diamondDraft.layout := rfl
  have ends : (Worklist.run analysis Sample.diamondDraft.layout 10
      (.fresh Sample.diamondDraft.layout)).toOption.any (fun w =>
        ((w.tables.freeze Sample.diamondDraft.layout).exit? 0).any fun s =>
          decide ("a - b" ∈ s.byVar.textsOf 1) && decide ("a - b" ∈ s.byVar.textsOf 2)) = true := by
    decide +kernel
  obtain ⟨w, s, occurs, has, both⟩ := Worklist.exists_has_of_any ends
  obtain ⟨first, second⟩ := Bool.and_eq_true_iff.mp both
  have underA : "a - b" ∈ s.byVar.textsOf 1 := of_decide_eq_true first
  have underB : "a - b" ∈ s.byVar.textsOf 2 := of_decide_eq_true second
  have operands : ∀ id < Sample.diamondDraft.layout.numInsts,
      expr? Sample.diamondDraft.layout id = some "a - b" →
        ∀ u ∈ readsOf Sample.diamondDraft.layout id, u = 1 ∨ u = 2 := by
    decide +kernel
  refine ⟨_, w, s, built, occurs, has, underA, underB, ?_⟩
  rcases occurs_indexed built occurs has underA with busy | ⟨u, -, ⟨id, isExpr, reads⟩, lost⟩
  · exact busy
  · rcases operands id (lt_of_expr? isExpr) isExpr u reads with rfl | rfl
    · exact absurd underA lost
    · exact absurd underB lost

/-! ## Expressions that stay in a list -/

/-- The body overwrites `a` and then computes `a - b`. -/
def overwriteDraft : Draft := .ofSteps "main" do
  let entry ← Drafting.block "entry"
  let body ← Drafting.block "body"
  let a ← Drafting.alloca entry "a"
  let b ← Drafting.alloca entry "b"
  let _ ← Drafting.jump entry body
  let _ ← Drafting.store body (.const 1) a
  let left ← Drafting.load body a
  let right ← Drafting.load body b
  Drafting.binary body .sub (.value left) (.value right)

/-- Before the store `a - b` is not busy, and it is still listed under `b`. -/
theorem lists_after_store : ∃ f w s, overwriteDraft.build = .ok f ∧ Occurs analysis f w ∧
    w.Has s ∧ "a - b" ∈ s.byVar.textsOf 1 ∧ "a - b" ∉ s.exprs := by
  have ends : (Worklist.run analysis overwriteDraft.layout 10
      (.fresh overwriteDraft.layout)).toOption.any (fun w =>
        ((w.tables.freeze overwriteDraft.layout).exit? 0).any fun s =>
          decide ("a - b" ∈ s.byVar.textsOf 1) && decide ("a - b" ∉ s.exprs)) = true := by
    decide +kernel
  obtain ⟨w, s, occurs, has, both⟩ := Worklist.exists_has_of_any ends
  obtain ⟨listed, idle⟩ := Bool.and_eq_true_iff.mp both
  exact ⟨_, w, s, rfl, occurs, has, of_decide_eq_true listed, of_decide_eq_true idle⟩

end BusyState

end FlowGraph
