import FlowGraph.Demo.Sample
import FlowGraph.Proofs.Busy.Termination
import FlowGraph.Proofs.Solver.Routes

/-!
# Busy expressions are exact on paths

An expression is busy at a block exactly if every path from there to an exit computes it before one
of its variables changes (`solve_busy`).  The paths go through loops any number of times.

The text of an expression does not say which variables it reads, so instructions with the same text
are required to read the same variables (`Unambiguous`).  Then the two parts of a state are tied
together: a busy expression is listed under all the variables it reads, and under no other
(`Tied`).  Ending the listed expressions of a variable thus ends exactly the expressions that read
it.

What is followed along paths is that an expression is not busy.  After a block this has one cause:
the block ends the expression, or the expression was not busy before.
-/

namespace FlowGraph

namespace Procedure

variable {f : Procedure}

/-! ## Paths to exits -/

/-- A path from a block to an exit: the block, and the blocks after it. -/
inductive ExitPath (f : Procedure) : BlockId → List BlockId → Prop where
  | exit {b : BlockId} : f.IsExit b → ExitPath f b []
  | step {b c : BlockId} {rest : List BlockId} :
      f.Edge b c → ExitPath f c rest → ExitPath f b (c :: rest)

/-- The instructions of some blocks, in order. -/
def instsAlong (f : Procedure) (path : List BlockId) : List InstId :=
  path.flatMap fun b => (f.instsOf b).toOption.getD []

theorem instsAlong_cons {b : BlockId} {ids : List InstId} (found : f.instsOf b = .ok ids)
    (rest : List BlockId) : f.instsAlong (b :: rest) = ids ++ f.instsAlong rest := by
  rw [instsAlong, List.flatMap_cons, found]
  rfl

theorem ExitPath.lt (closed : f.Closed) {b : BlockId} {rest : List BlockId}
    (path : f.ExitPath b rest) : ∀ c ∈ b :: rest, c < f.numBlocks := by
  induction path with
  | exit isExit =>
      intro c member
      rw [List.mem_singleton.mp member]
      exact closed.lt_of_reachable isExit.1
  | step edge path ih =>
      intro d member
      rcases List.mem_cons.mp member with rfl | after
      · exact edge.lt
      · exact ih d after

end Procedure

namespace BusyState

variable {f : Procedure} {b : BlockId} {id v : InstId} {e : String} {s t : BusyState}

/-! ## Computing an expression before it ends -/

/-- An expression reads a variable. -/
def Reads (f : Procedure) (e : String) (v : InstId) : Prop :=
  ∃ id, expr? f id = some e ∧ v ∈ readsOf f id

/-- Instructions that compute the same expression read the same variables. -/
def Unambiguous (f : Procedure) : Prop :=
  ∀ id id' e, expr? f id = some e → expr? f id' = some e →
    ∀ v, v ∈ readsOf f id ↔ v ∈ readsOf f id'

theorem lt_of_expr? (isExpr : expr? f id = some e) : id < f.numInsts := by
  unfold expr? at isExpr
  split at isExpr
  next found => exact (Array.getElem?_eq_some_iff.mp found).1
  next => cases isExpr

theorem unambiguous_iff : Unambiguous f ↔
    ∀ id ∈ List.range f.numInsts, ∀ id' ∈ List.range f.numInsts,
      expr? f id ≠ none → expr? f id = expr? f id' → ∀ v ∈ readsOf f id, v ∈ readsOf f id' := by
  constructor
  · intro unambiguous id _ id' _ isExpr same v reads
    obtain ⟨e, isExpr⟩ := Option.ne_none_iff_exists'.mp isExpr
    exact (unambiguous id id' e isExpr (same ▸ isExpr) v).mp reads
  · intro checked
    have half : ∀ id id' e, expr? f id = some e → expr? f id' = some e →
        ∀ v ∈ readsOf f id, v ∈ readsOf f id' := by
      intro id id' e isExpr isExpr'
      exact checked id (List.mem_range.mpr (lt_of_expr? isExpr)) id'
        (List.mem_range.mpr (lt_of_expr? isExpr')) (by simp [isExpr]) (isExpr.trans isExpr'.symm)
    exact fun id id' e isExpr isExpr' v =>
      ⟨half id id' e isExpr isExpr' v, half id' id e isExpr' isExpr v⟩

instance : Decidable (Unambiguous f) := decidable_of_iff _ unambiguous_iff.symm

/-- An instruction ends an expression: it changes a variable that the expression reads. -/
def Ends (f : Procedure) (e : String) (id : InstId) : Prop :=
  ∃ v, killedBy? f id = some v ∧ Reads f e v

/-- Some instructions in order compute an expression before they end it. -/
def EvaluatedIn (f : Procedure) (e : String) (ids : List InstId) : Prop :=
  ∃ before id after, ids = before ++ id :: after ∧ expr? f id = some e ∧
    ∀ other ∈ before, ¬ Ends f e other

theorem not_evaluatedIn_nil : ¬ EvaluatedIn f e [] := by
  rintro ⟨before, id, after, split, -⟩
  exact List.append_ne_nil_of_right_ne_nil before (List.cons_ne_nil id after) split.symm

theorem evaluatedIn_cons_iff {ids : List InstId} : EvaluatedIn f e (id :: ids) ↔
    expr? f id = some e ∨ ¬ Ends f e id ∧ EvaluatedIn f e ids := by
  constructor
  · rintro ⟨before, id', after, split, isExpr, live⟩
    cases before with
    | nil =>
        cases split
        exact .inl isExpr
    | cons first before =>
        cases split
        exact .inr ⟨live _ List.mem_cons_self, before, id', after, rfl, isExpr,
          fun other member => live other (List.mem_cons_of_mem _ member)⟩
  · rintro (isExpr | ⟨live, before, id', after, rfl, isExpr, lives⟩)
    · exact ⟨[], id, ids, rfl, isExpr, by simp⟩
    · exact ⟨id :: before, id', after, rfl, isExpr, List.forall_mem_cons.mpr ⟨live, lives⟩⟩

/-! ## The two parts of a state -/

/-- A busy expression is listed under exactly the variables it reads. -/
structure Tied (f : Procedure) (s : BusyState) : Prop where
  listed : ∀ e v, e ∈ s.exprs → Reads f e v → e ∈ s.byVar.textsOf v
  reads : ∀ e v, e ∈ s.byVar.textsOf v → Reads f e v

theorem tied_empty : Tied f empty where
  listed e v member := by simp [empty] at member
  reads e v member := by simp [empty, TextMap.textsOf] at member

theorem Tied.meet (left : Tied f s) (right : Tied f t) : Tied f (s.meet t) where
  listed e v member reads := by
    obtain ⟨inLeft, inRight⟩ := mem_meet_iff.mp member
    exact mem_textsOf_meet_iff.mpr ⟨left.listed e v inLeft reads, right.listed e v inRight reads⟩
  reads e v member := left.reads e v (mem_textsOf_meet_iff.mp member).1

theorem Tied.kill (tied : Tied f s) (v : InstId) : Tied f (s.kill v) where
  listed e w member reads := by
    obtain ⟨before, unlisted⟩ := mem_kill_iff.mp member
    refine mem_textsOf_kill_iff.mpr ⟨?_, tied.listed e w before reads⟩
    rintro rfl
    exact unlisted (tied.listed e v before reads)
  reads e w member := tied.reads e w (mem_textsOf_kill_iff.mp member).2

theorem Tied.gen (unambiguous : Unambiguous f) (tied : Tied f s) (isExpr : expr? f id = some e) :
    Tied f (s.gen e (readsOf f id)) where
  listed e' v member reads := by
    rcases mem_gen_iff.mp member with rfl | before
    · obtain ⟨id', isExpr', reads'⟩ := reads
      exact mem_textsOf_gen_iff.mpr
        (.inl ⟨rfl, (unambiguous id' id e isExpr' isExpr v).mp reads'⟩)
    · exact mem_textsOf_gen_iff.mpr (.inr (tied.listed e' v before reads))
  reads e' v member := by
    rcases mem_textsOf_gen_iff.mp member with ⟨rfl, reads⟩ | before
    · exact ⟨id, isExpr, reads⟩
    · exact tied.reads e' v before

theorem Tied.effect (unambiguous : Unambiguous f) (tied : Tied f s) (id : InstId) :
    Tied f (effect f id s) := by
  unfold BusyState.effect
  split
  next e isExpr => exact tied.gen unambiguous isExpr
  next v _ _ => exact tied.kill v
  next => exact tied

theorem Tied.effects (unambiguous : Unambiguous f) (tied : Tied f s) (ids : List InstId) :
    Tied f (ids.foldr (BusyState.effect f) s) :=
  List.foldrRecOn ids _ tied fun _ tied id _ => tied.effect unambiguous id

/-! ## Effects on tied states -/

/-- An instruction that computes an expression changes no variable. -/
theorem killedBy?_eq_none (isExpr : expr? f id = some e) : killedBy? f id = none := by
  unfold expr? at isExpr
  split at isExpr
  next found => simp [killedBy?, found]
  next => cases isExpr

/-- Before an instruction an expression is busy if the instruction computes it, or if it is busy
after the instruction and does not end there. -/
theorem mem_effect_iff (tied : Tied f s) :
    e ∈ (effect f id s).exprs ↔ expr? f id = some e ∨ ¬ Ends f e id ∧ e ∈ s.exprs := by
  unfold effect
  split
  next e' isExpr =>
    have live : ¬ Ends f e id := by
      rintro ⟨v, kills, -⟩
      rw [killedBy?_eq_none isExpr] at kills
      cases kills
    simp [mem_gen_iff, isExpr, live]
  next v noExpr kills =>
    have ends : Ends f e id ↔ Reads f e v := by simp [Ends, kills]
    rw [mem_kill_iff, noExpr, ends]
    constructor
    · rintro ⟨before, unlisted⟩
      exact .inr ⟨fun reads => unlisted (tied.listed e v before reads), before⟩
    · rintro (isExpr | ⟨live, before⟩)
      · cases isExpr
      · exact ⟨before, fun listed => live (tied.reads e v listed)⟩
  next noExpr noKill =>
    have live : ¬ Ends f e id := by simp [Ends, noKill]
    simp [noExpr, live]

/-- The same for instructions in order. -/
theorem mem_effects_iff (unambiguous : Unambiguous f) (tied : Tied f s) (ids : List InstId) :
    e ∈ (ids.foldr (effect f) s).exprs ↔
      EvaluatedIn f e ids ∨ (∀ id ∈ ids, ¬ Ends f e id) ∧ e ∈ s.exprs := by
  induction ids with
  | nil => simp [not_evaluatedIn_nil]
  | cons id ids ih =>
      rw [List.foldr_cons, mem_effect_iff (tied.effects unambiguous ids), ih, evaluatedIn_cons_iff,
        List.forall_mem_cons]
      tauto

/-! ## The analysis -/

/-- An expression that is not busy has one cause for it. -/
theorem analysis_pointwise (closed : f.Closed) (unambiguous : Unambiguous f) :
    analysis.Pointwise f (Tied f) (fun s e => e ∉ s.exprs) := by
  -- crossing a block has the effects of its instructions, as soon as it ends normally
  have crosses : ∀ {b s flow}, analysis.transfer f b s = .ok flow → ∃ ids,
      f.instsOf b = .ok ids ∧ flow = .uniform (ids.foldr (effect f) s) := by
    intro b s flow carried
    obtain ⟨s', through, same⟩ := bind_eq_ok_iff.mp carried
    obtain ⟨ids, found, -⟩ := bind_eq_ok_iff.mp through
    rw [transfer_eq closed found] at carried
    cases carried
    exact ⟨ids, found, rfl⟩
  refine ⟨?_, ?_, ?_, ?_, ?_⟩
  · exact analysis_preserves closed tied_empty (fun _ _ left right => left.meet right)
      fun _ ids _ _ tied => tied.effects unambiguous ids
  · intro b s here _
    obtain ⟨ids, -, carried⟩ := transfer_returns closed here s
    exact ⟨_, carried⟩
  · intro b s flow carried
    obtain ⟨ids, -, rfl⟩ := crosses carried
    rfl
  · intro x y e
    exact (not_congr mem_meet_iff).trans not_and_or
  · intro b s flow e tied carried missing
    obtain ⟨ids, found, rfl⟩ := crosses carried
    obtain ⟨never, before⟩ :=
      not_or.mp ((not_congr (mem_effects_iff unambiguous tied ids)).mp missing)
    have missing' : ∀ {t flow'}, Tied f t → analysis.transfer f b t = .ok flow' →
        ¬ ((∀ id ∈ ids, ¬ Ends f e id) ∧ e ∈ t.exprs) → e ∉ flow'.state.exprs := by
      intro t flow' tied' carried' before'
      obtain ⟨ids', found', rfl⟩ := crosses carried'
      rw [found] at found'
      cases found'
      exact (not_congr (mem_effects_iff unambiguous tied' ids)).mpr (not_or.mpr ⟨never, before'⟩)
    by_cases live : ∀ id ∈ ids, ¬ Ends f e id
    · refine .inr ⟨e, fun busy => before ⟨live, busy⟩, fun t flow' tied' idle carried' => ?_⟩
      exact missing' tied' carried' fun ⟨_, busy⟩ => idle busy
    · refine .inl fun t flow' tied' carried' => ?_
      exact missing' tied' carried' fun ⟨lives, _⟩ => live lives

/-- A route leads from an exit back to a block, and so it is a path to an exit in reverse. -/
theorem route_iff_exitPath (closed : f.Closed) {before : List BlockId} :
    analysis.Route f before b ↔ f.ExitPath b before.reverse := by
  obtain ⟨exits, found, -, members⟩ := closed.exitBlocks
  constructor
  · intro route
    induction route with
    | seed found' member =>
        have same := found.symm.trans found'
        cases same
        exact .exit ((members _).mp member)
    | step route moves ih =>
        rw [List.reverse_append]
        exact .step moves ih
  · intro path
    generalize reversed : before.reverse = rest at path
    induction path generalizing before with
    | exit isExit =>
        rw [List.reverse_eq_nil_iff.mp reversed]
        exact .seed found ((members _).mpr isExit)
    | step edge path ih =>
        have split := List.reverse_eq_cons_iff.mp reversed
        rw [split]
        exact .step (ih (by rw [List.reverse_reverse])) edge

theorem along_eq (closed : f.Closed) {path : List BlockId} (inside : ∀ b ∈ path, b < f.numBlocks) :
    analysis.along f path = .ok ((f.instsAlong path.reverse).foldr (effect f) empty) := by
  induction path using List.reverseRecOn with
  | nil => rfl
  | append_singleton path b ih =>
      obtain ⟨ids, found, carried⟩ := transfer_returns closed (inside b (by simp))
        ((f.instsAlong path.reverse).foldr (effect f) empty)
      refine Analysis.along_append_eq_ok_iff.mpr ⟨_, _, ih fun c member =>
        inside c (List.mem_append_left _ member), carried, ?_⟩
      rw [List.reverse_append, List.reverse_singleton, List.singleton_append,
        Procedure.instsAlong_cons found, List.foldr_append]
      rfl

/-- Along a path exactly the expressions are busy that it computes before they end. -/
theorem mem_along_iff (closed : f.Closed) (unambiguous : Unambiguous f) {path : List BlockId}
    (inside : ∀ b ∈ path, b < f.numBlocks) : ∃ u, analysis.along f path.reverse = .ok u ∧
      (e ∈ u.exprs ↔ EvaluatedIn f e (f.instsAlong path)) := by
  refine ⟨_, along_eq closed fun b member => inside b (List.mem_reverse.mp member), ?_⟩
  rw [List.reverse_reverse, mem_effects_iff unambiguous tied_empty]
  simp [empty]

/-- Whether an expression is idle along some route to a block is read off the paths from there to
exits, with or without the block itself. -/
theorem exists_idle_iff (closed : f.Closed) (unambiguous : Unambiguous f)
    (whole : List BlockId → List BlockId)
    (inside : ∀ rest, f.ExitPath b rest → ∀ c ∈ whole rest, c < f.numBlocks) :
    (∃ before u, analysis.Route f before b ∧
      analysis.along f (whole before.reverse).reverse = .ok u ∧ e ∉ u.exprs) ↔
    ¬ ∀ rest, f.ExitPath b rest → EvaluatedIn f e (f.instsAlong (whole rest)) := by
  push Not
  constructor
  · rintro ⟨before, u, route, walked, idle⟩
    have path := (route_iff_exitPath closed).mp route
    obtain ⟨u', walked', busy⟩ := mem_along_iff (e := e) closed unambiguous (inside _ path)
    rw [walked] at walked'
    cases walked'
    exact ⟨_, path, fun computed => idle (busy.mpr computed)⟩
  · rintro ⟨rest, path, never⟩
    obtain ⟨u, walked, busy⟩ := mem_along_iff (e := e) closed unambiguous (inside rest path)
    refine ⟨rest.reverse, u, (route_iff_exitPath closed).mpr (by rwa [List.reverse_reverse]), ?_,
      fun computed => never (busy.mp computed)⟩
    rwa [List.reverse_reverse]

/-! ## Exactness -/

/-- A solution says of every block exactly what the paths from it to exits say. -/
structure ExactOnExits (f : Procedure) (solution : Solution BusyState) : Prop where
  entry_none : ∀ b, solution.entry? b = none ↔ ¬ ∃ rest, f.ExitPath b rest
  exit_none : ∀ b, solution.exit? b = none ↔ ¬ ∃ rest, f.ExitPath b rest
  /-- At the entry of a block, the block is still to come. -/
  entry : ∀ b s e, solution.entry? b = some s →
    (e ∈ s.exprs ↔ ∀ rest, f.ExitPath b rest → EvaluatedIn f e (f.instsAlong (b :: rest)))
  /-- At its exit, only the blocks after it are. -/
  exit : ∀ b s e, solution.exit? b = some s →
    (e ∈ s.exprs ↔ ¬ f.IsExit b ∧ ∀ rest, f.ExitPath b rest → EvaluatedIn f e (f.instsAlong rest))

/-- The solution is found, and it has busy exactly what every path to an exit computes in time. -/
theorem solve_busy {d : Draft} (built : d.build = .ok f) (unambiguous : Unambiguous f) :
    ∃ solution visits, (∀ limit, visits ≤ limit → solve analysis f limit = .ok solution) ∧
      ExactOnExits f solution := by
  have closed := Procedure.closed_of_build built
  obtain ⟨w, done, started, ran, drained, solved⟩ := (analysis_drains closed).solution
  refine ⟨done.tables.freeze f, done.visits, solved, ?_⟩
  have exact := (analysis_pointwise closed unambiguous).exact closed started ran drained
  have reached : ∀ b, (∃ before, analysis.Route f before b) ↔ ∃ rest, f.ExitPath b rest := by
    intro b
    constructor
    · rintro ⟨before, route⟩
      exact ⟨_, (route_iff_exitPath closed).mp route⟩
    · rintro ⟨rest, path⟩
      exact ⟨rest.reverse, (route_iff_exitPath closed).mpr (by rwa [List.reverse_reverse])⟩
  refine ⟨fun b => ?_, fun b => ?_, fun b s e found => ?_, fun b s e found => ?_⟩
  · rw [← reached]
    exact exact.far_none b
  · rw [← reached]
    exact exact.near_none b
  · have idle := exists_idle_iff (e := e) closed unambiguous (b :: ·)
      fun rest path => path.lt closed
    simp only [List.reverse_cons, List.reverse_reverse] at idle
    exact not_iff_not.mp ((exact.far b s e found).trans idle)
  · have idle := exists_idle_iff (e := e) closed unambiguous (fun rest => rest)
      fun rest (path : f.ExitPath b rest) c member =>
        path.lt closed c (List.mem_cons_of_mem _ member)
    simp only [List.reverse_reverse] at idle
    rw [not_iff_not.mp ((exact.near b s e found).trans idle)]
    refine (and_iff_right_of_imp fun computed isExit => ?_).symm
    exact not_evaluatedIn_nil (computed [] (.exit isExit))

/-- In the diamond sample both sides of the branch compute `a - b`, so it is busy after the entry
block, and so every path from there computes it. -/
theorem solve_busy_diamond : Unambiguous Sample.diamondDraft.layout ∧
    ∀ rest, Sample.diamondDraft.layout.ExitPath 0 rest →
      EvaluatedIn Sample.diamondDraft.layout "a - b"
        (Sample.diamondDraft.layout.instsAlong rest) := by
  have unambiguous : Unambiguous Sample.diamondDraft.layout := by decide +kernel
  have busy : (solve analysis Sample.diamondDraft.layout 10).toOption.any (fun solution =>
      (solution.exit? 0).any fun s => decide ("a - b" ∈ s.exprs)) = true := by decide +kernel
  obtain ⟨solution, solved, there⟩ := exists_ok_of_any busy
  obtain ⟨s, found, member⟩ := (Option.any_eq_true _ _).mp there
  have built := Draft.build_eq_layout (d := Sample.diamondDraft) (by decide +kernel)
  obtain ⟨solution', visits, found', exact⟩ := solve_busy built unambiguous
  cases Worklist.solve_unique solved (found' visits (le_refl _))
  exact ⟨unambiguous, ((exact.exit 0 s "a - b" found).mp (of_decide_eq_true member)).2⟩

end BusyState

end FlowGraph
