import FlowGraph.Proofs.Trails.Agreement
import FlowGraph.Proofs.Trails.Joined

/-!
# Trails along paths

Along one path trails are followed without meeting other paths.  The solution has joined states
before it goes on, and so it may differ from the paths in two ways.

* Where a store reads a value that is tainted along one path, into a slot that is tainted along
  another, the slot keeps the trails of a path along which it is cleared.
* Where the source is declared and is tainted already along one path, the trail that starts there is
  lost for the others.

Both happen (`trails_differ`), and nothing else goes wrong (`solve_trails`).  If the source is clean
wherever it is declared, every trail of a path is in the solution.  If the paths to every store
agree on its value, every trail of the solution is the trail of a path.
-/

namespace FlowGraph

namespace Trails

variable {settings : Settings} {f : Procedure} {b : BlockId} {id : InstId} {s t : Trails}

/-! ## What the paths say -/

/-- An instruction is reached along a path with these values tainted. -/
def ReachedWith (settings : Settings) (f : Procedure) (id : InstId) (t : TaintSet) : Prop :=
  ∃ before b prior rest u, f.Path before b ∧ f.instsOf b = .ok (prior ++ id :: rest) ∧
    (TaintSet.analysis settings).along f before = .ok u ∧
      prior.foldlM (TaintSet.step settings.taintSource f) u = .ok t

/-- The source is clean wherever it is declared. -/
def DeclaredClean (settings : Settings) (f : Procedure) : Prop :=
  ∀ id t, ReachedWith settings f id t → f.valueName id = .ok settings.taintSource → id ∉ t

/-- The paths to a store agree on its value. -/
def StoresAgree (settings : Settings) (f : Procedure) : Prop :=
  ∀ id t u, ReachedWith settings f id t → ReachedWith settings f id u →
    AgreeAt settings.taintSource f id t u

/-- A trail of a value once some path to a block and the block itself were followed. -/
def Walked (settings : Settings) (f : Procedure) (b : BlockId) (v : InstId) (p : String) : Prop :=
  ∃ before u, f.Path before b ∧ (analysis settings).along f (before ++ [b]) = .ok u ∧
    p ∈ u.textsOf v

/-- A trail of a value at the exit of a block. -/
def Reported (solution : Solution Trails) (b : BlockId) (v : InstId) (p : String) : Prop :=
  ∃ t, solution.exit? b = some t ∧ p ∈ t.textsOf v

theorem along_inside {path : List BlockId} (walked : (analysis settings).along f path = .ok t) :
    t.tainted.Inside f := by
  intro v member
  rw [mem_tainted] at member
  cases path using List.reverseRecOn with
  | nil =>
      cases walked
      simp [analysis] at member
  | append_singleton before b =>
      obtain ⟨_, flow, -, carried, rfl⟩ := Analysis.along_append_eq_ok_iff.mp walked
      obtain ⟨t', across, rfl⟩ := transfer_eq_ok_iff.mp carried
      obtain ⟨_, _, _, -, -, -, erased⟩ := through_eq_ok_iff.mp across
      exact Procedure.lt_of_hasVariable ((mem_eraseRegisters_iff erased).mp member).2

/-- Every instruction of the block where a path arrives is reached along it. -/
theorem exists_reachedWith (closed : f.Closed) {before : List BlockId} {prior rest : List InstId}
    {u : Trails} (path : f.Path before b) (found : f.instsOf b = .ok (prior ++ id :: rest))
    (walked : (analysis settings).along f before = .ok u) :
    ∃ t, prior.foldlM (TaintSet.step settings.taintSource f) u.tainted = .ok t ∧
      ReachedWith settings f id t := by
  have steps : ∀ t, ∀ id ∈ prior, t.Inside f →
      ∃ t', TaintSet.step settings.taintSource f t id = .ok t' ∧ t'.Inside f := by
    intro t id member inside
    obtain ⟨i, there, -⟩ := (closed.owner b _ found id).mp (List.mem_append_left _ member)
    exact TaintSet.step_returns closed (Procedure.inst_eq_ok_iff.mp ⟨i, there⟩) inside
  obtain ⟨t, folded, -⟩ := foldlM_returns steps (along_inside walked)
  exact ⟨t, folded, before, b, prior, rest, u.tainted, path, found,
    along_tainted_iff.mpr ⟨u, walked, rfl⟩, folded⟩

/-- An instruction that only one path reaches is reached with one state. -/
theorem ReachedWith.eq_of_one_path {d : Draft} (built : d.build = .ok f)
    (one : ∀ i, f.inst id = .ok i → ∀ before before', f.Path before i.block →
      f.Path before' i.block → before = before') {t u : TaintSet}
    (first : ReachedWith settings f id t) (second : ReachedWith settings f id u) : t = u := by
  have closed := Procedure.closed_of_build built
  obtain ⟨before, b, prior, rest, t₀, path, found, walked, folded⟩ := first
  obtain ⟨before', b', prior', rest', u₀, path', found', walked', folded'⟩ := second
  have own : ∀ {b prior rest}, f.instsOf b = .ok (prior ++ id :: rest) →
      ∃ i, f.inst id = .ok i ∧ i.block = b := fun found =>
    (closed.owner _ _ found id).mp (List.mem_append_right _ List.mem_cons_self)
  obtain ⟨i, isInst, rfl⟩ := own found
  obtain ⟨i', isInst', rfl⟩ := own found'
  rw [isInst] at isInst'
  cases isInst'
  have nodup := List.nodup_middle.mp (Procedure.nodup_instsOf built found)
  rw [List.nodup_cons, List.mem_append, not_or] at nodup
  rw [found] at found'
  obtain ⟨rfl, -⟩ :=
    (List.append_cons_inj_of_notMem nodup.1.1 nodup.1.2).mp (Except.ok.inj found')
  cases one i isInst before before' path path'
  rw [walked] at walked'
  cases walked'
  rw [folded] at folded'
  exact Except.ok.inj folded'

/-! ## Runs -/

variable {w done : Worklist Trails}

/-- What is recorded is clean where the paths are.  A tainted value has a path along which it is
tainted, and the cause of a value that is tainted later in the block is such a value. -/
theorem clean_of_declaredClean (closed : f.Closed) (clean : DeclaredClean settings f)
    (exact : (analysis settings).Exact f (fun t v => v ∈ t) done.tables)
    (near : done.tables.nearAt .forward b = some s) {before : List BlockId} {u : Trails}
    (path : f.Path before b) (walked : (analysis settings).along f before = .ok u)
    {prior rest : List InstId} {t : TaintSet} (found : f.instsOf b = .ok (prior ++ id :: rest))
    (folded : prior.foldlM (TaintSet.step settings.taintSource f) s.tainted = .ok t)
    (named : f.valueName id = .ok settings.taintSource) : id ∉ t := by
  intro member
  rcases TaintSet.steps_cause folded member with always | ⟨c, cause, because⟩
  · obtain ⟨t', folded', reached⟩ := exists_reachedWith closed path found walked
    exact clean id t' reached named (always _ _ folded')
  · obtain ⟨before', u', route, walked', there⟩ :=
      (exact.near b s c near).mp (mem_tainted.mp cause)
    obtain ⟨t', folded', reached⟩ :=
      exists_reachedWith closed ((Analysis.route_iff_path rfl).mp route) found walked'
    exact clean id t' reached named (because _ _ (mem_tainted.mpr there) folded')

/-- A state has everything that is found along a path. -/
def HasAlong (settings : Settings) (f : Procedure) (path : List BlockId) (s : Trails) : Prop :=
  ∃ u, (analysis settings).along f path = .ok u ∧ Includes s u

theorem HasAlong.of_includes {path : List BlockId} (has : HasAlong settings f path s)
    (larger : Includes t s) : HasAlong settings f path t := by
  obtain ⟨u, walked, includes⟩ := has
  exact ⟨u, walked, (analysis_raises settings).trans includes larger⟩

/-- A block carries a state that has everything along a path to one that has everything along the
longer path, if the source is clean where the block declares it. -/
theorem HasAlong.across (closed : f.Closed) (here : b < f.numBlocks) {before : List BlockId}
    {flow : Flow Trails} (has : HasAlong settings f before s)
    (clean : ∀ prior id rest t, f.instsOf b = .ok (prior ++ id :: rest) →
      prior.foldlM (TaintSet.step settings.taintSource f) s.tainted = .ok t →
      f.valueName id = .ok settings.taintSource → id ∉ t)
    (carried : (analysis settings).transfer f b s = .ok flow) :
    HasAlong settings f (before ++ [b]) flow.state := by
  obtain ⟨u, walked, includes⟩ := has
  obtain ⟨flow', carried', -⟩ :=
    analysis_returns closed settings here (along_inside walked)
  obtain ⟨s', across, rfl⟩ := transfer_eq_ok_iff.mp carried
  obtain ⟨u', across', rfl⟩ := transfer_eq_ok_iff.mp carried'
  exact ⟨u', Analysis.along_append_eq_ok_iff.mpr ⟨u, _, walked, carried', rfl⟩,
    includes.through clean across across'⟩

/-- Every trail of a path is recorded, if the source is clean wherever it is declared. -/
theorem recorded_of_walked (closed : f.Closed) (clean : DeclaredClean settings f)
    (started : Worklist.start (analysis settings) f (.fresh f) = .ok w)
    (ran : Worklist.AnyRun (analysis settings) f w done) (drained : done.pending = [])
    {v : InstId} {p : String} (trail : Walked settings f b v p) :
    ∃ t, done.tables.farAt .forward b = some t ∧ p ∈ t.textsOf v := by
  obtain ⟨before, u, path, walked, member⟩ := trail
  have exact := (analysis_pointwise closed settings).exact closed started ran drained
  have settles := ran.settles (analysis_raises settings) started drained
  have across : ∀ before b s flow, (analysis settings).Route f before b →
      done.tables.nearAt .forward b = some s → HasAlong settings f before s →
      (analysis settings).transfer f b s = .ok flow →
      HasAlong settings f (before ++ [b]) flow.state := by
    intro before b s flow route near has carried
    have ⟨u, walked, _⟩ := has
    refine has.across closed (route.lt closed) ?_ carried
    intro prior id rest t found folded named
    exact clean_of_declaredClean closed clean exact near ((Analysis.route_iff_path rfl).mp route)
      walked found folded named
  obtain ⟨-, far, -, -, atFar, u', walked', includes⟩ := settles.along_route closed
    (fun _ _ _ => analysis_uniform) (fun _ _ _ _ => ⟨_, rfl, (analysis_raises settings).refl _⟩)
    across (fun _ _ _ larger has => has.of_includes larger)
    ((Analysis.route_iff_path rfl).mpr path)
  rw [walked] at walked'
  cases walked'
  exact ⟨far, atFar, includes.trails v p member⟩

/-- The states along some paths. -/
def StatesAlong (settings : Settings) (f : Procedure) (paths : List BlockId → Prop) (u : Trails) :
    Prop :=
  ∃ path, paths path ∧ (analysis settings).along f path = .ok u

/-- A block carries what is made of the states along the routes to it to what is made of the states
along the routes through it. -/
theorem madeOf_across (closed : f.Closed) (agree : StoresAgree settings f) {flow : Flow Trails}
    (made : MadeOf (StatesAlong settings f fun path => (analysis settings).Route f path b) s)
    (carried : (analysis settings).transfer f b s = .ok flow) :
    MadeOf (StatesAlong settings f fun path =>
      ∃ before, (analysis settings).Route f before b ∧ path = before ++ [b]) flow.state := by
  obtain ⟨s', across, rfl⟩ := transfer_eq_ok_iff.mp carried
  refine (made.through closed ?_ ?_ across).of_parts ?_
  · rintro u ⟨path, -, walked⟩
    exact along_inside walked
  · rintro prior id rest u u' t t' found ⟨path, route, walked⟩ ⟨path', route', walked'⟩ folded
      folded'
    refine agree id t t' ?_ ?_
    · exact ⟨path, b, prior, rest, u.tainted, (Analysis.route_iff_path rfl).mp route, found,
        along_tainted_iff.mpr ⟨u, walked, rfl⟩, folded⟩
    · exact ⟨path', b, prior, rest, u'.tainted, (Analysis.route_iff_path rfl).mp route', found,
        along_tainted_iff.mpr ⟨u', walked', rfl⟩, folded'⟩
  · rintro u' ⟨u, ⟨path, route, walked⟩, across'⟩
    exact ⟨path ++ [b], ⟨path, route, rfl⟩, Analysis.along_append_eq_ok_iff.mpr
      ⟨u, .uniform u', walked, transfer_eq_ok_iff.mpr ⟨u', across', rfl⟩, rfl⟩⟩

/-- All states of a run are made of the states along paths, if these agree on every store. -/
theorem preserves_madeOf (closed : f.Closed) (agree : StoresAgree settings f) :
    (analysis settings).Preserves f
      (fun b s => b < f.numBlocks ∧
        MadeOf (StatesAlong settings f fun path => (analysis settings).Route f path b) s)
      (fun b s => MadeOf (StatesAlong settings f fun path =>
        ∃ before, (analysis settings).Route f before b ∧ path = before ++ [b]) s) := by
  refine Analysis.preserves_along_routes (J := fun paths => MadeOf (StatesAlong settings f paths))
    closed (fun _ _ _ => analysis_uniform) ?_ ?_ ?_ ?_
  · intro seeds b found member
    refine ⟨fun v there => ?_, fun v p there => ?_,
      (analysis settings).boundary f, ⟨[], .seed found member, rfl⟩, fun v there => there⟩
    · simp [analysis] at there
    · have tainted := mem_of_mem_textsOf there
      simp [analysis] at tainted
  · intro paths x y left right
    exact left.join right
  · intro b s flow here made carried
    exact madeOf_across closed agree made carried
  · intro paths paths' s all made
    refine made.of_parts ?_
    rintro u ⟨path, isPath, walked⟩
    exact ⟨path, all path isPath, walked⟩

/-- Without a cycle in reach the solution is found.  It has every trail of a path if the source is
clean wherever it is declared, and only these if the paths to every store agree on its value. -/
theorem solve_trails {d : Draft} (built : d.build = .ok f) (acyclic : f.Acyclic)
    (settings : Settings) :
    ∃ solution visits,
      (∀ limit, visits ≤ limit → solve (analysis settings) f limit = .ok solution) ∧
      (DeclaredClean settings f → ∀ b v p, Walked settings f b v p → Reported solution b v p) ∧
      (StoresAgree settings f → ∀ b v p, Reported solution b v p → Walked settings f b v p) := by
  have closed := Procedure.closed_of_build built
  obtain ⟨w, done, started, ran, drained, solved⟩ :=
    (analysis_drains closed acyclic settings).solution
  refine ⟨done.tables.freeze f, done.visits, solved, ?_, ?_⟩
  · intro clean b v p trail
    exact recorded_of_walked closed clean started ran drained trail
  · rintro agree b v p ⟨t, atExit, member⟩
    have made := (ran.holds (preserves_madeOf closed agree) started).far b t atExit
    obtain ⟨u, ⟨_, ⟨before, route, rfl⟩, walked⟩, there⟩ := made.trails v p member
    exact ⟨before, u, (Analysis.route_iff_path rfl).mp route, walked, there⟩

/-- Copies the source to a variable on one side of a branch, and clears it on the other. -/
def branchedCopy : Draft := .ofSteps "main" do
  let entry ← Drafting.block "entry"
  let left ← Drafting.block "left"
  let right ← Drafting.block "right"
  let join ← Drafting.block "join"
  let source ← Drafting.alloca entry "source"
  let x ← Drafting.alloca entry "x"
  let r0 ← Drafting.load entry source
  let c ← Drafting.compare entry .eq (.value r0) (.const 0)
  let _ ← Drafting.branch entry (.value c) left right
  let r1 ← Drafting.load left source
  let _ ← Drafting.store left (.value r1) x
  let _ ← Drafting.jump left join
  let _ ← Drafting.store right (.const 1) x
  let _ ← Drafting.jump right join
  Drafting.other join

/-- The paths of `branchedCopy`, one to each block before the join and two to the join. -/
theorem branchedCopy_paths {before : List BlockId} (path : branchedCopy.layout.Path before b) :
    (before, b) ∈ [([], 0), ([0], 1), ([0], 2), ([0, 1], 3), ([0, 2], 3)] :=
  path.mem_of_steps (by decide) (by decide +kernel)

/-- All its instructions but the last are reached along one path. -/
theorem branchedCopy_one_path (notLast : id < 10) (i : Instruction)
    (found : branchedCopy.layout.inst id = .ok i) (before before' : List BlockId)
    (path : branchedCopy.layout.Path before i.block)
    (path' : branchedCopy.layout.Path before' i.block) : before = before' := by
  have notJoin : ∀ id < 10, (branchedCopy.layout.inst id).toOption.all (·.block ≠ 3) = true := by
    decide +kernel
  have first := branchedCopy_paths path
  have second := branchedCopy_paths path'
  have block := notJoin id notLast
  rw [found] at block
  have block : i.block ≠ 3 := of_decide_eq_true block
  simp only [List.mem_cons, Prod.mk.injEq, List.not_mem_nil, or_false] at first second
  grind

theorem branchedCopy_declaredClean : DeclaredClean .default branchedCopy.layout := by
  intro id t reached named
  have isFirst : ∀ id < 11, branchedCopy.layout.valueName id = .ok "source" → id = 0 := by
    decide +kernel
  obtain ⟨i, found, -⟩ := bind_eq_ok_iff.mp named
  cases isFirst id (Procedure.inst_eq_ok_iff.mp ⟨i, found⟩) named
  have start : ReachedWith .default branchedCopy.layout 0 ∅ :=
    ⟨[], 0, [], _, ∅, .entry, rfl, rfl, rfl⟩
  rw [reached.eq_of_one_path (d := branchedCopy) rfl (branchedCopy_one_path (by decide)) start]
  simp

/-- Whether an operation stores the value of an instruction. -/
def storesValue : Operation → Bool
  | .store (.value _) _ => true
  | _ => false

theorem branchedCopy_storesAgree : StoresAgree .default branchedCopy.layout := by
  intro id t u reached reached' r slot isStore _ _ tainted
  have isCopy : ∀ id < 11,
      (branchedCopy.layout.op id).toOption.any storesValue = true → id = 6 := by
    decide +kernel
  cases isCopy id (Procedure.lt_of_op isStore) (by rw [isStore]; rfl)
  rwa [reached.eq_of_one_path (d := branchedCopy) rfl (branchedCopy_one_path (by decide)) reached']

/-- In `branchedCopy` the solution has exactly the trails of the paths.  At the join the copy has
the trail of the one path along which it is still tainted. -/
theorem solve_trails_branchedCopy : DeclaredClean .default branchedCopy.layout ∧
    StoresAgree .default branchedCopy.layout ∧
    ∃ solution visits, (∀ limit, visits ≤ limit →
        solve (analysis .default) branchedCopy.layout limit = .ok solution) ∧
      (∀ b v p, Reported solution b v p ↔ Walked .default branchedCopy.layout b v p) ∧
      Reported solution 3 1 "entry->left->join" := by
  have built : branchedCopy.build = .ok branchedCopy.layout := rfl
  have acyclic : branchedCopy.layout.Acyclic :=
    Procedure.acyclic_of_successors (by decide +kernel)
  obtain ⟨solution, visits, solved, has, only⟩ := solve_trails built acyclic .default
  have agrees : ∀ b v p, Reported solution b v p ↔ Walked .default branchedCopy.layout b v p :=
    fun b v p => ⟨only branchedCopy_storesAgree b v p, has branchedCopy_declaredClean b v p⟩
  refine ⟨branchedCopy_declaredClean, branchedCopy_storesAgree, solution, visits, solved, agrees,
    (agrees 3 1 _).mpr ?_⟩
  have followed : ((analysis .default).along branchedCopy.layout [0, 1, 3]).toOption.any
      (fun u => "entry->left->join" ∈ u.textsOf 1) = true := by decide +kernel
  obtain ⟨u, walked, member⟩ := exists_ok_of_any followed
  have path : branchedCopy.layout.Path [0, 1] 3 := (Procedure.Path.step .entry rfl
    List.mem_cons_self).step rfl List.mem_cons_self
  exact ⟨[0, 1], u, path, walked, of_decide_eq_true member⟩

/-! ## Trails that differ -/

/-- Copies the source to `x` on one side of a branch and to `y` on the other, and then stores `y` to
`x`. -/
def mixedStores : Draft := .ofSteps "main" do
  let entry ← Drafting.block "entry"
  let left ← Drafting.block "left"
  let right ← Drafting.block "right"
  let join ← Drafting.block "join"
  let source ← Drafting.alloca entry "source"
  let x ← Drafting.alloca entry "x"
  let y ← Drafting.alloca entry "y"
  let r0 ← Drafting.load entry source
  let c ← Drafting.compare entry .eq (.value r0) (.const 0)
  let _ ← Drafting.branch entry (.value c) left right
  let r1 ← Drafting.load left source
  let _ ← Drafting.store left (.value r1) x
  let _ ← Drafting.jump left join
  let r2 ← Drafting.load right source
  let _ ← Drafting.store right (.value r2) y
  let _ ← Drafting.jump right join
  let r3 ← Drafting.load join y
  Drafting.store join (.value r3) x

/-- Stores the source to a second source on one of two ways to its declaration. -/
def storedSource : Draft := .ofSteps "main" do
  let entry ← Drafting.block "entry"
  let left ← Drafting.block "left"
  let join ← Drafting.block "join"
  let source ← Drafting.alloca entry "source"
  let second ← Drafting.alloca join "source"
  let r0 ← Drafting.load entry source
  let c ← Drafting.compare entry .eq (.value r0) (.const 0)
  let _ ← Drafting.branch entry (.value c) join left
  let r1 ← Drafting.load left source
  let _ ← Drafting.store left (.value r1) second
  Drafting.jump left join

/-- What is reported can be looked up. -/
theorem reported_iff {solution : Solution Trails} {v : InstId} {p : String} :
    Reported solution b v p ↔ (solution.exit? b).any (p ∈ ·.textsOf v) = true := by
  simp only [Reported, Option.any_eq_true, decide_eq_true_eq]

/-- A solution may have a trail along which the variable is cleared, and it may miss the trail of a
path. -/
theorem trails_differ :
    (mixedStores.build = .ok mixedStores.layout ∧ mixedStores.layout.Acyclic ∧
      ∃ solution, solve (analysis .default) mixedStores.layout 9 = .ok solution ∧
        Reported solution 3 1 "entry->left->join" ∧
          ¬ Walked .default mixedStores.layout 3 1 "entry->left->join") ∧
    storedSource.build = .ok storedSource.layout ∧ storedSource.layout.Acyclic ∧
      ∃ solution, solve (analysis .default) storedSource.layout 9 = .ok solution ∧
        Walked .default storedSource.layout 2 1 "join" ∧ ¬ Reported solution 2 1 "join" := by
  constructor
  · have reports : (solve (analysis .default) mixedStores.layout 9).toOption.any
        (fun solution => (solution.exit? 3).any ("entry->left->join" ∈ ·.textsOf 1)) = true := by
      decide +kernel
    obtain ⟨solution, solved, reported⟩ := exists_ok_of_any reports
    refine ⟨rfl, Procedure.acyclic_of_successors (by decide +kernel), solution, solved,
      reported_iff.mpr reported, ?_⟩
    rintro ⟨before, u, path, walked, member⟩
    have listed : (before, 3) ∈ [([], 0), ([0], 1), ([0], 2), ([0, 1], 3), ([0, 2], 3)] :=
      path.mem_of_steps (by decide) (by decide +kernel)
    have cleared : ∀ before ∈ [[0, 1], [0, 2]],
        ((analysis .default).along mixedStores.layout (before ++ [3])).toOption.all
          (fun u => "entry->left->join" ∉ u.textsOf 1) = true := by decide +kernel
    have clear := cleared before (by simpa using listed)
    rw [walked] at clear
    exact of_decide_eq_true clear member
  · have misses : (solve (analysis .default) storedSource.layout 9).toOption.any
        (fun solution => !(solution.exit? 2).any ("join" ∈ ·.textsOf 1)) = true := by
      decide +kernel
    obtain ⟨solution, solved, missed⟩ := exists_ok_of_any misses
    refine ⟨rfl, Procedure.acyclic_of_successors (by decide +kernel), solution, solved, ?_, ?_⟩
    · have followed : ((analysis .default).along storedSource.layout [0, 2]).toOption.any
          (fun u => "join" ∈ u.textsOf 1) = true := by decide +kernel
      obtain ⟨u, walked, member⟩ := exists_ok_of_any followed
      exact ⟨[0], u, .step .entry rfl List.mem_cons_self, walked, of_decide_eq_true member⟩
    · rw [reported_iff]
      simpa using missed

end Trails

end FlowGraph
