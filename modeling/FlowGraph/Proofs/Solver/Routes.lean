import FlowGraph.Proofs.Solver.Invariants

/-!
# Exact solutions along routes

A route starts at a seed and follows the edges in the direction of a problem.  Carrying the boundary
state across the blocks of a route, one after the other and without meeting other routes, gives the
state along the route (`along`).

A problem is pointwise if its states can be read as sets of facts such that combining two states
unites their facts, and every fact after a block has at most one cause before it (`Pointwise`).
Then a drained run is exact (`Pointwise.exact`).  A block has states exactly if a route arrives
there, and these have exactly the facts that hold along some route.  Around a loop there are
infinitely many routes.

A fact may also be that something is absent.  So this covers what holds along some route as well as
what holds along all routes.
-/

namespace FlowGraph

variable {σ α : Type}

namespace Analysis

/-! ## Routes -/

/-- Where the states of a block move next. -/
def Next (A : Analysis σ) (f : Procedure) (b c : BlockId) : Prop :=
  match A.direction with
  | .forward => f.Edge b c
  | .backward => f.Edge c b

/-- A route from a seed: the blocks before, and the block where it arrives. -/
inductive Route (A : Analysis σ) (f : Procedure) : List BlockId → BlockId → Prop where
  | seed {seeds : List BlockId} {b : BlockId} :
      A.seeds f = .ok seeds → b ∈ seeds → Route A f [] b
  | step {before : List BlockId} {b next : BlockId} :
      Route A f before b → A.Next f b next → Route A f (before ++ [b]) next

/-- The state once the boundary state was carried across some blocks in order. -/
def along (A : Analysis σ) (f : Procedure) (path : List BlockId) : Except Fault σ :=
  path.foldlM (fun s b => return (← A.transfer f b s).state) (A.boundary f)

variable {A : Analysis σ} {f : Procedure}

theorem Next.lt (closed : f.Closed) {b c : BlockId} (moves : A.Next f b c) : c < f.numBlocks := by
  unfold Next at moves
  split at moves
  next => exact closed.edge_lt moves
  next => exact moves.lt

theorem Route.lt (closed : f.Closed) {before : List BlockId} {b : BlockId}
    (route : A.Route f before b) : b < f.numBlocks := by
  cases route with
  | seed found member =>
      obtain ⟨seeds, found', inside⟩ := A.seeds_of_closed closed
      rw [found] at found'
      cases found'
      exact inside b member
  | step _ moves => exact moves.lt closed

theorem along_append_eq_ok_iff {before : List BlockId} {b : BlockId} {u : σ} :
    A.along f (before ++ [b]) = .ok u ↔
      ∃ t flow, A.along f before = .ok t ∧ A.transfer f b t = .ok flow ∧ flow.state = u := by
  simp only [along, List.foldlM_append, bind_eq_ok_iff, List.foldlM_cons, List.foldlM_nil,
    pure_eq_ok_iff]
  constructor
  · rintro ⟨t, before, -, ⟨flow, carried, rfl⟩, rfl⟩
    exact ⟨t, flow, before, carried, rfl⟩
  · rintro ⟨t, flow, before, carried, rfl⟩
    exact ⟨t, before, _, ⟨flow, carried, rfl⟩, rfl⟩

/-- Forward, the routes are the paths from the entry. -/
theorem route_iff_path (forward : A.direction = .forward) {before : List BlockId} {b : BlockId} :
    A.Route f before b ↔ f.Path before b := by
  constructor
  · intro route
    induction route with
    | @seed seeds b found member =>
        simp only [Analysis.seeds, forward] at found
        cases found
        rw [List.mem_singleton.mp member]
        exact .entry
    | step route moves ih =>
        simp only [Next, forward] at moves
        obtain ⟨succs, found, member⟩ := moves
        exact ih.step found member
  · intro path
    induction path with
    | entry => exact .seed (by rw [seeds, forward]) List.mem_cons_self
    | step path found member ih =>
        refine ih.step ?_
        simp only [Next, forward]
        exact ⟨_, found, member⟩

/-- A uniform flow sends the far state, and it sends it to where states move next. -/
theorem sends_uniform_iff (closed : f.Closed) {b dest : BlockId} {state far x : σ}
    (inside : b < f.numBlocks) :
    A.Sends f b (.uniform state) far dest x ↔ x = far ∧ A.Next f b dest := by
  obtain ⟨preds, before, members⟩ := closed.preds b inside
  unfold Next
  constructor
  · intro sends
    cases sends with
    | along forward _ found member => rw [forward]; exact ⟨rfl, _, found, member⟩
    | listed _ split => cases split
    | against backward found member =>
        rw [before] at found
        cases found
        rw [backward]
        exact ⟨rfl, (members dest).mp member⟩
  · rintro ⟨rfl, next⟩
    cases direction : A.direction with
    | forward =>
        rw [direction] at next
        obtain ⟨succs, found, member⟩ := next
        exact .along direction rfl found member
    | backward =>
        rw [direction] at next
        exact .against direction before ((members dest).mpr next)

/-! ## What is carried along routes -/

/-- A property of paths and states holds of what is recorded along every route, if it holds of the
boundary, every block carries it across, and larger states keep it. -/
theorem Settles.along_route {le : σ → σ → Prop} {t : Tables σ} {P : List BlockId → σ → Prop}
    (closed : f.Closed) (settles : A.Settles f le t)
    (uniform : ∀ b s flow, A.transfer f b s = .ok flow → flow = .uniform flow.state)
    (start : ∀ seeds b, A.seeds f = .ok seeds → b ∈ seeds → P [] (A.boundary f))
    (across : ∀ before b s flow, A.Route f before b → t.nearAt A.direction b = some s →
      P before s → A.transfer f b s = .ok flow → P (before ++ [b]) flow.state)
    (larger : ∀ path x y, le x y → P path x → P path y) {before : List BlockId} {b : BlockId}
    (route : A.Route f before b) : ∃ s far, t.nearAt A.direction b = some s ∧ P before s ∧
      t.farAt A.direction b = some far ∧ P (before ++ [b]) far := by
  suffices near : ∃ s, t.nearAt A.direction b = some s ∧ P before s by
    obtain ⟨s, atNear, holds⟩ := near
    obtain ⟨flow, far, carried, atFar, below, -⟩ := settles.block b s atNear
    exact ⟨s, far, atNear, holds, atFar,
      larger _ _ far below (across before b s flow route atNear holds carried)⟩
  induction route with
  | @seed seeds b found member =>
      obtain ⟨seeds', found', seeded⟩ := settles.seed
      rw [found] at found'
      cases found'
      obtain ⟨s, atNear, below⟩ := seeded b member
      exact ⟨s, atNear, larger [] _ s below (start seeds b found member)⟩
  | @step before b next route moves ih =>
      obtain ⟨s, atNear, holds⟩ := ih
      obtain ⟨flow, far, carried, -, below, sent⟩ := settles.block b s atNear
      have sends : A.Sends f b flow far next far := by
        rw [uniform b s flow carried]
        exact (sends_uniform_iff closed (route.lt closed)).mpr ⟨rfl, moves⟩
      obtain ⟨s', atNear', below'⟩ := sent next far sends
      have atFar := larger _ _ far below (across before b s flow route atNear holds carried)
      exact ⟨s', atNear', larger _ far s' below' atFar⟩

/-- A property of sets of paths and states is kept by every part of a visit, where the paths are the
routes to the block at its near end and the routes through it at its far end. -/
theorem preserves_along_routes {J : (List BlockId → Prop) → σ → Prop} (closed : f.Closed)
    (uniform : ∀ b s flow, A.transfer f b s = .ok flow → flow = .uniform flow.state)
    (seed : ∀ seeds b, A.seeds f = .ok seeds → b ∈ seeds →
      J (fun path => A.Route f path b) (A.boundary f))
    (combine : ∀ paths x y, J paths x → J paths y → J paths (A.combine x y))
    (across : ∀ b s flow, b < f.numBlocks → J (fun path => A.Route f path b) s →
      A.transfer f b s = .ok flow →
      J (fun path => ∃ before, A.Route f before b ∧ path = before ++ [b]) flow.state)
    (more : ∀ paths paths' s, (∀ path, paths path → paths' path) → J paths s → J paths' s) :
    A.Preserves f (fun b s => b < f.numBlocks ∧ J (fun path => A.Route f path b) s)
      (fun b s => J (fun path => ∃ before, A.Route f before b ∧ path = before ++ [b]) s) where
  seed seeds found b member :=
    ⟨(Route.seed found member).lt closed, seed seeds b found member⟩
  near b x y left right := ⟨left.1, combine _ x y left.2 right.2⟩
  far b x y left right := combine _ x y left right
  across b s flow justified carried := across b s flow justified.1 justified.2 carried
  sends b s flow far dest x justified carried atFar sends := by
    rw [uniform b s flow carried] at sends
    obtain ⟨rfl, moves⟩ := (sends_uniform_iff closed justified.1).mp sends
    refine ⟨moves.lt closed, more _ _ x ?_ atFar⟩
    rintro _ ⟨before, route, rfl⟩
    exact route.step moves

/-! ## Pointwise problems -/

/-- States are sets of facts.  Combining unites them, and every fact after a block is there whatever
comes in, or because of one fact that came in. -/
structure Pointwise (A : Analysis σ) (f : Procedure) (Good : σ → Prop) (has : σ → α → Prop) :
    Prop where
  keeps : A.Preserves f (fun b s => b < f.numBlocks ∧ Good s) (fun _ s => Good s)
  returns : ∀ b s, b < f.numBlocks → Good s → ∃ flow, A.transfer f b s = .ok flow
  uniform : ∀ b s flow, A.transfer f b s = .ok flow → flow = .uniform flow.state
  combine : ∀ x y a, has (A.combine x y) a ↔ has x a ∨ has y a
  cause : ∀ b s flow a, Good s → A.transfer f b s = .ok flow → has flow.state a →
    (∀ t flow', Good t → A.transfer f b t = .ok flow' → has flow'.state a) ∨
      ∃ c, has s c ∧
        ∀ t flow', Good t → has t c → A.transfer f b t = .ok flow' → has flow'.state a

/-- The tables have exactly the facts that hold along some route. -/
structure Exact (A : Analysis σ) (f : Procedure) (has : σ → α → Prop) (t : Tables σ) : Prop where
  near_none : ∀ b, t.nearAt A.direction b = none ↔ ¬ ∃ before, A.Route f before b
  far_none : ∀ b, t.farAt A.direction b = none ↔ ¬ ∃ before, A.Route f before b
  near : ∀ b s a, t.nearAt A.direction b = some s →
    (has s a ↔ ∃ before u, A.Route f before b ∧ A.along f before = .ok u ∧ has u a)
  far : ∀ b s a, t.farAt A.direction b = some s →
    (has s a ↔ ∃ before u, A.Route f before b ∧ A.along f (before ++ [b]) = .ok u ∧ has u a)

/-- A state is justified by some paths if one of them can be walked, and each of its facts holds
along one of them. -/
structure Justified (A : Analysis σ) (f : Procedure) (Good : σ → Prop) (has : σ → α → Prop)
    (paths : List BlockId → Prop) (s : σ) : Prop where
  good : Good s
  walked : ∃ path u, paths path ∧ A.along f path = .ok u ∧ Good u
  facts : ∀ a, has s a → ∃ path u, paths path ∧ A.along f path = .ok u ∧ Good u ∧ has u a

theorem Justified.of_paths {Good : σ → Prop} {has : σ → α → Prop}
    {paths paths' : List BlockId → Prop} {s : σ} (justified : A.Justified f Good has paths s)
    (more : ∀ path, paths path → paths' path) :
    A.Justified f Good has paths' s where
  good := justified.good
  walked := by
    obtain ⟨path, u, isPath, walked⟩ := justified.walked
    exact ⟨path, u, more path isPath, walked⟩
  facts a held := by
    obtain ⟨path, u, isPath, walked⟩ := justified.facts a held
    exact ⟨path, u, more path isPath, walked⟩

namespace Pointwise

variable {Good : σ → Prop} {has : σ → α → Prop} (pointwise : A.Pointwise f Good has)
include pointwise

theorem raises : A.Raises fun x y => ∀ a, has x a → has y a where
  refl _ _ held := held
  trans first second a held := second a (first a held)
  left x y a held := (pointwise.combine x y a).mpr (.inl held)
  right x y a held := (pointwise.combine x y a).mpr (.inr held)

/-- More facts before a block give more facts after it. -/
theorem mono {b : BlockId} {s t : σ} {flow flow' : Flow σ} (goodS : Good s) (goodT : Good t)
    (more : ∀ a, has s a → has t a) (carried : A.transfer f b s = .ok flow)
    (carried' : A.transfer f b t = .ok flow') : ∀ a, has flow.state a → has flow'.state a := by
  intro a held
  rcases pointwise.cause b s flow a goodS carried held with always | ⟨c, before, because⟩
  · exact always t flow' goodT carried'
  · exact because t flow' goodT (more c before) carried'

/-! ## Every fact along a route is recorded -/

/-- What holds along a route is recorded where it arrives and behind it. -/
theorem recorded (closed : f.Closed) {t : Tables σ}
    (settles : A.Settles f (fun x y => ∀ a, has x a → has y a) t)
    (good : ∀ b s, t.nearAt A.direction b = some s → Good s) {before : List BlockId} {b : BlockId}
    (route : A.Route f before b) : ∃ s far, t.nearAt A.direction b = some s ∧
      (∃ u, A.along f before = .ok u ∧ Good u ∧ ∀ a, has u a → has s a) ∧
      t.farAt A.direction b = some far ∧
      ∃ v, A.along f (before ++ [b]) = .ok v ∧ Good v ∧ ∀ a, has v a → has far a := by
  refine settles.along_route closed
    (P := fun path s => ∃ u, A.along f path = .ok u ∧ Good u ∧ ∀ a, has u a → has s a)
    pointwise.uniform ?_ ?_ ?_ route
  · intro seeds b found member
    exact ⟨A.boundary f, rfl, (pointwise.keeps.seed seeds found b member).2, fun _ held => held⟩
  · rintro before b s flow route near ⟨u, walked, goodU, held⟩ carried
    obtain ⟨flow', carried'⟩ := pointwise.returns b u (route.lt closed) goodU
    exact ⟨flow'.state, along_append_eq_ok_iff.mpr ⟨u, flow', walked, carried', rfl⟩,
      pointwise.keeps.across b u flow' ⟨route.lt closed, goodU⟩ carried',
      pointwise.mono goodU (good b s near) held carried' carried⟩
  · rintro path x y below ⟨u, walked, goodU, held⟩
    exact ⟨u, walked, goodU, fun a there => below a (held a there)⟩

/-! ## Every recorded fact holds along a route -/

theorem justified_combine {paths : List BlockId → Prop} {x y : σ}
    (good : Good x → Good y → Good (A.combine x y)) (left : A.Justified f Good has paths x)
    (right : A.Justified f Good has paths y) :
    A.Justified f Good has paths (A.combine x y) where
  good := good left.good right.good
  walked := left.walked
  facts a held := ((pointwise.combine x y a).mp held).elim (left.facts a) (right.facts a)

/-- A block carries a justified state to one that is justified by the longer paths.  A fact with a
cause holds along the path of its cause, and one without holds along any path. -/
theorem justified_across {paths : List BlockId → Prop} {b : BlockId} {s : σ} {flow : Flow σ}
    (inside : b < f.numBlocks) (justified : A.Justified f Good has paths s)
    (carried : A.transfer f b s = .ok flow) :
    A.Justified f Good has (fun path => ∃ before, paths before ∧ path = before ++ [b])
      flow.state := by
  have extend : ∀ {path u}, paths path → A.along f path = .ok u → Good u → ∃ flow',
      A.transfer f b u = .ok flow' ∧ A.along f (path ++ [b]) = .ok flow'.state ∧
        Good flow'.state := by
    intro path u isPath walked goodU
    obtain ⟨flow', carried'⟩ := pointwise.returns b u inside goodU
    exact ⟨flow', carried', along_append_eq_ok_iff.mpr ⟨u, flow', walked, carried', rfl⟩,
      pointwise.keeps.across b u flow' ⟨inside, goodU⟩ carried'⟩
  obtain ⟨path, u, isPath, walked, goodU⟩ := justified.walked
  obtain ⟨flow', carried', walked', goodV⟩ := extend isPath walked goodU
  refine ⟨pointwise.keeps.across b s flow ⟨inside, justified.good⟩ carried,
    ⟨path ++ [b], flow'.state, ⟨path, isPath, rfl⟩, walked', goodV⟩, fun a held => ?_⟩
  rcases pointwise.cause b s flow a justified.good carried held with always | ⟨c, cause, because⟩
  · exact ⟨path ++ [b], flow'.state, ⟨path, isPath, rfl⟩, walked', goodV,
      always u flow' goodU carried'⟩
  · obtain ⟨path, u, isPath, walked, goodU, held⟩ := justified.facts c cause
    obtain ⟨flow', carried', walked', goodV⟩ := extend isPath walked goodU
    exact ⟨path ++ [b], flow'.state, ⟨path, isPath, rfl⟩, walked', goodV,
      because u flow' goodU held carried'⟩

theorem preserves_justified (closed : f.Closed) :
    A.Preserves f
      (fun b s => b < f.numBlocks ∧ A.Justified f Good has (fun path => A.Route f path b) s)
      (fun b s => A.Justified f Good has
        (fun path => ∃ before, A.Route f before b ∧ path = before ++ [b]) s) := by
  refine preserves_along_routes closed pointwise.uniform ?_ ?_ ?_ ?_
  · intro seeds b found member
    have good := (pointwise.keeps.seed seeds found b member).2
    have route : A.Route f [] b := .seed found member
    exact ⟨good, ⟨[], A.boundary f, route, rfl, good⟩,
      fun a held => ⟨[], A.boundary f, route, rfl, good, held⟩⟩
  · intro paths x y left right
    exact pointwise.justified_combine (pointwise.keeps.far 0 x y) left right
  · intro b s flow inside justified carried
    exact pointwise.justified_across inside justified carried
  · intro paths paths' s all justified
    exact justified.of_paths all

/-! ## Exactness -/

variable [DecidableEq σ]

/-- A drained run of a pointwise problem has exactly the facts that hold along some route. -/
theorem exact (closed : f.Closed) {w done : Worklist σ}
    (started : Worklist.start A f (.fresh f) = .ok w) (ran : Worklist.AnyRun A f w done)
    (drained : done.pending = []) : A.Exact f has done.tables := by
  have settles := ran.settles pointwise.raises started drained
  have holds := ran.holds (pointwise.preserves_justified closed) started
  have good : ∀ b s, done.tables.nearAt A.direction b = some s → Good s :=
    fun b s near => (holds.near b s near).2.good
  have arrives {before : List BlockId} {b : BlockId} (route : A.Route f before b) :=
    pointwise.recorded closed settles good route
  refine ⟨fun b => ?_, fun b => ?_, fun b s a near => ?_, fun b s a far => ?_⟩
  · constructor
    · rintro missing ⟨before, route⟩
      obtain ⟨s, far, near, -⟩ := arrives route
      rw [missing] at near
      cases near
    · intro unreached
      cases near : done.tables.nearAt A.direction b with
      | none => rfl
      | some s =>
          obtain ⟨path, u, route, -⟩ := (holds.near b s near).2.walked
          exact absurd ⟨path, route⟩ unreached
  · constructor
    · rintro missing ⟨before, route⟩
      obtain ⟨s, far, -, -, atFar, -⟩ := arrives route
      rw [missing] at atFar
      cases atFar
    · intro unreached
      cases far : done.tables.farAt A.direction b with
      | none => rfl
      | some s =>
          obtain ⟨path, u, ⟨before, route, -⟩, -⟩ := (holds.far b s far).walked
          exact absurd ⟨before, route⟩ unreached
  · constructor
    · intro held
      obtain ⟨path, u, route, walked, -, held⟩ := (holds.near b s near).2.facts a held
      exact ⟨path, u, route, walked, held⟩
    · rintro ⟨before, u, route, walked, held⟩
      obtain ⟨s', far, near', ⟨u', walked', -, recorded⟩, -⟩ := arrives route
      rw [near] at near'
      rw [walked] at walked'
      cases near'
      cases walked'
      exact recorded a held
  · constructor
    · intro held
      obtain ⟨path, u, ⟨before, route, rfl⟩, walked, -, held⟩ := (holds.far b s far).facts a held
      exact ⟨before, u, route, walked, held⟩
    · rintro ⟨before, u, route, walked, held⟩
      obtain ⟨s', far', -, -, far'', v, walked', -, recorded⟩ := arrives route
      rw [far] at far''
      rw [walked] at walked'
      cases far''
      cases walked'
      exact recorded a held

end Pointwise

end Analysis

end FlowGraph
