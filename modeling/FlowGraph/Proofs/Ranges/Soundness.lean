import FlowGraph.Proofs.Ranges.Transfer
import FlowGraph.Proofs.Solver.Equations

/-!
# The ranges of a solution hold in every execution

Whenever an execution enters a block, the contents of the slots are members of the intervals that
the solution has at the entry of the block, and whenever it has run all instructions of a block,
of those at the exit (`solve_sound`).

The proof follows an execution step by step.  At every point of a block the solution has ranges at
its entry, and the ranges read from there up to the point describe the memory (`Follows`).  At the
end of a block, the edge that is taken has ranges that cover the slots, and since the tables solve
the equations, so does the entry of the next block.
-/

namespace FlowGraph

namespace Ranges

variable {f : Procedure} {b : BlockId}

/-- Where a machine goes at the end of a block, the block sends ranges that cover its slots. -/
theorem Tracks.leaves {d : Draft} {settings : Settings} (built : d.build = .ok f)
    {done : List InstId} {p : Progress} {m : Memory} (tracks : Tracks f b done p m)
    {after far : Ranges} (covers : after.Covers m.slots) (farCovers : far.Covers m.slots)
    {op : Operation} {handled : List Int} {dest : BlockId}
    (leaves : f.terminator b = .ok (some op)) (goes : m.Leaves f op handled dest) :
    ∃ x, (analysis settings).Sends f b (p.flow after (some op)) far dest x ∧
      x.Covers m.slots := by
  have along : dest ∈ op.targets → p.flow after (some op) = .uniform after →
      (analysis settings).Sends f b (p.flow after (some op)) far dest far := by
    intro target uniform
    obtain ⟨succs, found, member⟩ := Procedure.target_mem_successors built leaves target
    exact .along rfl uniform found member
  cases goes with
  | jump => exact ⟨far, along (by simp [Operation.targets]) rfl, farCovers⟩
  | @number cond onTrue onFalse n read =>
      cases cond with
      | const k =>
          cases read
          exact ⟨after, .listed rfl rfl List.mem_cons_self, covers⟩
      | value c =>
          -- an integer is not the result of a comparison, so nothing is known of the outcome
          have notCompare : f.isCompare c = false := by
            rcases Memory.read?_value read with ⟨isVariable, -⟩ | ⟨-, made⟩
            · rw [Procedure.hasVariable_iff] at isVariable
              simp [Procedure.isCompare, isVariable]
            · exact (tracks.made c _ made).2.2
          have unknown : p.outcomes[c]? = none := by
            cases found : p.outcomes[c]? with
            | none => rfl
            | some o =>
                rw [tracks.outcomes c o found] at notCompare
                cases notCompare
          refine ⟨far, along ?_ (by simp [Progress.flow, unknown]), farCovers⟩
          split <;> simp [Operation.targets]
  | @flag c onTrue onFalse holds made =>
      have decides := Procedure.compare_mem_deciders leaves (tracks.made c _ made).2.2
      obtain ⟨o, t, found, taken, covers⟩ := tracks.decided c holds made decides
      have split : p.flow after (some (.branch (.value c) onTrue onFalse)) =
          .split after (o.edges onTrue onFalse) := by
        simp only [Progress.flow, found]
      refine ⟨t, .listed rfl split ?_, covers⟩
      cases holds with
      | true => exact List.mem_append_left _ (by rw [show o.onTrue = some t from taken]; simp)
      | false => exact List.mem_append_right _ (by rw [show o.onFalse = some t from taken]; simp)

/-- The machine is where the ranges of the tables, read up to there, describe its memory. -/
structure Follows (settings : Settings) (f : Procedure) (t : Tables Ranges) (c : Machine)
    (s : Ranges) (done : List InstId) (p : Progress) : Prop where
  near : t.nearAt .forward c.block = some s
  here : f.instsOf c.block = .ok (done ++ c.todo)
  read : done.foldlM (step settings.window f) ⟨s, ∅⟩ = .ok p
  tracks : Tracks f c.block done p c.memory

variable {settings : Settings} {t : Tables Ranges}

theorem Follows.enter {x : Ranges} {dest : BlockId} {ids : List InstId} {m : Memory}
    (covers : x.Covers m.slots)
    (declared : ∀ v n, m.slots v = some n → f.hasVariable v = true)
    (arrives : (analysis settings).Below? (some x) (t.nearAt .forward dest))
    (there : f.instsOf dest = .ok ids) :
    ∃ s done p, Follows settings f t ⟨dest, ids, m.forgetRegs⟩ s done p := by
  obtain ⟨s, near, below⟩ := Analysis.exists_of_below? arrives
  exact ⟨s, [], ⟨s, ∅⟩, near, there, rfl, .enter (covers.of_below below) declared⟩

/-- A machine stays where the ranges of a solution describe its memory. -/
theorem Follows.step {d : Draft} (built : d.build = .ok f) (steady : f.Steady)
    (solves : (analysis settings).Solves f t) {c c' : Machine} {handled : List Int} {s : Ranges}
    {done : List InstId} {p : Progress} (follows : Follows settings f t c s done p)
    (stepped : Machine.Step f c handled c')
    (admitted : ∀ v ∈ handled, settings.window.Admits v) :
    ∃ s done p, Follows settings f t c' s done p := by
  obtain ⟨flow, far, carried, atFar, below, sent⟩ := solves.block _ s follows.near
  obtain ⟨ids, q, after, leaving, here, readAll, erased, leaves, rfl⟩ := through_eq_ok carried
  rw [follows.here] at here
  cases here
  cases stepped with
  | @run b id rest m m' handled ran =>
      rw [List.foldlM_append, bind_eq_ok_iff] at readAll
      obtain ⟨p₁, before, readRest⟩ := readAll
      rw [follows.read] at before
      cases before
      rw [List.foldlM_cons, bind_eq_ok_iff] at readRest
      obtain ⟨p', readHere, -⟩ := readRest
      refine ⟨s, done ++ [id], p', follows.near, ?_, ?_, ?_⟩
      · rw [List.append_assoc]
        exact follows.here
      · rw [List.foldlM_append, bind_eq_ok_iff]
        exact ⟨p, follows.read, by rw [List.foldlM_cons, readHere]; rfl⟩
      · exact follows.tracks.runs built steady follows.here ran admitted readHere
  | @leave b dest op ids m handled isOp goes there =>
      rw [List.append_nil, follows.read] at readAll
      cases readAll
      rw [isOp] at leaves
      cases leaves
      rw [Progress.state_flow] at below
      have covers := follows.tracks.slots.eraseRegisters follows.tracks.declared erased
      obtain ⟨x, sends, arrives⟩ :=
        follows.tracks.leaves built covers (covers.of_below below) isOp goes
      exact Follows.enter arrives follows.tracks.declared (sent dest x sends) there

theorem follows_of_reaches {d : Draft} (built : d.build = .ok f) (steady : f.Steady)
    (solves : (analysis settings).Solves f t) {c : Machine} {handled : List Int}
    (reached : Machine.Reaches f handled c)
    (admitted : ∀ v ∈ handled, settings.window.Admits v) :
    ∃ s done p, Follows settings f t c s done p := by
  induction reached with
  | start here =>
      obtain ⟨seeds, found, seeded⟩ := solves.seed
      cases found
      exact Follows.enter (m := .blank) (fun v n content => by cases content)
        (fun v n content => by cases content) (seeded f.entry List.mem_cons_self) here
  | step reached stepped ih =>
      obtain ⟨s, done, p, follows⟩ := ih fun v member => admitted v (List.mem_append_left _ member)
      exact follows.step built steady solves stepped fun v member =>
        admitted v (List.mem_append_right _ member)

/-- In a built procedure whose branches see the slots as they are, a solution covers every
execution that handles only integers that the window admits: the slots at the entry of each block
that it enters, and the slots at the exit of each block that it has run. -/
theorem solve_sound {d : Draft} {limit : Nat} {solution : Solution Ranges} {handled : List Int}
    {c : Machine} (built : d.build = .ok f) (steady : f.Steady)
    (solved : solve (analysis settings) f limit = .ok solution)
    (reached : Machine.Reaches f handled c)
    (admitted : ∀ v ∈ handled, settings.window.Admits v) :
    (f.instsOf c.block = .ok c.todo →
        ∃ s, solution.entry? c.block = some s ∧ s.Covers c.memory.slots) ∧
      (c.todo = [] → ∃ s, solution.exit? c.block = some s ∧ s.Covers c.memory.slots) := by
  have solves := solve_tables_solves (analysis_isJoin settings) solved
  obtain ⟨s, done, p, follows⟩ := follows_of_reaches built steady solves reached admitted
  constructor
  · intro atEntry
    have none : done = [] := by
      rw [follows.here] at atEntry
      exact List.append_left_eq_self.mp (Except.ok.inj atEntry)
    subst none
    cases follows.read
    exact ⟨s, follows.near, follows.tracks.slots⟩
  · intro atExit
    obtain ⟨flow, far, carried, atFar, below, -⟩ := solves.block _ s follows.near
    obtain ⟨ids, q, after, leaving, here, readAll, erased, -, rfl⟩ := through_eq_ok carried
    rw [follows.here, atExit, List.append_nil] at here
    cases here
    rw [follows.read] at readAll
    cases readAll
    rw [Progress.state_flow] at below
    have covers := follows.tracks.slots.eraseRegisters follows.tracks.declared erased
    exact ⟨far, atFar, covers.of_below below⟩

open Drafting in
/-- Branches on the sign of a variable. -/
def signDraft : Draft := .ofSteps "sign" do
  let entry ← block "entry"
  let positive ← block "positive"
  let rest ← block "rest"
  let x ← alloca entry "x"
  let r ← load entry x
  let c ← compare entry .sgt (.value r) (.const 0)
  let _ ← branch entry (.value c) positive rest
  other positive

/-- An execution that finds three in the variable enters the block for positive integers. -/
theorem solve_sound_sign : ∃ solution s,
    solve (analysis .default) signDraft.layout 5 = .ok solution ∧ solution.entry? 1 = some s ∧
      .fin 3 ∈ s.rangeOf 0 := by
  have returns : (solve (analysis .default) signDraft.layout 5).toOption.isSome = true := by
    decide +kernel
  cases solved : solve (analysis .default) signDraft.layout 5 with
  | error fault =>
      rw [solved] at returns
      cases returns
  | ok solution =>
      have atCompare := ((Machine.Reaches.start (f := signDraft.layout) rfl).step
        (.run (.alloca (n := 3) rfl))).step (.run (.load rfl rfl))
      have entered := ((atCompare.step (.run (.compare rfl rfl rfl))).step
        (.run (.branch rfl))).step (.leave rfl (.flag rfl) rfl)
      have sound := solve_sound (d := signDraft) rfl (by decide +kernel) solved entered (by decide)
      obtain ⟨s, found, covers⟩ := sound.1 rfl
      exact ⟨solution, s, rfl, found, covers 0 3 rfl⟩

end Ranges

end FlowGraph
