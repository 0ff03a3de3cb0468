import FlowGraph.Demo.Sample
import FlowGraph.Proofs.Busy.Termination
import FlowGraph.Proofs.Ranges.Termination
import FlowGraph.Proofs.Report
import FlowGraph.Proofs.Solver.Configurations
import FlowGraph.Proofs.Trails.Termination

/-!
# What holds throughout a run

Between blocks, states speak of variables only.  The registers of a block are erased at its end,
and what busy expressions read was loaded from variables.  So every id in a recorded or pending
state names an instruction, and nothing that runs, separations and reports look up is missing
(`analyses_in_bounds`).  This holds for runs without end too, in each configuration they go through.

The intervals of these states have their ends in the window or at infinity
(`occurs_in_window`).
-/

namespace FlowGraph

open Worklist (Occurs InBounds Shows)

variable {d : Draft} {f : Procedure}

/-! ## Lookups -/

theorem TaintSet.analysis_inBounds (closed : f.Closed) (settings : Settings) :
    InBounds (analysis settings) f (fun t v => v ∈ t) := by
  refine Worklist.inBounds_of_good closed (analysis_preserves_variables closed settings) ?_
    fun t v only => only v
  intro b t here only
  obtain ⟨flow, carried⟩ := analysis_returns closed settings here only.inside
  exact .ok carried

theorem Trails.analysis_inBounds (closed : f.Closed) (settings : Settings) :
    InBounds (analysis settings) f (fun t v => v ∈ t) := by
  refine Worklist.inBounds_of_good closed (analysis_preserves_variables closed settings) ?_
    fun t v only member => only v (mem_tainted.mpr member)
  intro b t here only
  obtain ⟨flow, carried, -⟩ := analysis_returns closed settings here only.inside
  exact .ok carried

theorem BusyState.analysis_inBounds (closed : f.Closed) :
    InBounds analysis f (fun s v => v ∈ s.byVar) := by
  refine Worklist.inBounds_of_good closed (analysis_bounded closed).keeps ?_ ?_
  · intro b s here _
    obtain ⟨ids, -, carried⟩ := transfer_returns closed here s
    exact .ok carried
  · intro s v within member
    exact (within.byVar v _ (Std.ExtTreeMap.getElem?_eq_some_getElem member)).1

theorem Ranges.analysis_inBounds (closed : f.Closed) (settings : Settings) :
    InBounds (analysis settings) f (fun s v => v ∈ s) := by
  refine Worklist.inBounds_of_good closed (analysis_preserves closed settings) ?_ ?_
  · intro b s here seen
    exact through_inRange closed here seen
  · intro s v seen member
    exact (seen v _ (Std.ExtTreeMap.getElem?_eq_some_getElem member)).1

/-- On every built procedure, with any settings, all runs of the four problems look up only what is
there.  So do separations and the five reports, whatever configuration they are asked about, and
the texts of blocks and instructions. -/
theorem analyses_in_bounds (built : d.build = .ok f) (settings : Settings) :
    (InBounds (TaintSet.analysis settings) f (fun t v => v ∈ t) ∧
      Shows (TaintSet.analysis settings) f (Report.taint f)) ∧
    (InBounds (Trails.analysis settings) f (fun t v => v ∈ t) ∧
      Shows (Trails.analysis settings) f (Report.trails f)) ∧
    (InBounds BusyState.analysis f (fun s v => v ∈ s.byVar) ∧
      Shows BusyState.analysis f Report.busy) ∧
    (InBounds (Ranges.analysis settings) f (fun s v => v ∈ s) ∧
      ∀ shown, Shows (Ranges.analysis settings) f (Report.ranges shown f) ∧
        Shows (Ranges.analysis settings) f (Report.differences shown f) ∧
        ∀ w s, Occurs (Ranges.analysis settings) f w → w.Has s →
          ∃ separations, s.separations shown f = .ok separations) ∧
    (∀ b < f.numBlocks, ∃ label, f.label b = .ok label) ∧
      ∀ id < f.numInsts, ∃ text, f.instText id = .ok text := by
  have closed := Procedure.closed_of_build built
  have onTaint := TaintSet.analysis_inBounds closed settings
  have onTrails := Trails.analysis_inBounds closed settings
  have onRanges := Ranges.analysis_inBounds closed settings
  refine ⟨⟨onTaint, fun w occurs => ?_⟩, ⟨onTrails, fun w occurs => ?_⟩,
    ⟨BusyState.analysis_inBounds closed, fun w _ => Report.busy_returns _⟩,
    ⟨onRanges, fun shown => ⟨fun w occurs => ?_, fun w occurs => ?_, fun w s occurs has => ?_⟩⟩,
    fun b => Procedure.label_of_lt, fun id => Procedure.instText_returns closed⟩
  · exact Report.taint_returns fun b t found v => onTaint.lt_of_exit? occurs found
  · exact Report.trails_returns fun b t found v => onTrails.lt_of_exit? occurs found
  · exact Report.ranges_returns shown fun b t found v => onRanges.lt_of_exit? occurs found
  · exact Report.differences_returns shown fun b t found v => onRanges.lt_of_exit? occurs found
  · have inside : ∀ v ∈ s, v < f.numInsts := fun v isKey =>
      Procedure.lt_of_op (onRanges.keys w occurs s v has isKey)
    obtain ⟨separations, found, -⟩ := Ranges.separations_returns shown inside
    exact ⟨separations, found⟩

/-- With `i` as its source the loop sample has a state that taints `i`, which is a variable, and the
report on the end of the run is found. -/
theorem analyses_in_bounds_loop : ∃ f w t, Sample.loopDraft.build = .ok f ∧
    Occurs (TaintSet.analysis ⟨.full, "i", "retval"⟩) f w ∧ w.Has t ∧ 1 ∈ t ∧
    f.op 1 = .ok .alloca ∧ ∃ text, Report.taint f (w.tables.freeze f) = .ok text := by
  have built : Sample.loopDraft.build = .ok Sample.loopDraft.layout := rfl
  obtain ⟨⟨bounds, shows⟩, -⟩ := analyses_in_bounds built ⟨.full, "i", "retval"⟩
  have ends : (Worklist.run (TaintSet.analysis ⟨.full, "i", "retval"⟩) Sample.loopDraft.layout 10
      (.fresh Sample.loopDraft.layout)).toOption.any (fun w =>
        ((w.tables.freeze Sample.loopDraft.layout).exit? 2).any (1 ∈ ·)) = true := by
    decide +kernel
  obtain ⟨w, ran, atExit⟩ := exists_ok_of_any ends
  obtain ⟨t, found, member⟩ := Option.any_eq_true _ _ |>.mp atExit
  have occurs := Worklist.run_occurs ran
  have has := Worklist.has_of_exit? found
  have tainted : 1 ∈ t := of_decide_eq_true member
  exact ⟨_, w, t, built, occurs, has, tainted, bounds.keys w occurs t 1 has tainted,
    shows w occurs⟩

/-! ## Intervals -/

/-- On every built procedure and with every window, each interval of a recorded or pending state is
in the window. -/
theorem Ranges.occurs_in_window (built : d.build = .ok f) (settings : Settings)
    {w : Worklist Ranges} (occurs : Occurs (analysis settings) f w) {s : Ranges} (has : w.Has s)
    {v : InstId} {a : Interval} (found : s[v]? = some a) : a.InWindow settings.window := by
  have closed := Procedure.closed_of_build built
  have seen := (occurs.good (analysis_preserves closed settings)).2 s has
  exact (seen v a found).2.inWindow

/-- The diamond sample stores `3` in `b`, which a window up to `3` still tells apart. -/
theorem Ranges.occurs_in_window_diamond : ∃ f w s a, Sample.diamondDraft.build = .ok f ∧
    Occurs (analysis ⟨⟨-3, 3, by decide⟩, "source", "retval"⟩) f w ∧ w.Has s ∧ s[2]? = some a ∧
    a.lo = .fin 3 ∧ a.InWindow ⟨-3, 3, by decide⟩ := by
  have built : Sample.diamondDraft.build = .ok Sample.diamondDraft.layout := rfl
  have ends : (Worklist.run (analysis ⟨⟨-3, 3, by decide⟩, "source", "retval"⟩)
      Sample.diamondDraft.layout 10 (.fresh Sample.diamondDraft.layout)).toOption.any (fun w =>
        ((w.tables.freeze Sample.diamondDraft.layout).exit? 3).any fun s =>
          s[2]?.any (·.lo = .fin 3)) = true := by
    decide +kernel
  obtain ⟨w, ran, atExit⟩ := exists_ok_of_any ends
  obtain ⟨s, found, atB⟩ := Option.any_eq_true _ _ |>.mp atExit
  obtain ⟨a, isRange, isThree⟩ := Option.any_eq_true _ _ |>.mp atB
  have occurs := Worklist.run_occurs ran
  have has := Worklist.has_of_exit? found
  exact ⟨_, w, s, a, built, occurs, has, isRange, of_decide_eq_true isThree,
    occurs_in_window built _ occurs has isRange⟩

end FlowGraph
