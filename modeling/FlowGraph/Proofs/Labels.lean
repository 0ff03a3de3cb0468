import FlowGraph.Proofs.Bytes
import FlowGraph.Proofs.Procedure.WellFormed
import FlowGraph.Proofs.Report
import FlowGraph.Proofs.Solver.Configurations
import Mathlib.Data.List.Forall2

/-!
# Solutions by label

A solution is looked up by label, and reports go through its visited blocks by label.  Both speak of
the right blocks because the blocks of a built procedure have different labels.  A search for a
label then finds the one block that has it (`position?_eq_some_iff`).

The visited blocks are sorted by label and then by id.  The id never decides, so the labels strictly
ascend.  They do so in the order of their bytes too.

A visit records states at both ends of a block, so a visited block has both (`Occurs.both_ends`) and
no report passes it over.
-/

namespace FlowGraph

variable {σ : Type}

namespace Solution

/-! ## The order of labelled blocks -/

theorem labelLe_iff {p q : String × BlockId} :
    labelLe p q = true ↔ p.1 < q.1 ∨ p.1 = q.1 ∧ p.2 ≤ q.2 := by
  simp [labelLe]

theorem labelLe_trans (p q r : String × BlockId) (first : labelLe p q = true)
    (second : labelLe q r = true) : labelLe p r = true := by
  rw [labelLe_iff] at *
  rcases first with less | ⟨same, le⟩
  · rcases second with less' | ⟨same', -⟩
    · exact .inl (String.lt_trans less less')
    · exact .inl (same' ▸ less)
  · rcases second with less' | ⟨same', le'⟩
    · exact .inl (same ▸ less')
    · exact .inr ⟨same.trans same', Nat.le_trans le le'⟩

theorem labelLe_total (p q : String × BlockId) : (labelLe p q || labelLe q p) = true := by
  rw [Bool.or_eq_true, labelLe_iff, labelLe_iff]
  by_cases less : p.1 < q.1
  · exact .inl (.inl less)
  · by_cases more : q.1 < p.1
    · exact .inr (.inl more)
    · have same : p.1 = q.1 := String.le_antisymm (String.not_lt.mp more) (String.not_lt.mp less)
      exact (Nat.le_total p.2 q.2).imp (fun le => .inr ⟨same, le⟩) fun le => .inr ⟨same.symm, le⟩

theorem blocksByLabel_sorted (s : Solution σ) :
    s.blocksByLabel.Pairwise fun p q => labelLe p q = true :=
  List.pairwise_mergeSort labelLe_trans labelLe_total _

/-- No block is listed twice. -/
theorem nodup_blocksByLabel (s : Solution σ) : (s.blocksByLabel.map (·.2)).Nodup := by
  have ids : (s.labels.toList.zipIdx.map (·.2)).Nodup := by
    rw [List.zipIdx_map_snd]
    exact List.nodup_range'
  have perm : s.blocksByLabel.Perm (s.labels.toList.zipIdx.filter fun p => s.isReached p.2) :=
    List.mergeSort_perm _ labelLe
  exact (perm.map (·.2)).nodup_iff.mpr (ids.sublist (List.filter_sublist.map _))

/-! ## Labels of a procedure -/

variable {f : Procedure} {t : Tables σ} {b : BlockId} {label : String}

theorem labels_getElem?_eq_some_iff :
    (t.freeze f).labels[b]? = some label ↔ f.label b = .ok label := by
  simp only [Tables.freeze, Array.getElem?_map, Option.map_eq_some_iff, Procedure.label,
    Procedure.block, bind_eq_ok_iff, pure_eq_ok_iff, lookup_eq_ok_iff]

theorem label_of_position? (found : (t.freeze f).position? label = some b) :
    f.label b = .ok label := by
  obtain ⟨inside, same, -⟩ := Array.findIdx?_eq_some_iff_getElem.mp found
  rw [← labels_getElem?_eq_some_iff (t := t), Array.getElem?_eq_getElem inside, eq_of_beq same]

theorem position?_eq_none_iff :
    (t.freeze f).position? label = none ↔ ∀ b, f.label b ≠ .ok label := by
  simp only [position?, Array.findIdx?_eq_none_iff, beq_eq_false_iff_ne, ne_eq,
    ← labels_getElem?_eq_some_iff (t := t)]
  constructor
  · intro all b found
    exact all label (Array.mem_of_getElem? found) rfl
  · rintro none x member rfl
    obtain ⟨b, found⟩ := Array.mem_iff_getElem?.mp member
    exact none b found

/-- If labels differ, the block found for a label is the block that has it. -/
theorem position?_eq_some_iff (consistent : f.Consistent) :
    (t.freeze f).position? label = some b ↔ f.label b = .ok label := by
  refine ⟨label_of_position?, fun isLabel => ?_⟩
  cases found : (t.freeze f).position? label with
  | none => exact absurd isLabel (position?_eq_none_iff.mp found b)
  | some c => rw [consistent.labels b c label isLabel (label_of_position? found)]

theorem mem_blocksByLabel_iff : (label, b) ∈ (t.freeze f).blocksByLabel ↔
    f.label b = .ok label ∧ (t.freeze f).isReached b = true := by
  rw [blocksByLabel, List.mem_mergeSort, List.mem_filter, List.mem_zipIdx_iff_getElem?,
    Array.getElem?_toList, labels_getElem?_eq_some_iff]

theorem blocksByLabel_ascending (consistent : f.Consistent) :
    (t.freeze f).blocksByLabel.Pairwise fun p q => p.1 < q.1 := by
  have differ : (t.freeze f).blocksByLabel.Pairwise fun p q => p.2 ≠ q.2 :=
    List.pairwise_map.mp (List.nodup_iff_pairwise_ne.mp (t.freeze f).nodup_blocksByLabel)
  refine ((t.freeze f).blocksByLabel_sorted.and differ).imp_of_mem ?_
  rintro ⟨x, b⟩ ⟨y, c⟩ first second ⟨le, other⟩
  rcases labelLe_iff.mp le with less | ⟨same, -⟩
  · exact less
  · -- the order of ids would decide, but two blocks with one label are one block
    cases same
    have isLabel := (mem_blocksByLabel_iff.mp first).1
    exact absurd (consistent.labels b c x isLabel (mem_blocksByLabel_iff.mp second).1) other

end Solution

/-! ## Visited blocks -/

namespace Worklist

variable [DecidableEq σ] {A : Analysis σ} {f : Procedure} {w w' : Worklist σ}

/-- Visits keep that blocks have states at both ends or at none. -/
theorem AnyStep.both_ends (stepped : AnyStep A f w w')
    (both : ∀ b, (w.tables.nearAt A.direction b).isSome = (w.tables.farAt A.direction b).isSome)
    (b : BlockId) :
    (w'.tables.nearAt A.direction b).isSome = (w'.tables.farAt A.direction b).isSome := by
  obtain ⟨c, incoming, rest, flow, passed, -, done, -⟩ := stepped.visited
  by_cases here : b = c
  · rw [here, done.near, done.far]
    rfl
  · rw [done.nearOther b here, done.farOther b here]
    exact both b

theorem Occurs.both_ends (occurs : Occurs A f w) (b : BlockId) :
    (Solution.entry? (w.tables.freeze f) b).isSome =
      (Solution.exit? (w.tables.freeze f) b).isSome := by
  have both := occurs.keeps (P := fun t => ∀ b,
    (t.nearAt A.direction b).isSome = (t.farAt A.direction b).isSome)
    (fun b => by rw [Tables.nearAt_fresh, Tables.farAt_fresh])
    (fun _ _ stepped => stepped.both_ends) b
  cases direction : A.direction with
  | forward =>
      rw [direction] at both
      exact both
  | backward =>
      rw [direction] at both
      exact both.symm

theorem Occurs.ends_of_isReached (occurs : Occurs A f w) {b : BlockId}
    (reached : (w.tables.freeze f).isReached b = true) :
    (Solution.entry? (w.tables.freeze f) b).isSome = true ∧
      (Solution.exit? (w.tables.freeze f) b).isSome = true := by
  rw [Solution.isReached, occurs.both_ends, Bool.or_self] at reached
  exact ⟨(occurs.both_ends b).trans reached, reached⟩

theorem Occurs.lt_of_isReached (occurs : Occurs A f w) {b : BlockId}
    (reached : (w.tables.freeze f).isReached b = true) : b < f.numBlocks := by
  obtain ⟨s, found⟩ := Option.isSome_iff_exists.mp (occurs.ends_of_isReached reached).1
  exact occurs.fits.lt_of_nearAt (d := .forward) found

end Worklist

/-! ## Sections of reports -/

/-- The results of a list are those of its entries, one by one. -/
theorem mapM_eq_ok_iff {ε α β : Type} {g : α → Except ε β} {xs : List α} {ys : List β} :
    xs.mapM g = .ok ys ↔ List.Forall₂ (fun x y => g x = .ok y) xs ys := by
  induction xs generalizing ys with
  | nil => rw [List.mapM_nil, pure_eq_ok_iff, List.forall₂_nil_left_iff, eq_comm]
  | cons x xs ih =>
      simp only [mapM_cons_eq_ok_iff, List.forall₂_cons_left_iff, ih]
      constructor
      · rintro ⟨first, others, found, rest, rfl⟩
        exact ⟨first, others, found, rest, rfl⟩
      · rintro ⟨first, others, found, rest, rfl⟩
        exact ⟨first, others, found, rest, rfl⟩

/-! ## Solutions of a solver -/

/-- The labels of a procedure find the states of a solution, and its visited blocks are listed by
label. -/
structure Solution.ByLabel (s : Solution σ) (f : Procedure) : Prop where
  /-- Every block has a label, and the states found for the label are those of the block. -/
  found : ∀ b < f.numBlocks, ∃ label, f.label b = .ok label ∧
    s.entryAt? label = s.entry? b ∧ s.exitAt? label = s.exit? b
  /-- For a text that is not the label of a block nothing is found. -/
  missing : ∀ text, (∀ b, f.label b ≠ .ok text) → s.entryAt? text = none ∧ s.exitAt? text = none
  /-- The listed blocks are those that were visited. -/
  listed : ∀ b, (∃ label, (label, b) ∈ s.blocksByLabel) ↔ s.isReached b = true
  /-- A block is listed with its label. -/
  labels : ∀ label b, (label, b) ∈ s.blocksByLabel → f.label b = .ok label
  /-- A block is listed once. -/
  once : (s.blocksByLabel.map (·.2)).Nodup
  /-- The labels ascend in the order of bytes. -/
  ascending : s.blocksByLabel.Pairwise fun p q => bytesOf p.1 < bytesOf q.1
  /-- A visited block has states at both ends. -/
  ends : ∀ b, s.isReached b = true → (s.entry? b).isSome = true ∧ (s.exit? b).isSome = true
  /-- A report has one section for each listed block, in order. -/
  sections : ∀ body texts, Report.sections s body = .ok texts ↔
    List.Forall₂ (fun p text => body p.1 p.2 = .ok text) s.blocksByLabel texts

theorem Worklist.Occurs.byLabel [DecidableEq σ] {A : Analysis σ} {f : Procedure} {w : Worklist σ}
    (consistent : f.Consistent) (occurs : Occurs A f w) : (w.tables.freeze f).ByLabel f := by
  refine ⟨fun b inside => ?_, fun text other => ?_, fun b => ?_, fun label b member => ?_,
    Solution.nodup_blocksByLabel _, ?_, fun b => occurs.ends_of_isReached,
    fun body texts => mapM_eq_ok_iff⟩
  · obtain ⟨label, isLabel⟩ := Procedure.label_of_lt inside
    have position := (Solution.position?_eq_some_iff (t := w.tables) consistent).mpr isLabel
    refine ⟨label, isLabel, ?_, ?_⟩
    · rw [Solution.entryAt?, position, Option.bind_some]
    · rw [Solution.exitAt?, position, Option.bind_some]
  · have nowhere := (Solution.position?_eq_none_iff (t := w.tables)).mpr other
    rw [Solution.entryAt?, Solution.exitAt?, nowhere]
    exact ⟨rfl, rfl⟩
  · simp only [Solution.mem_blocksByLabel_iff, exists_and_right, and_iff_right_iff_imp]
    exact fun reached => Procedure.label_of_lt (occurs.lt_of_isReached reached)
  · exact (Solution.mem_blocksByLabel_iff.mp member).1
  · exact (Solution.blocksByLabel_ascending consistent).imp bytesOf_lt

/-- On every built procedure and for every problem, looking up a solution by label is looking it up by
block, and reports have one section per visited block.  This holds of the solutions that can be taken
from a solver before, during and after its runs, and of those that `solve` gives. -/
theorem solutions_byLabel {d : Draft} {f : Procedure} (built : d.build = .ok f) [DecidableEq σ]
    (A : Analysis σ) :
    (∀ w, Worklist.Occurs A f w → (w.tables.freeze f).ByLabel f) ∧
      ∀ limit solution, solve A f limit = .ok solution → solution.ByLabel f := by
  obtain ⟨passes, rfl⟩ := Draft.build_eq_ok_iff.mp built
  have consistent := (Draft.passes_iff_wellFormed.mp passes).consistent
  refine ⟨fun w occurs => occurs.byLabel consistent, fun limit solution solved => ?_⟩
  obtain ⟨done, ran, same⟩ := bind_eq_ok_iff.mp solved
  cases pure_eq_ok_iff.mp same
  exact (Worklist.run_occurs ran).byLabel consistent

/-- Labels that do not come in order.  The first is made up, and nothing leads to the last block. -/
def unsortedDraft : Draft := .ofSteps "main" do
  let entry ← Drafting.anonymousBlock
  let middle ← Drafting.block "é"
  let final ← Drafting.block "z"
  let _ ← Drafting.block "a"
  let _ ← Drafting.jump entry middle
  Drafting.jump middle final

/-- Taint gets to the second block, which is listed, and not to the last, which is not.  Nothing is
found for the text `bb0`, since the label of the first block is `%bb0`. -/
theorem solutions_byLabel_unsorted : ∃ f solution, unsortedDraft.build = .ok f ∧
    solve (TaintSet.analysis .default) f 10 = .ok solution ∧
    ("é", 1) ∈ solution.blocksByLabel ∧ (∀ label, (label, 3) ∉ solution.blocksByLabel) ∧
    solution.entryAt? "é" = solution.entry? 1 ∧ (solution.exit? 1).isSome = true ∧
    solution.entryAt? "bb0" = none := by
  have built : unsortedDraft.build = .ok unsortedDraft.layout := rfl
  have ends : (solve (TaintSet.analysis .default) unsortedDraft.layout 10).toOption.any
      (fun solution => solution.isReached 1 && !solution.isReached 3) = true := by
    decide +kernel
  obtain ⟨solution, solved, test⟩ := exists_ok_of_any ends
  obtain ⟨reached, unreached⟩ := Bool.and_eq_true_iff.mp test
  have byLabel := (solutions_byLabel built (TaintSet.analysis .default)).2 10 solution solved
  have isLabel : unsortedDraft.layout.label 1 = .ok "é" := rfl
  have others : ∀ b < 4, unsortedDraft.layout.label b ≠ .ok "bb0" := by decide +kernel
  have other : ∀ b, unsortedDraft.layout.label b ≠ .ok "bb0" := by
    intro b isLabel
    obtain ⟨declared, there, -⟩ := Draft.layout_label_eq_ok_iff.mp isLabel
    exact others b (Array.getElem?_eq_some_iff.mp there).1 isLabel
  refine ⟨_, solution, built, solved, ?_, fun label member => ?_, ?_, (byLabel.ends 1 reached).2,
    (byLabel.missing _ other).1⟩
  · obtain ⟨label, member⟩ := (byLabel.listed 1).mpr reached
    cases isLabel.symm.trans (byLabel.labels label 1 member)
    exact member
  · rw [(byLabel.listed 3).mp ⟨label, member⟩] at unreached
    cases unreached
  · obtain ⟨label, isLabel', atEntry, -⟩ := byLabel.found 1 (by decide)
    cases isLabel.symm.trans isLabel'
    exact atEntry

end FlowGraph
