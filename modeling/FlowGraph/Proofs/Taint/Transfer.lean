import FlowGraph.Analysis.Taint
import FlowGraph.Proofs.Fault
import FlowGraph.Proofs.Solver.Order

/-!
# What a block does to tainted values

`Carries` says of each value whether it is tainted after an instruction, given which values are
tainted before.  This is what a step of the analysis computes (`mem_step_iff`).

More tainted values before an instruction give more after it, and so through a block.  With unions
for joins this makes the analysis monotone.
-/

namespace FlowGraph

namespace TaintSet

variable {source : String} {f : Procedure} {id : InstId} {t t' u u' : TaintSet}

/-! ## Instructions -/

/-- Tainted before an instruction, or by the name of the instruction. -/
def Marked (source : String) (id : InstId) (i : Instruction) (t : TaintSet) (v : InstId) : Prop :=
  v ∈ t ∨ v = id ∧ i.name = source

/-- Tainted after an instruction. -/
def Carries (source : String) (f : Procedure) (id : InstId) (i : Instruction) (t : TaintSet)
    (v : InstId) : Prop :=
  match i.op with
  | .load slot => Marked source id i t v ∨ v = id ∧ Marked source id i t slot
  | .binary _ lhs rhs => Marked source id i t v ∨
      v = id ∧ ∃ r, (lhs = .value r ∨ rhs = .value r) ∧ Marked source id i t r
  | .store value slot => v ≠ slot ∧ Marked source id i t v ∨
      v = slot ∧ ((∃ r, value = .value r ∧ Marked source id i t r) ∨
        f.valueName slot = .ok source ∧ Marked source id i t slot)
  | _ => Marked source id i t v

theorem reads_iff {o : Operand} : reads t o = true ↔ ∃ r, o = .value r ∧ r ∈ t := by
  cases o with
  | value r => simp [reads, Operand.inst?]
  | const n => simp [reads, Operand.inst?]

theorem mem_insert_iff {k v : InstId} : v ∈ t.insert k ↔ v = k ∨ v ∈ t := by
  rw [Std.ExtTreeSet.mem_insert, Nat.compare_eq_eq, eq_comm]

theorem mem_erase_iff {k v : InstId} : v ∈ t.erase k ↔ v ≠ k ∧ v ∈ t := by
  rw [Std.ExtTreeSet.mem_erase, Ne, Nat.compare_eq_eq, ne_comm]

theorem mem_marked_iff {i : Instruction} {v : InstId} :
    v ∈ (if i.name = source then t.insert id else t) ↔ Marked source id i t v := by
  unfold Marked
  split
  next named =>
    rw [mem_insert_iff, or_comm]
    simp [named]
  next unnamed => simp [unnamed]

theorem mem_step_iff (stepped : step source f t id = .ok t') :
    ∃ i, f.inst id = .ok i ∧ ∀ v, v ∈ t' ↔ Carries source f id i t v := by
  obtain ⟨i, found, stepped⟩ := bind_eq_ok_iff.mp stepped
  refine ⟨i, found, fun v => ?_⟩
  have marked : ∀ v, v ∈ (if i.name = source then t.insert id else t) ↔
      Marked source id i t v := fun v => mem_marked_iff
  generalize (if i.name = source then t.insert id else t) = t₁ at stepped marked
  have unchanged : t₁ = t' → (v ∈ t' ↔ Marked source id i t v) := by
    rintro rfl
    exact marked v
  cases op : i.op with
  | load slot =>
      rw [op] at stepped
      cases pure_eq_ok_iff.mp stepped
      simp only [Carries, op, ← marked]
      split
      next tainted => rw [mem_insert_iff, or_comm]; simp [tainted]
      next clean => simp [clean]
  | binary o lhs rhs =>
      rw [op] at stepped
      cases pure_eq_ok_iff.mp stepped
      have either : (reads t₁ lhs || reads t₁ rhs) = true ↔
          ∃ r, (lhs = .value r ∨ rhs = .value r) ∧ r ∈ t₁ := by
        simp only [Bool.or_eq_true, reads_iff, or_and_right, exists_or]
      simp only [Carries, op, ← marked, ← either]
      split
      next tainted => rw [mem_insert_iff, or_comm]; simp [tainted]
      next clean => simp [clean]
  | store value slot =>
      rw [op] at stepped
      simp only [Carries, op, ← marked, ← reads_iff]
      change (if reads t₁ value then _ else _) = _ at stepped
      split at stepped
      next tainted =>
        cases pure_eq_ok_iff.mp stepped
        rw [mem_insert_iff]
        grind
      next clean =>
        obtain ⟨name, named, stepped⟩ := bind_eq_ok_iff.mp stepped
        split at stepped
        next isSource =>
          cases pure_eq_ok_iff.mp stepped
          rw [named, isSource]
          grind
        next other =>
          cases pure_eq_ok_iff.mp stepped
          rw [mem_erase_iff, named]
          grind
  | _ =>
      simp only [Carries, op]
      exact unchanged (pure_eq_ok_iff.mp (by rwa [op] at stepped))

theorem Marked.mono {i : Instruction} {v : InstId} (subset : ∀ v ∈ t, v ∈ u)
    (marked : Marked source id i t v) : Marked source id i u v :=
  marked.imp_left (subset v)

theorem Carries.mono {i : Instruction} {v : InstId} (subset : ∀ v ∈ t, v ∈ u)
    (carried : Carries source f id i t v) : Carries source f id i u v := by
  unfold Carries at carried ⊢
  split at carried
  next slot =>
    rcases carried with before | ⟨rfl, before⟩
    · exact .inl (before.mono subset)
    · exact .inr ⟨rfl, before.mono subset⟩
  next op lhs rhs =>
    rcases carried with before | ⟨rfl, r, side, before⟩
    · exact .inl (before.mono subset)
    · exact .inr ⟨rfl, r, side, before.mono subset⟩
  next value slot =>
    rcases carried with ⟨other, before⟩ | ⟨rfl, ⟨r, isValue, before⟩ | ⟨isSource, before⟩⟩
    · exact .inl ⟨other, before.mono subset⟩
    · exact .inr ⟨rfl, .inl ⟨r, isValue, before.mono subset⟩⟩
    · exact .inr ⟨rfl, .inr ⟨isSource, before.mono subset⟩⟩
  next => exact carried.mono subset

/-! ## Blocks -/

theorem step_mono (subset : ∀ v ∈ t, v ∈ u) (stepped : step source f t id = .ok t')
    (stepped' : step source f u id = .ok u') : ∀ v ∈ t', v ∈ u' := by
  obtain ⟨i, found, members⟩ := mem_step_iff stepped
  obtain ⟨i', found', members'⟩ := mem_step_iff stepped'
  rw [found] at found'
  cases found'
  intro v member
  exact (members' v).mpr (((members v).mp member).mono subset)

theorem steps_mono {ids : List InstId} (subset : ∀ v ∈ t, v ∈ u)
    (stepped : ids.foldlM (step source f) t = .ok t')
    (stepped' : ids.foldlM (step source f) u = .ok u') : ∀ v ∈ t', v ∈ u' := by
  induction ids generalizing t u with
  | nil =>
      cases stepped
      cases stepped'
      exact subset
  | cons id rest ih =>
      rw [List.foldlM_cons, bind_eq_ok_iff] at stepped stepped'
      obtain ⟨t₁, first, stepped⟩ := stepped
      obtain ⟨u₁, first', stepped'⟩ := stepped'
      exact ih (step_mono subset first first') stepped stepped'

theorem mem_eraseRegisters_iff (erased : eraseRegisters f t = .ok t') {v : InstId} :
    v ∈ t' ↔ v ∈ t ∧ f.hasVariable v = true := by
  obtain ⟨-, -, same⟩ := bind_eq_ok_iff.mp erased
  cases pure_eq_ok_iff.mp same
  simp

theorem through_eq_ok {b : BlockId} (carried : through source f b t = .ok t') :
    ∃ ids t₁, f.instsOf b = .ok ids ∧ ids.foldlM (step source f) t = .ok t₁ ∧
      ∀ v, v ∈ t' ↔ v ∈ t₁ ∧ f.hasVariable v = true := by
  obtain ⟨ids, found, carried⟩ := bind_eq_ok_iff.mp carried
  obtain ⟨t₁, stepped, erased⟩ := bind_eq_ok_iff.mp carried
  exact ⟨ids, t₁, found, stepped, fun v => mem_eraseRegisters_iff erased⟩

/-! ## The analysis -/

theorem analysis_isJoin (settings : Settings) : (analysis settings).IsJoin :=
  Analysis.isJoin_of_union fun _ _ => rfl

theorem below_iff {settings : Settings} : (analysis settings).Below t u ↔ ∀ v ∈ t, v ∈ u :=
  Analysis.below_iff_subset fun _ _ => rfl

theorem transfer_eq_ok {settings : Settings} {b : BlockId} {flow : Flow TaintSet}
    (carried : (analysis settings).transfer f b t = .ok flow) :
    ∃ t', through settings.taintSource f b t = .ok t' ∧ flow = .uniform t' := by
  obtain ⟨t', carried, same⟩ := bind_eq_ok_iff.mp carried
  exact ⟨t', carried, (pure_eq_ok_iff.mp same).symm⟩

theorem analysis_isMonotone (settings : Settings) (f : Procedure) :
    (analysis settings).IsMonotone f := by
  intro b t u flow flow' below carried carried'
  obtain ⟨t', across, rfl⟩ := transfer_eq_ok carried
  obtain ⟨u', across', rfl⟩ := transfer_eq_ok carried'
  obtain ⟨ids, t₁, found, stepped, members⟩ := through_eq_ok across
  obtain ⟨ids', u₁, found', stepped', members'⟩ := through_eq_ok across'
  rw [found] at found'
  cases found'
  refine below_iff.mpr fun v member => ?_
  obtain ⟨tainted, isVariable⟩ := (members v).mp member
  exact (members' v).mpr ⟨steps_mono (below_iff.mp below) stepped stepped' v tainted, isVariable⟩

end TaintSet

end FlowGraph
