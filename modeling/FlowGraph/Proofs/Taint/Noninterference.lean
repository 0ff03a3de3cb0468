import FlowGraph.Demo.Sample
import FlowGraph.Proofs.Procedure.Build
import FlowGraph.Proofs.Solver.Paths
import FlowGraph.Proofs.Taint.Transfer
import Mathlib.Logic.Function.Basic

/-!
# Untainted variables do not depend on the source

Two runs along the same path start with the same slots.  Their declarations put the same contents
into the slots, except that those of the source may differ.  At the exit of every block on the
path, a variable that the solution does not list as tainted has the same content in both
(`solve_noninterference`).

The contents can be of any type, and the instructions compute with them in any fixed way.  Registers
are local to a visit of a block, and one that was not made in the visit reads as a fixed value.  The
result of a comparison is not tracked, so the procedure may use it for branches only.
-/

namespace FlowGraph

/-! ## Runs along paths -/

/-- What instructions compute, with contents in `V`. -/
structure Meaning (V : Type) where
  const : Int → V
  binary : BinOp → V → V → V
  compare : Predicate → V → V → V
  /-- What a register reads as before it is made. -/
  unset : InstId → V

/-- The contents of the slots and of the registers. -/
structure Contents (V : Type) where
  slots : InstId → V
  regs : InstId → V

namespace Contents

variable {V : Type}

/-- The content of an operand.  One that names a variable reads the slot. -/
def read (μ : Meaning V) (f : Procedure) (m : Contents V) : Operand → V
  | .const n => μ.const n
  | .value id => if f.hasVariable id then m.slots id else m.regs id

def setSlot (m : Contents V) (slot : InstId) (x : V) : Contents V :=
  { m with slots := Function.update m.slots slot x }

def setReg (m : Contents V) (id : InstId) (x : V) : Contents V :=
  { m with regs := Function.update m.regs id x }

/-- Runs an instruction.  A declaration puts `fresh` of its id into the slot. -/
def exec (μ : Meaning V) (f : Procedure) (fresh : InstId → V) (m : Contents V) (id : InstId) :
    Contents V :=
  match f.op id with
  | .ok .alloca => m.setSlot id (fresh id)
  | .ok (.load slot) => m.setReg id (m.slots slot)
  | .ok (.store value slot) => m.setSlot slot (m.read μ f value)
  | .ok (.binary op lhs rhs) => m.setReg id (μ.binary op (m.read μ f lhs) (m.read μ f rhs))
  | .ok (.compare pred lhs rhs) =>
    m.setReg id (μ.compare pred (m.read μ f lhs) (m.read μ f rhs))
  | _ => m

/-- Runs the instructions of a block, without registers from before. -/
def visit (μ : Meaning V) (f : Procedure) (fresh : InstId → V) (m : Contents V) (b : BlockId) :
    Contents V :=
  match f.instsOf b with
  | .ok ids => ids.foldl (exec μ f fresh) { m with regs := μ.unset }
  | .error _ => m

/-- Visits some blocks in order.  The declarations of the visit at each position have contents of
their own. -/
def walk (μ : Meaning V) (f : Procedure) (fresh : Nat → InstId → V) (m : Contents V)
    (path : List BlockId) : Contents V :=
  path.zipIdx.foldl (fun m p => visit μ f (fresh p.2) m p.1) m

theorem walk_append (μ : Meaning V) (f : Procedure) (fresh : Nat → InstId → V) (m : Contents V)
    (before : List BlockId) (b : BlockId) :
    walk μ f fresh m (before ++ [b]) =
      visit μ f (fresh before.length) (walk μ f fresh m before) b := by
  simp [walk, List.zipIdx_append, List.foldl_append]

end Contents

/-- Results of comparisons are read by branches only. -/
def Procedure.ComparesForBranches (f : Procedure) : Prop :=
  ∀ i ∈ f.insts, i.op.isTerminator = false →
    ∀ r ∈ i.op.operands.filterMap Operand.inst?, f.isCompare r = false

instance (f : Procedure) : Decidable f.ComparesForBranches :=
  inferInstanceAs (Decidable (∀ i ∈ f.insts, i.op.isTerminator = false →
    ∀ r ∈ i.op.operands.filterMap Operand.inst?, f.isCompare r = false))

theorem Procedure.ComparesForBranches.operand {f : Procedure} (flags : f.ComparesForBranches)
    {id r : InstId} {i : Instruction} (found : f.inst id = .ok i)
    (stays : i.op.isTerminator = false) (reads : .value r ∈ i.op.operands) :
    f.isCompare r = false := by
  refine flags i ?_ stays r (List.mem_filterMap.mpr ⟨_, reads, rfl⟩)
  exact Array.mem_of_getElem? (lookup_eq_ok_iff.mp found)

namespace TaintSet

variable {V : Type} {μ : Meaning V} {f : Procedure} {t t' : TaintSet} {m m' : Contents V}

/-! ## Two runs -/

/-- Two runs agree on what is not tainted.  Results of comparisons are left out. -/
structure Agree (f : Procedure) (t : TaintSet) (m m' : Contents V) : Prop where
  slots : ∀ v, f.hasVariable v = true → v ∉ t → m.slots v = m'.slots v
  regs : ∀ r, f.hasVariable r = false → f.isCompare r = false → r ∉ t → m.regs r = m'.regs r

namespace Agree

theorem read (agree : Agree f t m m') {o : Operand}
    (clean : ∀ r, o = .value r → f.isCompare r = false ∧ r ∉ t) :
    m.read μ f o = m'.read μ f o := by
  cases o with
  | const n => rfl
  | value r =>
      obtain ⟨notCompare, untainted⟩ := clean r rfl
      cases isVariable : f.hasVariable r with
      | true => simp [Contents.read, isVariable, agree.slots r isVariable untainted]
      | false => simp [Contents.read, isVariable, agree.regs r isVariable notCompare untainted]

/-- With more tainted values there is less to agree on. -/
theorem mono (agree : Agree f t m m') (subset : ∀ v ∈ t, v ∈ t') : Agree f t' m m' where
  slots v isVariable clean := agree.slots v isVariable fun member => clean (subset v member)
  regs r notVariable notCompare clean :=
    agree.regs r notVariable notCompare fun member => clean (subset r member)

theorem setSlot (agree : Agree f t m m') {slot : InstId} {x x' : V}
    (isVariable : f.hasVariable slot = true) (same : slot ∉ t' → x = x')
    (kept : ∀ v, v ≠ slot → v ∈ t → v ∈ t') :
    Agree f t' (m.setSlot slot x) (m'.setSlot slot x') where
  slots v isVariable' clean := by
    by_cases here : v = slot
    · subst here
      simp only [Contents.setSlot, Function.update_self]
      exact same clean
    · simp only [Contents.setSlot, Function.update_of_ne here]
      exact agree.slots v isVariable' fun member => clean (kept v here member)
  regs r notVariable notCompare clean := by
    have other : r ≠ slot := by
      rintro rfl
      rw [notVariable] at isVariable
      cases isVariable
    exact agree.regs r notVariable notCompare fun member => clean (kept r other member)

theorem setReg (agree : Agree f t m m') {id : InstId} {x x' : V}
    (notVariable : f.hasVariable id = false)
    (same : f.isCompare id = false → id ∉ t' → x = x') (kept : ∀ v ∈ t, v ∈ t') :
    Agree f t' (m.setReg id x) (m'.setReg id x') where
  slots v isVariable clean := agree.slots v isVariable fun member => clean (kept v member)
  regs r notVariable' notCompare clean := by
    by_cases here : r = id
    · subst here
      simp only [Contents.setReg, Function.update_self]
      exact same notCompare clean
    · simp only [Contents.setReg, Function.update_of_ne here]
      exact agree.regs r notVariable' notCompare fun member => clean (kept r member)

/-- One instruction keeps two runs together. -/
theorem exec {d : Draft} {source : String} (built : d.build = .ok f)
    (flags : f.ComparesForBranches) {fresh fresh' : InstId → V}
    (supplies : ∀ id name, f.valueName id = .ok name → name ≠ source → fresh id = fresh' id)
    {id : InstId} (agree : Agree f t m m') (stepped : step source f t id = .ok t') :
    Agree f t' (m.exec μ f fresh id) (m'.exec μ f fresh' id) := by
  obtain ⟨i, found, members⟩ := mem_step_iff stepped
  have isOp : f.op id = .ok i.op := by rw [Procedure.op, found]; rfl
  unfold Contents.exec
  rw [isOp]
  cases op : i.op with
  | alloca =>
      rw [op] at isOp
      simp only [Carries, op] at members
      refine agree.setSlot (Procedure.hasVariable_iff.mpr isOp) (fun clean => ?_)
        fun v _ member => (members v).mpr (.inl member)
      refine supplies id i.name (by rw [Procedure.valueName, found]; rfl) fun isSource => ?_
      exact clean ((members id).mpr (.inr ⟨rfl, isSource⟩))
  | load slot =>
      rw [op] at isOp
      simp only [Carries, op] at members
      refine agree.setReg (Procedure.hasVariable_eq_false isOp (by simp)) (fun _ clean => ?_)
        fun v member => (members v).mpr (.inl (.inl member))
      refine agree.slots slot (Procedure.hasVariable_slot built isOp rfl) fun tainted => ?_
      exact clean ((members id).mpr (.inr ⟨rfl, .inl tainted⟩))
  | store value slot =>
      have notCompare : ∀ r, value = .value r → f.isCompare r = false := by
        rintro r rfl
        exact flags.operand found (by rw [op]; rfl) (by simp [op, Operation.operands])
      rw [op] at isOp
      simp only [Carries, op] at members
      refine agree.setSlot (Procedure.hasVariable_slot built isOp rfl) (fun clean => ?_)
        fun v other member => (members v).mpr (.inl ⟨other, .inl member⟩)
      refine agree.read fun r isValue => ⟨notCompare r isValue, fun tainted => ?_⟩
      exact clean ((members slot).mpr (.inr ⟨rfl, .inl ⟨r, isValue, .inl tainted⟩⟩))
  | binary o lhs rhs =>
      have notCompare : ∀ r, lhs = .value r ∨ rhs = .value r → f.isCompare r = false := by
        rintro r (rfl | rfl) <;>
          exact flags.operand found (by rw [op]; rfl) (by simp [op, Operation.operands])
      rw [op] at isOp
      simp only [Carries, op] at members
      refine agree.setReg (Procedure.hasVariable_eq_false isOp (by simp)) (fun _ clean => ?_)
        fun v member => (members v).mpr (.inl (.inl member))
      have untainted : ∀ r, lhs = .value r ∨ rhs = .value r → r ∉ t := fun r side tainted =>
        clean ((members id).mpr (.inr ⟨rfl, r, side, .inl tainted⟩))
      rw [agree.read fun r isValue => ⟨notCompare r (.inl isValue), untainted r (.inl isValue)⟩,
        agree.read fun r isValue => ⟨notCompare r (.inr isValue), untainted r (.inr isValue)⟩]
  | compare pred lhs rhs =>
      rw [op] at isOp
      simp only [Carries, op] at members
      refine agree.setReg (Procedure.hasVariable_eq_false isOp (by simp)) (fun notCompare _ => ?_)
        fun v member => (members v).mpr (.inl member)
      simp [Procedure.isCompare, isOp] at notCompare
  | _ =>
      refine agree.mono fun v member => (members v).mpr ?_
      simp only [Carries, op]
      exact .inl member

theorem foldl_exec {d : Draft} {source : String} (built : d.build = .ok f)
    (flags : f.ComparesForBranches) {fresh fresh' : InstId → V}
    (supplies : ∀ id name, f.valueName id = .ok name → name ≠ source → fresh id = fresh' id)
    {ids : List InstId} (agree : Agree f t m m')
    (stepped : ids.foldlM (step source f) t = .ok t') :
    Agree f t' (ids.foldl (Contents.exec μ f fresh) m)
      (ids.foldl (Contents.exec μ f fresh') m') := by
  induction ids generalizing t m m' with
  | nil =>
      cases stepped
      exact agree
  | cons id rest ih =>
      rw [List.foldlM_cons, bind_eq_ok_iff] at stepped
      obtain ⟨t₁, first, stepped⟩ := stepped
      exact ih (agree.exec built flags supplies first) stepped

end Agree

/-! ## Paths -/

/-- Two walks along a path agree on the variables that are not tainted. -/
def SlotsAgree (μ : Meaning V) (f : Procedure) (fresh fresh' : Nat → InstId → V)
    (start : Contents V) (path : List BlockId) (t : TaintSet) : Prop :=
  ∀ v, f.hasVariable v = true → v ∉ t →
    (Contents.walk μ f fresh start path).slots v = (Contents.walk μ f fresh' start path).slots v

/-- A visit of a block keeps two walks together. -/
theorem SlotsAgree.visit {d : Draft} {source : String} (built : d.build = .ok f)
    (flags : f.ComparesForBranches) {fresh fresh' : Nat → InstId → V}
    (supplies : ∀ k id name, f.valueName id = .ok name → name ≠ source →
      fresh k id = fresh' k id)
    {start : Contents V} {before : List BlockId} {b : BlockId}
    (agree : SlotsAgree μ f fresh fresh' start before t)
    (carried : through source f b t = .ok t') :
    SlotsAgree μ f fresh fresh' start (before ++ [b]) t' := by
  obtain ⟨ids, t₁, found, stepped, members⟩ := through_eq_ok carried
  intro v isVariable clean
  rw [Contents.walk_append, Contents.walk_append]
  simp only [Contents.visit, found]
  have entered : Agree f t
      { Contents.walk μ f fresh start before with regs := μ.unset }
      { Contents.walk μ f fresh' start before with regs := μ.unset } :=
    ⟨agree, fun _ _ _ _ => rfl⟩
  have left := entered.foldl_exec (μ := μ) built flags (supplies before.length) stepped
  exact left.slots v isVariable fun member => clean ((members v).mpr ⟨member, isVariable⟩)

theorem SlotsAgree.mono {fresh fresh' : Nat → InstId → V} {start : Contents V}
    {path : List BlockId} (agree : SlotsAgree μ f fresh fresh' start path t)
    (subset : ∀ v ∈ t, v ∈ t') : SlotsAgree μ f fresh fresh' start path t' := by
  intro v isVariable clean
  exact agree v isVariable fun member => clean (subset v member)

/-- Two walks along a path to a block, whose declarations differ at most in the contents of the
source, agree after the block on every variable that is not tainted at its exit. -/
theorem solve_noninterference {d : Draft} {settings : Settings} {limit : Nat}
    {solution : Solution TaintSet} {before : List BlockId} {b : BlockId}
    {fresh fresh' : Nat → InstId → V} (start : Contents V) (built : d.build = .ok f)
    (flags : f.ComparesForBranches)
    (solved : solve (analysis settings) f limit = .ok solution) (path : f.Path before b)
    (supplies : ∀ k id name, f.valueName id = .ok name → name ≠ settings.taintSource →
      fresh k id = fresh' k id) :
    ∃ tainted, solution.exit? b = some tainted ∧
      ∀ v, f.hasVariable v = true → v ∉ tainted →
        (Contents.walk μ f fresh start (before ++ [b])).slots v =
          (Contents.walk μ f fresh' start (before ++ [b])).slots v := by
  have solves := solve_tables_solves (analysis_isJoin settings) solved
  have across : ∀ before b t flow, SlotsAgree μ f fresh fresh' start before t →
      (analysis settings).transfer f b t = .ok flow →
        SlotsAgree μ f fresh fresh' start (before ++ [b]) flow.state := by
    intro before b t flow agree carried
    obtain ⟨t', through, rfl⟩ := transfer_eq_ok carried
    exact agree.visit built flags supplies through
  have uniform : ∀ b t flow, (analysis settings).transfer f b t = .ok flow →
      flow = .uniform flow.state := by
    intro b t flow carried
    obtain ⟨t', -, rfl⟩ := transfer_eq_ok carried
    rfl
  obtain ⟨t, near, agree⟩ := solves.along_path rfl uniform (fun v _ _ => rfl) across
    (fun path x y below agree => agree.mono (below_iff.mp below)) path
  obtain ⟨flow, far, carried, atFar, below, -⟩ := solves.block b t near
  exact ⟨far, atFar, (across before b t flow agree carried).mono (below_iff.mp below)⟩

/-- Integers, with addition for every opcode. -/
def sums : Meaning Int := ⟨fun n => n, fun _ x y => x + y, fun _ _ _ => 0, fun _ => 0⟩

/-- The straight sample overwrites `t` in its second block, and so whether the source starts at zero
or at five makes no difference to it. -/
theorem solve_noninterference_straight : ∃ solution tainted,
    solve (analysis .default) Sample.straightDraft.layout 10 = .ok solution ∧
      solution.exit? 1 = some tainted ∧ 2 ∉ tainted ∧
      (Contents.walk sums Sample.straightDraft.layout (fun _ _ => 0) ⟨fun _ => 0, fun _ => 0⟩
        [0, 1]).slots 2 =
        (Contents.walk sums Sample.straightDraft.layout (fun _ id => if id = 1 then 5 else 0)
          ⟨fun _ => 0, fun _ => 0⟩ [0, 1]).slots 2 := by
  have returns : (solve (analysis .default) Sample.straightDraft.layout 10).toOption.any
      (fun solution => (solution.exit? 1).all fun tainted => decide (2 ∉ tainted)) = true := by
    decide +kernel
  have supplies : ∀ (k : Nat) id name, Sample.straightDraft.layout.valueName id = .ok name →
      name ≠ Settings.default.taintSource → (0 : Int) = if id = 1 then 5 else 0 := by
    intro k id name named other
    split
    next isSource =>
      subst isSource
      cases named
      exact absurd rfl other
    next => rfl
  have path : Sample.straightDraft.layout.Path [0] 1 := .step .entry rfl (by decide)
  cases solved : solve (analysis .default) Sample.straightDraft.layout 10 with
  | error fault =>
      rw [solved] at returns
      cases returns
  | ok solution =>
      obtain ⟨tainted, found, agree⟩ := solve_noninterference (d := Sample.straightDraft)
        (μ := sums) ⟨fun _ => 0, fun _ => 0⟩ rfl (by decide +kernel) solved path supplies
      have clean : 2 ∉ tainted := by
        rw [solved, Except.toOption, Option.any_some, found] at returns
        exact of_decide_eq_true returns
      exact ⟨solution, tainted, rfl, found, clean, agree 2 rfl clean⟩

end TaintSet

end FlowGraph
