import FlowGraph.Proofs.Interval.Division
import FlowGraph.Proofs.Procedure.Graph
import FlowGraph.Proofs.Ranges.Transfer

/-!
# Ranges seen through the window

The ranges at the ends of blocks are ranges of variables, and all their intervals are seen through
the window.  Inside a block there are registers too.  Every instruction keeps this, and so do the
outcomes of comparisons and the end of the block (`through_seen`).

In a closed procedure a block can only stop with a fault in a division, since it looks up only what
is there (`through_inRange`).  It never stops in a window that reaches down to `1` and up to `-1`
(`through_returns`).
-/

namespace FlowGraph

namespace Ranges

variable {w : Window} {f : Procedure} {b : BlockId} {id : InstId} {s t : Ranges} {a : Interval}
  {keys : InstId → Prop}

/-- The ranges are of values of some kind, and their intervals are seen through the window. -/
def Seen (w : Window) (keys : InstId → Prop) (s : Ranges) : Prop :=
  ∀ v a, s[v]? = some a → keys v ∧ a.Seen w

/-- Ranges of variables, as they are at the ends of blocks. -/
abbrev SeenVariables (w : Window) (f : Procedure) : Ranges → Prop := Seen w (f.hasVariable · = true)

/-- Ranges of any values, as they are inside a block. -/
abbrev SeenValues (w : Window) (f : Procedure) : Ranges → Prop := Seen w (· < f.numInsts)

/-! ## Parts of an instruction -/

theorem seen_empty : Seen w keys ∅ := by
  intro v a found
  simp at found

theorem SeenVariables.values (seen : SeenVariables w f s) : SeenValues w f s := by
  intro v a found
  exact ⟨Procedure.lt_of_hasVariable (seen v a found).1, (seen v a found).2⟩

theorem Seen.insert (seen : Seen w keys s) (key : keys id) (range : a.Seen w) :
    Seen w keys (s.insert id a) := by
  intro v a' found
  rw [Std.ExtTreeMap.getElem?_insert] at found
  split at found
  next same =>
    cases Nat.compare_eq_eq.mp same
    cases found
    exact ⟨key, range⟩
  next => exact seen v a' found

theorem Seen.rangeOf (seen : Seen w keys s) (v : InstId) : (s.rangeOf v).Seen w := by
  rw [rangeOf_eq]
  cases found : s[v]? with
  | none => exact Interval.seen_empty
  | some a => exact (seen v a found).2

theorem Seen.operand (seen : Seen w keys s) (o : Operand) : (s.operand w o).Seen w := by
  cases o with
  | const n => exact Interval.seen_const n
  | value r => exact seen.rangeOf r

theorem Seen.join (left : Seen w keys s) (right : Seen w keys t) : Seen w keys (s.join t) := by
  intro v a found
  rw [getElem?_join] at found
  cases inLeft : s[v]? with
  | none =>
      rw [inLeft, Option.merge_none_left] at found
      exact right v a found
  | some l =>
      obtain ⟨key, seenLeft⟩ := left v l inLeft
      cases inRight : t[v]? with
      | none =>
          rw [inLeft, inRight, Option.merge_none_right] at found
          cases found
          exact ⟨key, seenLeft⟩
      | some r =>
          rw [inLeft, inRight, Option.merge_some_some] at found
          cases found
          exact ⟨key, seenLeft.hull (right v r inRight).2⟩

theorem eraseRegisters_returns (seen : SeenValues w f s) :
    ∃ t, eraseRegisters f s = .ok t ∧ SeenVariables w f t := by
  have checked : f.checkInsts s.keys = .ok () := by
    refine Procedure.checkInsts_of_lt fun v member => ?_
    obtain ⟨a, found⟩ := Option.isSome_iff_exists.mp
      (Std.ExtTreeMap.mem_iff_isSome_getElem?.mp (Std.ExtTreeMap.mem_keys.mp member))
    exact (seen v a found).1
  refine ⟨_, bind_eq_ok_iff.mpr ⟨(), checked, rfl⟩, fun v a found => ?_⟩
  rw [Std.ExtTreeMap.getElem?_filter', Option.filter_eq_some_iff] at found
  exact ⟨found.2, (seen v a found.1).2⟩

theorem narrow_returns (closed : f.Closed) (o : Operand)
    (inside : ∀ r, o = .value r → r < f.numInsts) (range : a.Seen w) (seen : SeenValues w f s) :
    ∃ t, narrow f o a s = .ok t ∧ SeenValues w f t := by
  cases o with
  | const n => exact ⟨s, rfl, seen⟩
  | value r =>
      obtain ⟨op, isOp⟩ := Procedure.op_of_lt (inside r rfl)
      simp only [narrow, isOp, bind, Except.bind]
      cases op with
      | load slot =>
          have there := Procedure.lt_of_hasVariable (closed.slots r _ slot isOp rfl)
          exact ⟨_, rfl, seen.insert there range⟩
      | _ => exact ⟨s, rfl, seen⟩

theorem assume_returns (closed : f.Closed) {lhs rhs : Operand}
    (inside : ∀ o ∈ [lhs, rhs], ∀ r, o = .value r → r < f.numInsts) (seen : SeenValues w f s)
    (pred : Predicate) : ∃ outcome, assume w f s pred lhs rhs = .ok outcome ∧
      ∀ t, outcome = some t → SeenVariables w f t := by
  obtain ⟨left, right⟩ := (seen.operand lhs).refine (seen.operand rhs) pred.relation
  unfold assume
  dsimp only
  split
  next => exact ⟨none, rfl, by simp⟩
  next =>
    obtain ⟨s₁, first, seen₁⟩ := narrow_returns closed lhs (inside lhs (by simp)) left seen
    obtain ⟨s₂, second, seen₂⟩ := narrow_returns closed rhs (inside rhs (by simp)) right seen₁
    obtain ⟨t, erased, seenT⟩ := eraseRegisters_returns seen₂
    refine ⟨some t, ?_, fun t' same => Option.some.inj same ▸ seenT⟩
    simp only [first, second, erased, bind, Except.bind]
    rfl

theorem binary_seen {op : BinOp} {l r : Interval} (left : l.Seen w)
    (computed : binary w op l r = .ok a) : a.Seen w := by
  cases op with
  | add => cases computed; exact Interval.seen_add l r
  | sub => cases computed; exact Interval.seen_sub l r
  | mul => cases computed; exact Interval.seen_mul l r
  | sdiv | udiv => exact Interval.seen_divWithin computed
  | srem | urem => cases computed; exact left.rem r
  | _ => cases computed; exact Interval.seen_empty

/-- A binary operation has a result if the window reaches down to `1` and up to `-1`. -/
theorem binary_returns (down : w.lo ≤ 1) (up : -1 ≤ w.hi) (op : BinOp) (l r : Interval) :
    ∃ a, binary w op l r = .ok a := by
  cases op with
  | sdiv | udiv => exact Interval.div_returns down up
  | _ => exact ⟨_, rfl⟩

/-- A binary operation without a result is a division that has none. -/
theorem binary_inRange (op : BinOp) (l r : Interval) : InRange (binary w op l r) := by
  cases op with
  | sdiv | udiv => exact Interval.divWithin_inRange
  | _ => exact .ok rfl

/-! ## Instructions -/

/-- A block that was read up to some instruction has seen ranges and seen outcomes. -/
structure Progress.Seen (w : Window) (f : Procedure) (p : Progress) : Prop where
  ranges : SeenValues w f p.ranges
  outcomes : ∀ (c : InstId) (o : Outcomes), p.outcomes[c]? = some o →
    (∀ t, o.onTrue = some t → SeenVariables w f t) ∧ ∀ t, o.onFalse = some t → SeenVariables w f t

/-- An instruction can only stop with a fault where a binary operation has no result.  Otherwise it
keeps what is seen. -/
theorem step_outcome (closed : f.Closed) {p : Progress} (here : id < f.numInsts) (seen : p.Seen w f)
    (computes : ∀ op lhs rhs, f.op id = .ok (.binary op lhs rhs) →
      ∃ a, binary w op (p.ranges.operand w lhs) (p.ranges.operand w rhs) = .ok a) :
    ∃ p', step w f p id = .ok p' ∧ p'.Seen w f := by
  obtain ⟨op, isOp⟩ := Procedure.op_of_lt here
  simp only [step, isOp, bind, Except.bind]
  cases op with
  | alloca =>
      exact ⟨_, rfl, seen.ranges.insert here Interval.seen_top, seen.outcomes⟩
  | load slot =>
      exact ⟨_, rfl, seen.ranges.insert here (seen.ranges.rangeOf slot), seen.outcomes⟩
  | store value slot =>
      have there := Procedure.lt_of_hasVariable (closed.slots id _ slot isOp rfl)
      exact ⟨_, rfl, seen.ranges.insert there (seen.ranges.operand value), seen.outcomes⟩
  | binary op lhs rhs =>
      obtain ⟨a, computed⟩ := computes op lhs rhs isOp
      simp only [computed]
      exact ⟨_, rfl, seen.ranges.insert here (binary_seen (seen.ranges.operand lhs) computed),
        seen.outcomes⟩
  | compare pred lhs rhs =>
      have inside : ∀ o ∈ [lhs, rhs], ∀ r, o = .value r → r < f.numInsts := by
        rintro o member r rfl
        exact closed.operands id _ r isOp member
      obtain ⟨onTrue, assumed, seenTrue⟩ := assume_returns closed inside seen.ranges pred
      obtain ⟨onFalse, assumed', seenFalse⟩ := assume_returns closed inside seen.ranges pred.inverse
      simp only [assumed, assumed']
      refine ⟨_, rfl, seen.ranges, fun c o found => ?_⟩
      rw [Std.ExtTreeMap.getElem?_insert] at found
      split at found
      next =>
        cases found
        exact ⟨seenTrue, seenFalse⟩
      next => exact seen.outcomes c o found
  | _ => exact ⟨p, rfl, seen⟩

theorem step_seen (closed : f.Closed) {p p' : Progress} (seen : p.Seen w f)
    (stepped : step w f p id = .ok p') : p'.Seen w f := by
  obtain ⟨op, isOp, rest⟩ := bind_eq_ok_iff.mp stepped
  have computes : ∀ op lhs rhs, f.op id = .ok (.binary op lhs rhs) →
      ∃ a, binary w op (p.ranges.operand w lhs) (p.ranges.operand w rhs) = .ok a := by
    intro op lhs rhs isBinary
    rw [isOp] at isBinary
    cases isBinary
    obtain ⟨a, computed, -⟩ := bind_eq_ok_iff.mp rest
    exact ⟨a, computed⟩
  obtain ⟨p'', stepped', seen'⟩ := step_outcome closed (Procedure.lt_of_op isOp) seen computes
  rw [stepped] at stepped'
  cases stepped'
  exact seen'

theorem step_inRange (closed : f.Closed) {p : Progress} (here : id < f.numInsts)
    (seen : p.Seen w f) : InRange (step w f p id) := by
  obtain ⟨op, isOp⟩ := Procedure.op_of_lt here
  by_cases isBinary : ∃ op' lhs rhs, op = .binary op' lhs rhs
  · obtain ⟨op', lhs, rhs, rfl⟩ := isBinary
    exact (InRange.ok isOp).bind fun op found => by
      rw [isOp] at found
      cases found
      exact (binary_inRange op' _ _).bind fun a _ => .ok rfl
  · obtain ⟨p', stepped, -⟩ := step_outcome closed here seen fun op' lhs rhs found => by
      rw [isOp] at found
      exact absurd ⟨op', lhs, rhs, Except.ok.inj found⟩ isBinary
    exact .ok stepped

/-! ## Blocks -/

theorem terminator_returns (closed : f.Closed) (here : b < f.numBlocks) :
    ∃ leaving, f.terminator b = .ok leaving ∧
      ∀ op, leaving = some op → ∀ dest ∈ op.targets, dest < f.numBlocks := by
  obtain ⟨ids, found, inside⟩ := closed.insts b here
  simp only [Procedure.terminator, found, bind, Except.bind]
  cases last : ids.getLast? with
  | none => exact ⟨none, rfl, by simp⟩
  | some id =>
      obtain ⟨op, isOp⟩ := Procedure.op_of_lt (inside id (List.mem_of_getLast? last))
      simp only [isOp]
      refine ⟨_, rfl, fun op' leaves dest target => ?_⟩
      split at leaves
      next =>
        cases leaves
        exact closed.targets id op dest isOp target
      next => cases leaves

theorem mem_edges_iff {o : Outcomes} {onTrue onFalse dest : BlockId} {x : Ranges} :
    (dest, x) ∈ o.edges onTrue onFalse ↔
      dest = onTrue ∧ o.onTrue = some x ∨ dest = onFalse ∧ o.onFalse = some x := by
  simp only [Outcomes.edges, List.mem_append, Option.mem_toList, Option.map_eq_some_iff,
    Prod.mk.injEq]
  constructor
  · rintro (⟨t, isTrue, rfl, rfl⟩ | ⟨t, isFalse, rfl, rfl⟩)
    · exact .inl ⟨rfl, isTrue⟩
    · exact .inr ⟨rfl, isFalse⟩
  · rintro (⟨rfl, isTrue⟩ | ⟨rfl, isFalse⟩)
    · exact .inl ⟨x, isTrue, rfl, rfl⟩
    · exact .inr ⟨x, isFalse, rfl, rfl⟩

/-- The listed edges of a block go where its last instruction may go. -/
theorem Progress.target_of_listed {p : Progress} {after state : Ranges}
    {leaving : Option Operation} {edges : List (BlockId × Ranges)}
    (flows : p.flow after leaving = .split state edges) {dest : BlockId} {x : Ranges}
    (member : (dest, x) ∈ edges) : ∃ op, leaving = some op ∧ dest ∈ op.targets := by
  unfold Progress.flow at flows
  split at flows
  next n onTrue onFalse =>
    cases flows
    cases List.mem_singleton.mp member
    refine ⟨_, rfl, ?_⟩
    split <;> simp [Operation.targets]
  next c onTrue onFalse =>
    split at flows
    next o found =>
      cases flows
      rcases mem_edges_iff.mp member with ⟨rfl, -⟩ | ⟨rfl, -⟩
      · exact ⟨_, rfl, by simp [Operation.targets]⟩
      · exact ⟨_, rfl, by simp [Operation.targets]⟩
    next => cases flows
  next => cases flows

/-- The ranges along the listed edges of a block are seen. -/
theorem Progress.Seen.listed {p : Progress} (seen : p.Seen w f) {after state : Ranges}
    (seenAfter : SeenVariables w f after) {leaving : Option Operation}
    {edges : List (BlockId × Ranges)} (flows : p.flow after leaving = .split state edges)
    {dest : BlockId} {x : Ranges} (member : (dest, x) ∈ edges) : SeenVariables w f x := by
  unfold Progress.flow at flows
  split at flows
  next n onTrue onFalse =>
    cases flows
    cases List.mem_singleton.mp member
    exact seenAfter
  next c onTrue onFalse =>
    split at flows
    next o found =>
      cases flows
      rcases mem_edges_iff.mp member with ⟨rfl, isTrue⟩ | ⟨rfl, isFalse⟩
      · exact (seen.outcomes c o found).1 x isTrue
      · exact (seen.outcomes c o found).2 x isFalse
    next => cases flows
  next => cases flows

/-- At the entry of a block there are no outcomes yet. -/
theorem Progress.seen_enter (seen : SeenVariables w f s) : Progress.Seen w f ⟨s, ∅⟩ :=
  ⟨seen.values, by simp⟩

/-- Ranges of variables that are seen before a block are seen after it, and along its edges. -/
theorem through_seen (closed : f.Closed) (here : b < f.numBlocks) (seen : SeenVariables w f s)
    {flow : Flow Ranges} (carried : through w f b s = .ok flow) :
    SeenVariables w f flow.state ∧ ∀ state edges, flow = .split state edges →
      ∀ dest x, (dest, x) ∈ edges → dest < f.numBlocks ∧ SeenVariables w f x := by
  obtain ⟨ids, p, after, leaving, -, read, erased, leaves, rfl⟩ := through_eq_ok carried
  have seenEnd : p.Seen w f := foldlM_keeps
    (fun p id p' _ seen stepped => step_seen closed seen stepped) (Progress.seen_enter seen) read
  obtain ⟨after', erased', seenAfter⟩ := eraseRegisters_returns seenEnd.ranges
  rw [erased] at erased'
  cases erased'
  refine ⟨by rwa [Progress.state_flow], fun state edges flows dest x member => ?_⟩
  obtain ⟨op, isLeaving, target⟩ := Progress.target_of_listed flows member
  obtain ⟨leaving', leaves', inside⟩ := terminator_returns closed here
  rw [leaves] at leaves'
  cases leaves'
  exact ⟨inside op isLeaving dest target, seenEnd.listed seenAfter flows member⟩

/-- A block does not stop with a fault in a window that reaches down to `1` and up to `-1`. -/
theorem through_returns (closed : f.Closed) (down : w.lo ≤ 1) (up : -1 ≤ w.hi)
    (here : b < f.numBlocks) (seen : SeenVariables w f s) : ∃ flow, through w f b s = .ok flow := by
  obtain ⟨ids, found, inside⟩ := closed.insts b here
  have steps : ∀ p, ∀ id ∈ ids, p.Seen w f → ∃ p', step w f p id = .ok p' ∧ p'.Seen w f := by
    intro p id member seen
    exact step_outcome closed (inside id member) seen fun op lhs rhs _ =>
      binary_returns down up op _ _
  obtain ⟨p, read, seenEnd⟩ := foldlM_returns steps (Progress.seen_enter seen)
  obtain ⟨after, erased, -⟩ := eraseRegisters_returns seenEnd.ranges
  obtain ⟨leaving, leaves, -⟩ := terminator_returns closed here
  simp only [through, found, read, erased, leaves, bind, Except.bind]
  split
  next => exact ⟨_, rfl⟩
  next => split <;> exact ⟨_, rfl⟩
  next => exact ⟨_, rfl⟩

/-- A block looks up only what is there, in every window. -/
theorem through_inRange (closed : f.Closed) (here : b < f.numBlocks) (seen : SeenVariables w f s) :
    InRange (through w f b s) := by
  obtain ⟨ids, found, inside⟩ := closed.insts b here
  obtain ⟨leaving, leaves, -⟩ := terminator_returns closed here
  have reads : InRange (ids.foldlM (step w f) ⟨s, ∅⟩) := by
    refine InRange.foldlM (P := Progress.Seen w f) (fun p id member seen => ?_)
      (Progress.seen_enter seen)
    exact ⟨step_inRange closed (inside id member) seen, fun p' => step_seen closed seen⟩
  simp only [through, found]
  refine reads.bind fun p read => ?_
  have seenEnd : p.Seen w f := foldlM_keeps
    (fun p id p' _ seen stepped => step_seen closed seen stepped) (Progress.seen_enter seen) read
  obtain ⟨after, erased, -⟩ := eraseRegisters_returns seenEnd.ranges
  simp only [erased, leaves, bind, Except.bind]
  split
  next => exact .ok rfl
  next => split <;> exact .ok rfl
  next => exact .ok rfl

end Ranges

end FlowGraph
