import Mathlib.Data.List.Nodup
import Std.Data.String.ToNat
import FlowGraph.Proofs.Procedure.Graph

/-!
# Well-formed drafts

Building a draft accepts exactly the well-formed drafts, and what it gives is consistent
(`build_ok_iff_wellFormed`).  A draft is well-formed if it has a block, its declared names are not
reserved, its declared labels differ, everything that instructions refer to is there, and in a
block nothing follows a branch (`WellFormed`).

Only declared labels have to differ.  A label that is made up from an id is reserved, so it is not
declared, and two of them differ with their ids.

In a consistent procedure labels differ, every instruction is in exactly one block, the successors
of a block are the targets of the branch at its end, and the predecessors are the blocks that have
it as a successor (`Consistent`).  Lists of ids ascend.
-/

namespace FlowGraph

namespace Draft

variable {d : Draft} {f : Procedure}

/-- The draft describes a procedure. -/
structure WellFormed (d : Draft) : Prop where
  /-- There is a block. -/
  blocks : 0 < d.labels.size
  /-- Declared labels do not start with `%`. -/
  labels : ∀ (b : BlockId) label, d.labels[b]? = some (some label) → label.toList.head? ≠ some '%'
  /-- Declared names do not start with `%`. -/
  names : ∀ (id : InstId) i name, d.insts[id]? = some i → i.name? = some name →
    name.toList.head? ≠ some '%'
  /-- Declared labels differ. -/
  distinct : ∀ (b c : BlockId) label, d.labels[b]? = some (some label) →
    d.labels[c]? = some (some label) → b = c
  /-- Every instruction belongs to a block. -/
  places : ∀ (id : InstId) i, d.insts[id]? = some i → i.block < d.labels.size
  /-- Every value that is read is there. -/
  operands : ∀ (id : InstId) i r, d.insts[id]? = some i → .value r ∈ i.op.operands →
    r < d.insts.size
  /-- Every slot that is read or written is there and is a slot. -/
  slots : ∀ (id : InstId) i slot, d.insts[id]? = some i → i.op.slot? = some slot →
    ∃ declared, d.insts[slot]? = some declared ∧ declared.op = .alloca
  /-- Every destination is a block. -/
  targets : ∀ (id : InstId) i dest, d.insts[id]? = some i → dest ∈ i.op.targets →
    dest < d.labels.size
  /-- In a block nothing follows a branch. -/
  ends : ∀ (id next : InstId) i j, d.insts[id]? = some i → d.insts[next]? = some j →
    i.block = j.block → id < next → i.op.isTerminator = false

/-! ## Names -/

theorem isReserved_eq_false_iff {name : String} :
    isReserved name = false ↔ name.toList.head? ≠ some '%' := by
  simp [isReserved]

theorem isReserved_labelOf_none (b : BlockId) : isReserved (labelOf b none) = true := by
  simp [isReserved, labelOf, String.toList_append, toString]

theorem checkName_eq_ok_iff {declared : Option String} :
    checkName declared = .ok () ↔ ∀ name, declared = some name → isReserved name = false := by
  cases declared with
  | none => simp [checkName]
  | some name => simp [checkName]

theorem labelOf_none_inj {b c : BlockId} (same : labelOf b none = labelOf c none) : b = c := by
  have same : "%bb" ++ Nat.repr b = "%bb" ++ Nat.repr c := same
  exact Nat.repr_injective ((String.append_right_inj "%bb").mp same)

/-- Two blocks have the same label only if it is declared for both. -/
theorem declared_of_labelOf_eq {b c : BlockId} {x y : Option String}
    (first : checkName x = .ok ()) (second : checkName y = .ok ()) (differ : b ≠ c)
    (same : labelOf b x = labelOf c y) : ∃ label, x = some label ∧ y = some label := by
  rw [checkName_eq_ok_iff] at first second
  cases x with
  | none =>
      cases y with
      | none => exact absurd (labelOf_none_inj same) differ
      | some label =>
          have free := second label rfl
          rw [← show labelOf b none = label from same, isReserved_labelOf_none] at free
          cases free
  | some label =>
      cases y with
      | none =>
          have free := first label rfl
          rw [show label = labelOf c none from same, isReserved_labelOf_none] at free
          cases free
      | some other => exact ⟨label, rfl, congrArg some same.symm⟩

/-! ## Labels -/

/-- The labels of blocks, the first of which has the given id. -/
def labelsFrom (b : BlockId) (declared : List (Option String)) : List String :=
  (declared.zipIdx b).map fun p => labelOf p.2 p.1

theorem labelsFrom_getElem? {b c : BlockId} {declared : List (Option String)} :
    (labelsFrom b declared)[c]? = declared[c]?.map (labelOf (b + c)) := by
  simp only [labelsFrom, List.getElem?_map, List.getElem?_zipIdx, Option.map_map]
  rfl

theorem checkLabels_eq_ok_iff {seen : List String} {declared : List (Option String)} :
    checkLabels seen declared = .ok () ↔ (∀ x ∈ declared, checkName x = .ok ()) ∧
      (labelsFrom seen.length declared).Nodup ∧
      ∀ label ∈ labelsFrom seen.length declared, label ∉ seen := by
  induction declared generalizing seen with
  | nil => simp [checkLabels, labelsFrom]
  | cons x declared ih =>
      -- the blocks before have one label each, so the next block has their number as its id
      have labels : labelsFrom seen.length (x :: declared) =
          labelOf seen.length x :: labelsFrom (labelOf seen.length x :: seen).length declared := rfl
      rw [labels, List.forall_mem_cons, List.forall_mem_cons, List.nodup_cons]
      by_cases known : labelOf seen.length x ∈ seen
      · constructor
        · intro checked
          simp only [checkLabels, bind_eq_ok_iff, if_pos known] at checked
          obtain ⟨⟨⟩, -, ⟨⟩, stopped, -⟩ := checked
          cases stopped
        · exact fun ⟨_, _, fresh, _⟩ => absurd known fresh
      · simp only [checkLabels, bind_eq_ok_iff, if_neg known, ih]
        constructor
        · rintro ⟨⟨⟩, first, names, differ, fresh⟩
          exact ⟨⟨first, names⟩, ⟨fun again => fresh _ again List.mem_cons_self, differ⟩, known,
            fun label member old => fresh label member (List.mem_cons_of_mem _ old)⟩
        · rintro ⟨⟨first, names⟩, ⟨new, differ⟩, -, fresh⟩
          refine ⟨(), first, names, differ, fun label member old => ?_⟩
          rcases List.mem_cons.mp old with rfl | old
          · exact new member
          · exact fresh label member old

/-- Labels that are not reserved all differ if the declared ones do. -/
theorem nodup_labelsFrom_iff {declared : List (Option String)}
    (names : ∀ x ∈ declared, checkName x = .ok ()) :
    (labelsFrom 0 declared).Nodup ↔ ∀ (b c : BlockId) label, declared[b]? = some (some label) →
      declared[c]? = some (some label) → b = c := by
  constructor
  · intro differ b c label first second
    have inside : b < (labelsFrom 0 declared).length := by
      simpa [labelsFrom] using (List.getElem?_eq_some_iff.mp first).1
    refine (List.getElem?_inj inside differ).mp ?_
    rw [labelsFrom_getElem?, labelsFrom_getElem?, first, second]
    rfl
  · intro differ
    refine List.nodup_iff_getElem?_ne_getElem?.mpr fun b c before inside same => ?_
    rw [labelsFrom_getElem?, labelsFrom_getElem?] at same
    have inside : c < declared.length := by simpa [labelsFrom] using inside
    obtain ⟨y, second⟩ : ∃ y, declared[c]? = some y := ⟨_, List.getElem?_eq_getElem inside⟩
    obtain ⟨x, first⟩ : ∃ x, declared[b]? = some x :=
      ⟨_, List.getElem?_eq_getElem (Nat.lt_trans before inside)⟩
    rw [first, second] at same
    simp only [Option.map_some, Option.some.injEq, Nat.zero_add] at same
    -- a label that two blocks share is declared for both
    obtain ⟨label, rfl, rfl⟩ := declared_of_labelOf_eq (names x (List.mem_of_getElem? first))
      (names y (List.mem_of_getElem? second)) (Nat.ne_of_lt before) same
    exact Nat.ne_of_lt before (differ b c label first second)

theorem labels_pass_iff : checkLabels [] d.labels.toList = .ok () ↔
    (∀ (b : BlockId) label, d.labels[b]? = some (some label) → label.toList.head? ≠ some '%') ∧
      ∀ (b c : BlockId) label, d.labels[b]? = some (some label) →
        d.labels[c]? = some (some label) → b = c := by
  have names : (∀ x ∈ d.labels.toList, checkName x = .ok ()) ↔ ∀ (b : BlockId) label,
      d.labels[b]? = some (some label) → label.toList.head? ≠ some '%' := by
    simp only [checkName_eq_ok_iff, isReserved_eq_false_iff, List.mem_iff_getElem?,
      Array.getElem?_toList]
    exact ⟨fun all b label found => all _ ⟨b, found⟩ label rfl,
      fun all x ⟨b, found⟩ label same => all b label (same ▸ found)⟩
  rw [checkLabels_eq_ok_iff, ← names]
  refine and_congr_right fun pass => ?_
  simp only [List.length_nil, nodup_labelsFrom_iff pass, Array.getElem?_toList,
    List.not_mem_nil, not_false_eq_true, implies_true, and_true]

/-! ## The ends of blocks -/

theorem instsOf_ascending (d : Draft) (b : BlockId) : (d.instsOf b).Pairwise (· < ·) :=
  List.Pairwise.filter _ List.pairwise_lt_range

/-- In an ascending list, what has a greater id after it is not the last. -/
theorem mem_dropLast_iff {ids : List InstId} (ascending : ids.Pairwise (· < ·)) {id : InstId} :
    id ∈ ids.dropLast ↔ id ∈ ids ∧ ∃ next ∈ ids, id < next := by
  rcases List.eq_nil_or_concat ids with rfl | ⟨before, last, rfl⟩
  · simp
  · rw [List.concat_eq_append] at ascending ⊢
    have greatest : ∀ id ∈ before, id < last := fun id member =>
      (List.pairwise_append.mp ascending).2.2 id member last (List.mem_singleton_self last)
    rw [List.dropLast_concat]
    constructor
    · intro member
      exact ⟨List.mem_append_left _ member, last, by simp, greatest id member⟩
    · rintro ⟨member, next, later, less⟩
      simp only [List.mem_append, List.mem_singleton] at member later
      rcases member with member | rfl
      · exact member
      · rcases later with later | rfl
        · exact absurd (greatest next later) (Nat.lt_asymm less)
        · exact absurd less (Nat.lt_irrefl _)

theorem mem_dropLast_opsOf_iff {b : BlockId} {op : Operation} : op ∈ (d.opsOf b).dropLast ↔
    ∃ id ∈ (d.instsOf b).dropLast, ∃ i, d.insts[id]? = some i ∧ i.op = op := by
  rcases List.eq_nil_or_concat (d.instsOf b) with shape | ⟨before, last, shape⟩
  · simp [opsOf, opsAt, shape]
  · rw [List.concat_eq_append] at shape
    obtain ⟨i, found, -⟩ := mem_instsOf_iff.mp (show last ∈ d.instsOf b by simp [shape])
    simp [opsOf, opsAt, shape, found]

/-- Nothing follows a branch in a block, said of operations and of ids. -/
theorem stays_dropLast_opsOf_iff {b : BlockId} :
    (∀ op ∈ (d.opsOf b).dropLast, op.isTerminator = false) ↔
      ∀ (id next : InstId) i j, d.insts[id]? = some i → d.insts[next]? = some j → i.block = b →
        j.block = b → id < next → i.op.isTerminator = false := by
  simp only [mem_dropLast_opsOf_iff, mem_dropLast_iff (d.instsOf_ascending b), mem_instsOf_iff]
  constructor
  · intro all id next i j found later here there less
    exact all i.op ⟨id, ⟨⟨i, found, here⟩, next, ⟨j, later, there⟩, less⟩, i, found, rfl⟩
  · rintro all op ⟨id, ⟨⟨i, found, here⟩, next, ⟨j, later, there⟩, less⟩, i', found', rfl⟩
    rw [found] at found'
    cases found'
    exact all id next i j found later here there less

/-! ## Accepted drafts -/

theorem checkPlace_eq_ok_iff {i : DraftInst} : d.checkPlace i = .ok () ↔
    i.block < d.labels.size ∧ ∀ name, i.name? = some name → name.toList.head? ≠ some '%' := by
  simp only [checkPlace, ← isReserved_eq_false_iff, ← checkName_eq_ok_iff]
  by_cases outside : i.block ≥ d.labels.size
  · rw [if_pos outside]
    constructor
    · intro stopped
      cases stopped
    · exact fun ⟨inside, _⟩ => absurd inside (Nat.not_lt.mpr outside)
  · rw [if_neg outside]
    exact ⟨fun named => ⟨Nat.lt_of_not_le outside, named⟩, And.right⟩

theorem passes_iff_wellFormed : d.Passes ↔ d.WellFormed := by
  constructor
  · intro passes
    obtain ⟨labels, distinct⟩ := labels_pass_iff.mp passes.labels
    have placed := fun (id : InstId) i (found : d.insts[id]? = some i) =>
      checkPlace_eq_ok_iff.mp
        (passes.places i (Array.mem_toList_iff.mpr (Array.mem_of_getElem? found)))
    refine ⟨?_, labels, fun id i name found => (placed id i found).2 name, distinct,
      fun id i found => (placed id i found).1, fun id i r => passes.operand,
      fun id i slot => passes.slot, fun id i dest => passes.target, ?_⟩
    · exact Array.size_pos_iff.mpr (Array.isEmpty_eq_false_iff.mp passes.blocks)
    · intro id next i j found later same less
      have inside := (placed id i found).1
      have stays := passes.ends i.block inside
      exact stays_dropLast_opsOf_iff.mp stays id next i j found later rfl same.symm less
  · intro formed
    refine ⟨?_, labels_pass_iff.mpr ⟨formed.labels, formed.distinct⟩, ?_, ?_, ?_⟩
    · exact Array.isEmpty_eq_false_iff.mpr (Array.size_pos_iff.mp formed.blocks)
    · intro i member
      obtain ⟨id, found⟩ := Array.mem_iff_getElem?.mp (Array.mem_toList_iff.mp member)
      exact checkPlace_eq_ok_iff.mpr
        ⟨formed.places id i found, fun name => formed.names id i name found⟩
    · intro ⟨i, id⟩ member
      have found : d.insts[id]? = some i := by
        simpa using List.mem_zipIdx_iff_getElem?.mp member
      exact checkReferences_eq_ok_iff.mpr ⟨fun r => formed.operands id i r found,
        fun slot => formed.slots id i slot found, fun dest => formed.targets id i dest found⟩
    · intro b _
      refine stays_dropLast_opsOf_iff.mpr fun id next i j found later here there less => ?_
      exact formed.ends id next i j found later (here.trans there.symm) less

end Draft

/-! ## Consistent procedures -/

/-- The tables of a procedure agree with each other. -/
structure Procedure.Consistent (f : Procedure) : Prop where
  /-- Labels differ. -/
  labels : ∀ b c label, f.label b = .ok label → f.label c = .ok label → b = c
  /-- The instructions of a block ascend. -/
  insts : ∀ b < f.numBlocks, ∃ ids, f.instsOf b = .ok ids ∧ ids.Pairwise (· < ·) ∧
    ∀ id ∈ ids, id < f.numInsts
  /-- Every instruction is in its own block and in no other. -/
  owner : ∀ id < f.numInsts, ∃ i, f.inst id = .ok i ∧ i.block < f.numBlocks ∧
    ∀ b ids, f.instsOf b = .ok ids → (id ∈ ids ↔ b = i.block)
  /-- A branch is the last instruction of its block. -/
  ends : ∀ b ids id op, f.instsOf b = .ok ids → id ∈ ids → f.op id = .ok op →
    op.isTerminator = true → ids.getLast? = some id
  /-- The successors of a block are the targets of its branch. -/
  succs : ∀ b < f.numBlocks, ∃ leaves, f.terminator b = .ok leaves ∧
    f.successors b = .ok (leaves.elim [] (·.targets))
  /-- The predecessors of a block ascend, and they are the blocks it is a successor of. -/
  preds : ∀ b < f.numBlocks, ∃ preds, f.predecessors b = .ok preds ∧ preds.Pairwise (· < ·) ∧
    ∀ p, p ∈ preds ↔ f.Edge p b

namespace Draft

variable {d : Draft} {f : Procedure}

/-- The procedure has the blocks and the instructions of the draft. -/
structure Describes (d : Draft) (f : Procedure) : Prop where
  name : f.name = d.name
  blocks : f.numBlocks = d.labels.size
  labels : ∀ (b : BlockId) declared, d.labels[b]? = some declared →
    f.label b = .ok (declared.getD s!"%bb{b}")
  insts : f.numInsts = d.insts.size
  inst : ∀ (id : InstId) i, d.insts[id]? = some i →
    f.inst id = .ok ⟨i.name?.getD s!"%{id}", i.block, i.op⟩

theorem describes_layout (d : Draft) : d.Describes d.layout where
  name := rfl
  blocks := by simp [Procedure.numBlocks, layout]
  labels b declared found := layout_label_eq_ok_iff.mpr ⟨declared, found, rfl⟩
  insts := by simp [Procedure.numInsts, layout]
  inst id i found := by
    rw [Procedure.inst, lookup_eq_ok_iff, layout_insts_getElem?, found]
    rfl

/-- In a well-formed draft, a branch is the last instruction of its block. -/
theorem WellFormed.getLast?_instsOf (formed : d.WellFormed) {b : BlockId} {id : InstId}
    {i : DraftInst} (member : id ∈ d.instsOf b) (found : d.insts[id]? = some i)
    (leaves : i.op.isTerminator = true) : (d.instsOf b).getLast? = some id := by
  rcases List.eq_nil_or_concat (d.instsOf b) with shape | ⟨before, last, shape⟩
  · rw [shape] at member
    cases member
  · rw [List.concat_eq_append] at shape
    rw [shape, List.mem_append, List.mem_singleton] at member
    rw [shape, List.getLast?_concat]
    rcases member with member | rfl
    · have early : id ∈ (d.instsOf b).dropLast := by
        rw [shape, List.dropLast_concat]
        exact member
      obtain ⟨here, next, there, less⟩ := (mem_dropLast_iff (d.instsOf_ascending b)).mp early
      obtain ⟨i', found', here⟩ := mem_instsOf_iff.mp here
      obtain ⟨j, later, there⟩ := mem_instsOf_iff.mp there
      rw [found] at found'
      cases found'
      rw [formed.ends id next i j found later (here.trans there.symm) less] at leaves
      cases leaves
    · rfl

/-- In a well-formed draft, blocks with the same label are the same. -/
theorem WellFormed.labelOf_inj (formed : d.WellFormed) {b c : BlockId} {x y : Option String}
    (first : d.labels[b]? = some x) (second : d.labels[c]? = some y)
    (same : labelOf b x = labelOf c y) : b = c := by
  by_contra differ
  have names : ∀ (b : BlockId) x, d.labels[b]? = some x → checkName x = .ok () :=
    fun b x found => checkName_eq_ok_iff.mpr fun label isLabel =>
      isReserved_eq_false_iff.mpr (formed.labels b label (isLabel ▸ found))
  obtain ⟨label, rfl, rfl⟩ :=
    declared_of_labelOf_eq (names b x first) (names c y second) differ same
  exact differ (formed.distinct b c label first second)

theorem WellFormed.consistent (formed : d.WellFormed) : d.layout.Consistent := by
  have passes := passes_iff_wellFormed.mpr formed
  have closed := Procedure.closed_of_build (build_eq_ok_iff.mpr ⟨passes, rfl⟩)
  have blocks := d.describes_layout.blocks
  refine ⟨?_, ?_, ?_, ?_, ?_, ?_⟩
  · intro b c label first second
    obtain ⟨x, first, isLabel⟩ := layout_label_eq_ok_iff.mp first
    obtain ⟨y, second, same⟩ := layout_label_eq_ok_iff.mp second
    exact formed.labelOf_inj first second (isLabel.trans same.symm)
  · intro b inside
    obtain ⟨ids, listed, there⟩ := closed.insts b inside
    obtain ⟨-, rfl⟩ := layout_instsOf_eq_ok_iff.mp listed
    exact ⟨_, listed, d.instsOf_ascending b, there⟩
  · intro id inside
    rw [d.describes_layout.insts] at inside
    have there : d.insts[id]? = some d.insts[id] := Array.getElem?_eq_getElem inside
    refine ⟨_, d.describes_layout.inst id _ there, ?_, fun b ids listed => ?_⟩
    · rw [blocks]
      exact formed.places id _ there
    · obtain ⟨-, rfl⟩ := layout_instsOf_eq_ok_iff.mp listed
      simp [mem_instsOf_iff, there, eq_comm]
  · intro b ids id op listed member isOp leaves
    obtain ⟨-, rfl⟩ := layout_instsOf_eq_ok_iff.mp listed
    obtain ⟨i, there, rfl⟩ := layout_op_eq_ok_iff.mp isOp
    exact formed.getLast?_instsOf member there leaves
  · intro b inside
    rw [blocks] at inside
    obtain ⟨leaves, found, targets⟩ := layout_terminator inside
    exact ⟨leaves, found, layout_successors_eq_ok_iff.mpr ⟨inside, targets⟩⟩
  · intro b inside
    obtain ⟨preds, listed, before⟩ := closed.preds b inside
    obtain ⟨-, rfl⟩ := layout_predecessors_eq_ok_iff.mp listed
    exact ⟨_, listed, List.Pairwise.filter _ List.pairwise_lt_range, before⟩

/-- Building accepts exactly the well-formed drafts.  What it gives is consistent, and has the
blocks and the instructions of the draft. -/
theorem build_ok_iff_wellFormed (d : Draft) :
    ((∃ f, d.build = .ok f) ↔ d.WellFormed) ∧
      ∀ f, d.build = .ok f → f.Consistent ∧ d.Describes f := by
  refine ⟨⟨fun ⟨f, built⟩ => ?_, fun formed => ?_⟩, fun f built => ?_⟩
  · exact passes_iff_wellFormed.mp (build_eq_ok_iff.mp built).1
  · exact ⟨d.layout, build_eq_ok_iff.mpr ⟨passes_iff_wellFormed.mpr formed, rfl⟩⟩
  · obtain ⟨passes, rfl⟩ := build_eq_ok_iff.mp built
    exact ⟨(passes_iff_wellFormed.mp passes).consistent, d.describes_layout⟩

/-- Two blocks drafted in turns.  The first has no label, reads a register that comes later and
goes to the second on both sides of its branch. -/
def interleaved : Draft := .ofSteps "main" do
  let first ← Drafting.anonymousBlock
  let second ← Drafting.block "bb0"
  let x ← Drafting.alloca second "x"
  let _ ← Drafting.store first (.value 4) x
  let _ ← Drafting.other second
  let _ ← Drafting.branch first (.value 4) second second
  Drafting.load second x

theorem build_ok_iff_wellFormed_interleaved : ∃ f, interleaved.build = .ok f ∧
    interleaved.WellFormed ∧ f.Consistent ∧ f.label 0 = .ok "%bb0" ∧ f.label 1 = .ok "bb0" ∧
    f.instsOf 1 = .ok [0, 2, 4] ∧ f.successors 0 = .ok [1, 1] ∧ f.predecessors 1 = .ok [0] := by
  have built : interleaved.build = .ok interleaved.layout := rfl
  obtain ⟨accepted, consistent⟩ := build_ok_iff_wellFormed interleaved
  exact ⟨_, built, accepted.mp ⟨_, built⟩, (consistent _ built).1, rfl, rfl, rfl, rfl, rfl⟩

end Draft

end FlowGraph
