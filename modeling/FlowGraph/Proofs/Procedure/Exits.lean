import FlowGraph.Proofs.Procedure.Graph
import Mathlib.Algebra.BigOperators.Group.Finset.Basic
import Mathlib.Algebra.Order.BigOperators.Group.Finset
import Mathlib.Data.List.Sort

/-!
# The search for exit blocks

The depth-first search ends and finds exactly the exit blocks.

It ends because a step either drops a block from the stack or marks a block and puts its successors
there.  The length of the stack and the number of edges out of unmarked blocks, taken together, go
down by one either way, and at the start they come to one more than there are edges.

What it finds follows from how the stack, the marked blocks and the leaves are related at every step
(`Searching`).  The marked blocks are reachable, and an edge out of one leads to a block that is
marked or on the stack.  The leaves are the marked blocks without successors, each once.  When the
stack is empty, every reachable block is marked (`Searching.done`).

The leaves come in the order in which the search meets them, so they are sorted
(`exitBlocks_exact`).
-/

namespace FlowGraph

namespace Procedure

variable {f : Procedure} {seen : Std.ExtTreeSet BlockId} {stack leaves : List BlockId}

/-! ## The edges that are left -/

/-- The number of edges out of a block. -/
def outDegree (f : Procedure) (b : BlockId) : Nat := (f.blocks[b]?.map (·.succs.length)).getD 0

theorem outDegree_eq {b : BlockId} {succs : List BlockId} (listed : f.successors b = .ok succs) :
    f.outDegree b = succs.length := by
  obtain ⟨block, found, same⟩ := bind_eq_ok_iff.mp listed
  cases pure_eq_ok_iff.mp same
  rw [outDegree, lookup_eq_ok_iff.mp found]
  rfl

/-- The number of edges out of blocks that are not marked. -/
def edgesLeft (f : Procedure) (seen : Std.ExtTreeSet BlockId) : Nat :=
  ∑ b ∈ Finset.range f.numBlocks with b ∉ seen, f.outDegree b

theorem foldl_succs_length (blocks : List Block) (start : Nat) :
    blocks.foldl (fun n b => n + b.succs.length) start =
      start + ∑ i ∈ Finset.range blocks.length, (blocks[i]?.map (·.succs.length)).getD 0 := by
  induction blocks generalizing start with
  | nil => simp
  | cons block rest ih =>
      rw [List.foldl_cons, ih, List.length_cons, Finset.sum_range_succ']
      simp only [List.getElem?_cons_succ, List.getElem?_cons_zero, Option.map_some,
        Option.getD_some]
      omega

theorem edgesLeft_empty : f.edgesLeft ∅ = f.numEdges := by
  rw [edgesLeft, numEdges, foldl_succs_length, Nat.zero_add, Array.length_toList]
  refine Finset.sum_congr ?_ fun b _ => ?_
  · ext b
    simp [numBlocks]
  · rw [outDegree, Array.getElem?_toList]

/-- Marking a block accounts for the edges out of it. -/
theorem edgesLeft_insert {b : BlockId} (inside : b < f.numBlocks) (unmarked : b ∉ seen) :
    f.edgesLeft seen = f.outDegree b + f.edgesLeft (seen.insert b) := by
  have rest : (Finset.range f.numBlocks).filter (· ∉ seen.insert b) =
      ((Finset.range f.numBlocks).filter (· ∉ seen)).erase b := by
    ext c
    simp only [Finset.mem_filter, Finset.mem_erase, Std.ExtTreeSet.mem_insert, Nat.compare_eq_eq,
      not_or, eq_comm (a := b), ne_eq]
    tauto
  have member : b ∈ (Finset.range f.numBlocks).filter (· ∉ seen) :=
    Finset.mem_filter.mpr ⟨Finset.mem_range.mpr inside, unmarked⟩
  rw [edgesLeft, edgesLeft, rest, Finset.add_sum_erase _ _ member]

/-! ## What is known during the search -/

/-- How the stack, the marked blocks and the leaves are related. -/
structure Searching (f : Procedure) (stack : List BlockId) (seen : Std.ExtTreeSet BlockId)
    (leaves : List BlockId) : Prop where
  /-- What is on the stack is reachable. -/
  ahead : ∀ b ∈ stack, f.Reachable b
  /-- What is marked is reachable. -/
  marked : ∀ b ∈ seen, f.Reachable b
  /-- The entry is marked or on the stack. -/
  entry : f.entry ∈ seen ∨ f.entry ∈ stack
  /-- What comes after a marked block is marked or on the stack. -/
  edges : ∀ b c, b ∈ seen → f.Edge b c → c ∈ seen ∨ c ∈ stack
  /-- The leaves are the marked blocks without successors. -/
  leaf : ∀ b, b ∈ leaves ↔ b ∈ seen ∧ f.successors b = .ok []
  /-- No leaf is found twice. -/
  once : leaves.Nodup

theorem mem_insert_iff {b c : BlockId} : c ∈ seen.insert b ↔ c = b ∨ c ∈ seen := by
  rw [Std.ExtTreeSet.mem_insert, Nat.compare_eq_eq, eq_comm]

/-- Marking a block adds it to the leaves exactly if it has no successors. -/
theorem mem_leaves_iff {b c : BlockId} {succs : List BlockId} :
    c ∈ (if succs.isEmpty then leaves ++ [b] else leaves) ↔ c ∈ leaves ∨ c = b ∧ succs = [] := by
  cases succs with
  | nil => simp
  | cons next succs => simp

namespace Searching

theorem start (f : Procedure) : f.Searching [f.entry] ∅ [] where
  ahead := by simpa using reachable_entry
  marked := by simp
  entry := .inr List.mem_cons_self
  edges := by simp
  leaf := by simp
  once := .nil

/-- A marked block is dropped from the stack, and nothing is lost with it. -/
theorem skip {b : BlockId} (searching : f.Searching (b :: stack) seen leaves) (marked : b ∈ seen) :
    f.Searching stack seen leaves := by
  have kept : ∀ c, c ∈ seen ∨ c ∈ b :: stack → c ∈ seen ∨ c ∈ stack := by
    rintro c (old | member)
    · exact .inl old
    · rcases List.mem_cons.mp member with rfl | later
      · exact .inl marked
      · exact .inr later
  exact { searching with
    ahead := fun c member => searching.ahead c (List.mem_cons_of_mem b member)
    entry := kept _ searching.entry
    edges := fun c c' member edge => kept c' (searching.edges c c' member edge) }

/-- A block is marked and makes way for its successors.  Without any, it is a leaf. -/
theorem mark {b : BlockId} {succs : List BlockId}
    (searching : f.Searching (b :: stack) seen leaves) (unmarked : b ∉ seen)
    (listed : f.successors b = .ok succs) : f.Searching (succs.reverse ++ stack) (seen.insert b)
      (if succs.isEmpty then leaves ++ [b] else leaves) := by
  have here : f.Reachable b := searching.ahead b List.mem_cons_self
  have kept : ∀ c, c ∈ seen ∨ c ∈ b :: stack → c ∈ seen.insert b ∨ c ∈ succs.reverse ++ stack := by
    rintro c (old | member)
    · exact .inl (mem_insert_iff.mpr (.inr old))
    · rcases List.mem_cons.mp member with rfl | later
      · exact .inl (mem_insert_iff.mpr (.inl rfl))
      · exact .inr (List.mem_append_right _ later)
  refine ⟨?ahead, ?marked, kept _ searching.entry, ?edges, ?leaf, ?once⟩
  case ahead =>
    intro c member
    rcases List.mem_append.mp member with new | old
    · exact here.step ⟨succs, listed, List.mem_reverse.mp new⟩
    · exact searching.ahead c (List.mem_cons_of_mem b old)
  case marked =>
    intro c member
    rcases mem_insert_iff.mp member with rfl | old
    · exact here
    · exact searching.marked c old
  case edges =>
    intro c c' member edge
    rcases mem_insert_iff.mp member with rfl | old
    · obtain ⟨succs', listed', target⟩ := edge
      rw [listed] at listed'
      cases listed'
      exact .inr (List.mem_append_left _ (List.mem_reverse.mpr target))
    · exact kept c' (searching.edges c c' old edge)
  case leaf =>
    intro c
    rw [mem_leaves_iff, mem_insert_iff, searching.leaf]
    constructor
    · rintro (⟨old, isLeaf⟩ | ⟨rfl, rfl⟩)
      · exact ⟨.inr old, isLeaf⟩
      · exact ⟨.inl rfl, listed⟩
    · rintro ⟨rfl | old, isLeaf⟩
      · rw [listed] at isLeaf
        exact .inr ⟨rfl, Except.ok.inj isLeaf⟩
      · exact .inl ⟨old, isLeaf⟩
  case once =>
    cases succs with
    | nil =>
        have fresh : b ∉ leaves := fun member => unmarked ((searching.leaf b).mp member).1
        rw [List.isEmpty_nil, if_pos rfl, ← List.concat_eq_append, List.nodup_concat]
        exact ⟨fresh, searching.once⟩
    | cons next succs => exact searching.once

/-- At the end the leaves are the exits. -/
theorem done (searching : f.Searching [] seen leaves) (b : BlockId) :
    b ∈ leaves ↔ f.IsExit b := by
  have marked : ∀ b, f.Reachable b → b ∈ seen := by
    rintro b ⟨before, path⟩
    induction path with
    | entry => simpa using searching.entry
    | step path listed member ih => simpa using searching.edges _ _ ih ⟨_, listed, member⟩
  rw [searching.leaf, IsExit]
  exact and_congr_left fun _ => ⟨searching.marked b, marked b⟩

end Searching

/-! ## The search -/

/-- What a step does with a block that is not marked. -/
theorem search_mark {b : BlockId} {succs : List BlockId} {steps : Nat} (unmarked : b ∉ seen)
    (listed : f.successors b = .ok succs) : f.search (steps + 1) (b :: stack) seen leaves =
      f.search steps (succs.reverse ++ stack) (seen.insert b)
        (if succs.isEmpty then leaves ++ [b] else leaves) := by
  rw [search, if_neg unmarked, listed]
  cases succs with
  | nil => rfl
  | cons c succs => rfl

/-- With enough steps the search ends, and it has found the exits, each once. -/
theorem Closed.search_ends (closed : f.Closed) {steps : Nat}
    (searching : f.Searching stack seen leaves)
    (enough : stack.length + f.edgesLeft seen ≤ steps) :
    ∃ found, f.search steps stack seen leaves = .ok found ∧ found.Nodup ∧
      ∀ b, b ∈ found ↔ f.IsExit b := by
  induction steps generalizing stack seen leaves with
  | zero =>
      have empty : stack = [] := List.length_eq_zero_iff.mp (by omega)
      subst empty
      exact ⟨leaves, by rw [search], searching.once, searching.done⟩
  | succ steps ih =>
      cases stack with
      | nil => exact ⟨leaves, by rw [search], searching.once, searching.done⟩
      | cons b stack =>
          rw [List.length_cons] at enough
          by_cases marked : b ∈ seen
          · rw [search, if_pos marked]
            exact ih (searching.skip marked) (by omega)
          · have inside := closed.lt_of_reachable (searching.ahead b List.mem_cons_self)
            obtain ⟨succs, listed, -⟩ := closed.succs b inside
            have left := edgesLeft_insert inside marked
            rw [outDegree_eq listed] at left
            rw [search_mark marked listed]
            refine ih (searching.mark marked listed) ?_
            rw [List.length_append, List.length_reverse]
            omega

/-! ## Sorting -/

theorem insertId_eq (b : BlockId) (ids : List BlockId) :
    insertId b ids = ids.orderedInsert (· ≤ ·) b := by
  induction ids with
  | nil => rfl
  | cons c rest ih => rw [insertId, List.orderedInsert_cons, ih]

theorem sortIds_eq (ids : List BlockId) : sortIds ids = ids.insertionSort (· ≤ ·) := by
  induction ids with
  | nil => rfl
  | cons b ids ih =>
      rw [sortIds, List.foldr_cons, ← sortIds, ih, insertId_eq, List.insertionSort_cons]

theorem mem_sortIds {b : BlockId} {ids : List BlockId} : b ∈ sortIds ids ↔ b ∈ ids := by
  rw [sortIds_eq, List.mem_insertionSort]

/-- Without repetitions, sorted ids ascend strictly. -/
theorem sortIds_ascending {ids : List BlockId} (once : ids.Nodup) :
    (sortIds ids).Pairwise (· < ·) := by
  have ordered : (sortIds ids).Pairwise (· ≤ ·) := by
    rw [sortIds_eq]
    exact List.pairwise_insertionSort _ _
  have differ : (sortIds ids).Nodup := by
    rw [sortIds_eq]
    exact (List.perm_insertionSort _ _).nodup_iff.mpr once
  exact ordered.imp₂ (fun _ _ => Nat.lt_of_le_of_ne) differ

/-! ## Exit blocks -/

theorem Closed.exitBlocks (closed : f.Closed) : ∃ exits, f.exitBlocks = .ok exits ∧
    exits.Pairwise (· < ·) ∧ ∀ b, b ∈ exits ↔ f.IsExit b := by
  have enough : [f.entry].length + f.edgesLeft ∅ ≤ f.numEdges + 1 := by
    rw [edgesLeft_empty, List.length_singleton]
    omega
  obtain ⟨found, searched, once, members⟩ := closed.search_ends (.start f) enough
  refine ⟨sortIds found, bind_eq_ok_iff.mpr ⟨found, searched, rfl⟩, sortIds_ascending once, ?_⟩
  intro b
  rw [mem_sortIds, members]

/-- On every built procedure the search for exit blocks ends.  It lists exactly the blocks that can
be reached from the entry and have no successors, in strictly ascending order. -/
theorem exitBlocks_exact {d : Draft} (built : d.build = .ok f) :
    ∃ exits, f.exitBlocks = .ok exits ∧ exits.Pairwise (· < ·) ∧
      ∀ b, b ∈ exits ↔ f.Reachable b ∧ f.successors b = .ok [] := by
  exact (closed_of_build built).exitBlocks

/-- Both edges of the entry lead to a block that may repeat itself.  It leaves for the later of two
blocks without successors before the earlier one, and a third one cannot be reached. -/
def knottedDraft : Draft := .ofSteps "main" do
  let entry ← Drafting.block "entry"
  let first ← Drafting.block "first"
  let second ← Drafting.block "second"
  let again ← Drafting.block "again"
  let choice ← Drafting.block "choice"
  let _ ← Drafting.block "stray"
  let _ ← Drafting.branch entry (.const 1) again again
  let _ ← Drafting.branch again (.const 0) again choice
  Drafting.branch choice (.const 1) second first

/-- The stray block has no successors either, and it is not listed. -/
theorem exitBlocks_exact_knotted : ∃ f, knottedDraft.build = .ok f ∧ f.exitBlocks = .ok [1, 2] ∧
    (f.Reachable 1 ∧ f.Reachable 2) ∧ f.successors 5 = .ok [] ∧ ¬ f.Reachable 5 := by
  have built : knottedDraft.build = .ok knottedDraft.layout := rfl
  have isList : knottedDraft.layout.exitBlocks = .ok [1, 2] := by decide +kernel
  have isLeaf : knottedDraft.layout.successors 5 = .ok [] := rfl
  obtain ⟨exits, listed, -, members⟩ := exitBlocks_exact built
  cases isList.symm.trans listed
  refine ⟨_, built, isList, ⟨((members 1).mp (by decide)).1, ((members 2).mp (by decide)).1⟩,
    isLeaf, fun reachable => ?_⟩
  have member := (members 5).mpr ⟨reachable, isLeaf⟩
  simp at member

end Procedure

end FlowGraph
