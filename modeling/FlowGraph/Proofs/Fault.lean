import FlowGraph.Fault

/-!
# Computations that end normally

A computation made of parts ends normally exactly if its parts do.  These are the rules by which
later modules take a computation apart: for a part that comes first, for a result that is mapped,
for a check of all entries of a list, for a state that is carried over them, and for a list of
their results, which has one result per entry in the same order.

A computation that may stop can still be in range: it looks up nothing that is not there
(`InRange`).
-/

namespace FlowGraph

variable {ε α β : Type}

theorem bind_eq_ok_iff {x : Except ε α} {next : α → Except ε β} {r : β} :
    x >>= next = .ok r ↔ ∃ a, x = .ok a ∧ next a = .ok r := by
  cases x with
  | ok a => simp [bind, Except.bind]
  | error e => simp [bind, Except.bind]

theorem bind_returns {x : Except ε α} {next : α → Except ε β} (first : ∃ a, x = .ok a)
    (others : ∀ a, x = .ok a → ∃ r, next a = .ok r) : ∃ r, x >>= next = .ok r := by
  obtain ⟨a, found⟩ := first
  obtain ⟨r, next⟩ := others a found
  exact ⟨r, bind_eq_ok_iff.mpr ⟨a, found, next⟩⟩

theorem pure_eq_ok_iff {a r : α} : (pure a : Except ε α) = .ok r ↔ a = r := by
  simp [pure, Except.pure]

theorem map_eq_ok_iff {x : Except ε α} {g : α → β} {r : β} :
    x.map g = .ok r ↔ ∃ a, x = .ok a ∧ g a = r := by
  cases x with
  | ok a => simp [Except.map]
  | error e => simp [Except.map]

/-- A test of the outcome that passes says that there is one. -/
theorem exists_ok_of_any {x : Except ε α} {test : α → Bool} (passes : x.toOption.any test = true) :
    ∃ a, x = .ok a ∧ test a = true := by
  cases x with
  | ok a => exact ⟨a, rfl, passes⟩
  | error e => cases passes

/-- A check of a whole list passes exactly if it passes at every entry. -/
theorem forM_eq_ok_iff {check : α → Except ε Unit} {xs : List α} :
    xs.forM check = .ok () ↔ ∀ x ∈ xs, check x = .ok () := by
  induction xs with
  | nil => simp [List.forM, pure, Except.pure]
  | cons x xs ih =>
      simp only [List.forM_eq_forM] at ih
      simp only [List.forM_eq_forM, List.forM_cons, bind_eq_ok_iff, List.forall_mem_cons, ih]
      constructor
      · rintro ⟨⟨⟩, first, others⟩
        exact ⟨first, others⟩
      · rintro ⟨first, others⟩
        exact ⟨⟨⟩, first, others⟩

theorem foldlM_cons_eq_ok {step : β → α → Except ε β} {x : α} {xs : List α} {s s' r : β}
    (first : step s x = .ok s') (folded : xs.foldlM step s' = .ok r) :
    (x :: xs).foldlM step s = .ok r := by
  rw [List.foldlM_cons]
  exact bind_eq_ok_iff.mpr ⟨s', first, folded⟩

/-- What every step keeps, the whole list keeps. -/
theorem foldlM_keeps {P : β → Prop} {step : β → α → Except ε β} {xs : List α} {s r : β}
    (steps : ∀ s x s', x ∈ xs → P s → step s x = .ok s' → P s') (start : P s)
    (folded : xs.foldlM step s = .ok r) : P r := by
  induction xs generalizing s with
  | nil =>
      cases folded
      exact start
  | cons x xs ih =>
      rw [List.foldlM_cons, bind_eq_ok_iff] at folded
      obtain ⟨s', first, folded⟩ := folded
      exact ih (fun s x s' member => steps s x s' (List.mem_cons_of_mem _ member))
        (steps s x s' List.mem_cons_self start first) folded

/-- If every step ends normally and keeps what the next one needs, then so does the whole list. -/
theorem foldlM_returns {P : β → Prop} {step : β → α → Except ε β} {xs : List α} {s : β}
    (steps : ∀ s x, x ∈ xs → P s → ∃ s', step s x = .ok s' ∧ P s') (start : P s) :
    ∃ r, xs.foldlM step s = .ok r ∧ P r := by
  induction xs generalizing s with
  | nil => exact ⟨s, rfl, start⟩
  | cons x xs ih =>
      obtain ⟨s', first, next⟩ := steps s x List.mem_cons_self start
      obtain ⟨r, folded, last⟩ :=
        ih (fun s x member => steps s x (List.mem_cons_of_mem _ member)) next
      exact ⟨r, foldlM_cons_eq_ok first folded, last⟩

/-- A state that is changed at every entry, after a check of the entry. -/
theorem foldlM_checked_eq_ok_iff {check : α → Except ε Unit} {next : β → α → β} {xs : List α}
    {s r : β} : xs.foldlM (fun s x => do check x; return next s x) s = .ok r ↔
      (∀ x ∈ xs, check x = .ok ()) ∧ xs.foldl next s = r := by
  induction xs generalizing s with
  | nil => simp [pure_eq_ok_iff]
  | cons x xs ih =>
      simp only [List.foldlM_cons, bind_eq_ok_iff, pure_eq_ok_iff, List.forall_mem_cons,
        List.foldl_cons]
      constructor
      · rintro ⟨_, ⟨⟨⟩, first, rfl⟩, folded⟩
        obtain ⟨others, same⟩ := ih.mp folded
        exact ⟨⟨first, others⟩, same⟩
      · rintro ⟨⟨first, others⟩, same⟩
        exact ⟨_, ⟨(), first, rfl⟩, ih.mpr ⟨others, same⟩⟩

theorem mapM_cons_eq_ok_iff {g : α → Except ε β} {x : α} {xs : List α} {ys : List β} :
    (x :: xs).mapM g = .ok ys ↔
      ∃ first others, g x = .ok first ∧ xs.mapM g = .ok others ∧ first :: others = ys := by
  simp only [List.mapM_cons, bind_eq_ok_iff, pure_eq_ok_iff, exists_and_left]

/-- The results of entries that are all checked and then changed. -/
theorem mapM_checked_eq_ok_iff {P : α → Prop} {next : α → β} {g : α → Except ε β} {xs : List α}
    {ys : List β} (each : ∀ x ∈ xs, ∀ y, g x = .ok y ↔ P x ∧ next x = y) :
    xs.mapM g = .ok ys ↔ (∀ x ∈ xs, P x) ∧ xs.map next = ys := by
  induction xs generalizing ys with
  | nil => simp [pure_eq_ok_iff]
  | cons x xs ih =>
      obtain ⟨here, later⟩ := List.forall_mem_cons.mp each
      simp only [mapM_cons_eq_ok_iff, here, ih later, List.forall_mem_cons, List.map_cons]
      constructor
      · rintro ⟨_, _, ⟨first, rfl⟩, ⟨others, rfl⟩, rfl⟩
        exact ⟨⟨first, others⟩, rfl⟩
      · rintro ⟨⟨first, others⟩, rfl⟩
        exact ⟨_, _, ⟨first, rfl⟩, ⟨others, rfl⟩, rfl⟩

/-- If every entry of a list has a good result, then all results are found and are good. -/
theorem mapM_returns_all {P : β → Prop} {g : α → Except ε β} {xs : List α}
    (each : ∀ x ∈ xs, ∃ y, g x = .ok y ∧ P y) : ∃ ys, xs.mapM g = .ok ys ∧ ∀ y ∈ ys, P y := by
  induction xs with
  | nil => exact ⟨[], rfl, by simp⟩
  | cons x xs ih =>
      obtain ⟨y, first, good⟩ := each x List.mem_cons_self
      obtain ⟨ys, others, all⟩ := ih fun x member => each x (List.mem_cons_of_mem _ member)
      exact ⟨y :: ys, mapM_cons_eq_ok_iff.mpr ⟨y, ys, first, others, rfl⟩,
        List.forall_mem_cons.mpr ⟨good, all⟩⟩

theorem mapM_returns {g : α → Except ε β} {xs : List α} (each : ∀ x ∈ xs, ∃ y, g x = .ok y) :
    ∃ ys, xs.mapM g = .ok ys := by
  obtain ⟨ys, mapped, -⟩ := mapM_returns_all (P := fun _ => True) fun x member =>
    (each x member).imp fun y found => ⟨found, trivial⟩
  exact ⟨ys, mapped⟩

/-- The results of a list are those of its entries. -/
theorem mem_mapM_iff {g : α → Except ε β} {xs : List α} {ys : List β}
    (mapped : xs.mapM g = .ok ys) {y : β} : y ∈ ys ↔ ∃ x ∈ xs, g x = .ok y := by
  induction xs generalizing ys with
  | nil =>
      cases mapped
      simp
  | cons x xs ih =>
      obtain ⟨first, others, found, rest, rfl⟩ := mapM_cons_eq_ok_iff.mp mapped
      simp [ih rest, found, eq_comm]

/-- The results of a list are in order if those of two entries in order are. -/
theorem pairwise_mapM {R : α → α → Prop} {S : β → β → Prop} {g : α → Except ε β} {xs : List α}
    {ys : List β} (mapped : xs.mapM g = .ok ys)
    (keeps : ∀ x x' y y', R x x' → g x = .ok y → g x' = .ok y' → S y y')
    (ordered : xs.Pairwise R) : ys.Pairwise S := by
  induction xs generalizing ys with
  | nil =>
      cases mapped
      exact .nil
  | cons x xs ih =>
      obtain ⟨before, ordered⟩ := List.pairwise_cons.mp ordered
      obtain ⟨first, others, found, rest, rfl⟩ := mapM_cons_eq_ok_iff.mp mapped
      refine .cons (fun y member => ?_) (ih rest ordered)
      obtain ⟨x', there, found'⟩ := (mem_mapM_iff rest).mp member
      exact keeps x x' first y (before x' there) found found'

/-! ## Lookups -/

/-- The computation does not stop on an id that names nothing. -/
def InRange (x : Except Fault α) : Prop := ∀ size index, x ≠ .error (.outOfRange size index)

namespace InRange

theorem ok {x : Except Fault α} {a : α} (returns : x = .ok a) : InRange x := by
  intro size index stops
  rw [returns] at stops
  cases stops

theorem bind {x : Except Fault α} {next : α → Except Fault β} (first : InRange x)
    (others : ∀ a, x = .ok a → InRange (next a)) : InRange (x >>= next) := by
  cases x with
  | ok a => exact others a rfl
  | error fault => exact fun size index stops => first size index (by cases stops; rfl)

/-- A computation that stops where another does is in range with it. -/
theorem of_same_fault {x : Except Fault α} {y : Except Fault β} {fault : Fault} (first : InRange x)
    (stops : x = .error fault) (stops' : y = .error fault) : InRange y := by
  intro size index stopped
  rw [stops'] at stopped
  cases stopped
  exact first size index stops

/-- A state that is carried over a list stays in range if every step does. -/
theorem foldlM {P : β → Prop} {step : β → α → Except Fault β} {xs : List α} {s : β}
    (steps : ∀ s x, x ∈ xs → P s → InRange (step s x) ∧ ∀ s', step s x = .ok s' → P s')
    (start : P s) : InRange (xs.foldlM step s) := by
  induction xs generalizing s with
  | nil => exact ok rfl
  | cons x xs ih =>
      obtain ⟨first, keeps⟩ := steps s x List.mem_cons_self start
      rw [List.foldlM_cons]
      refine first.bind fun s' stepped => ?_
      exact ih (fun s x member => steps s x (List.mem_cons_of_mem _ member)) (keeps s' stepped)

end InRange

end FlowGraph
