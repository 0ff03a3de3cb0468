/-!
# Extended integers

An extended integer is an integer, one of the two infinities, or `undefined`.  The defined values
are ordered in the usual way, with the infinities at the two ends.  `undefined` is the outcome of
an operation that has no value.  It equals itself and compares with nothing else, so not every two
values compare and `cmp?` answers with an option.

The order relations follow `cmp?`.  In particular `undefined ≤ undefined` holds, and `a ≤ b` fails
when exactly one side is `undefined`.
-/

namespace FlowGraph

/-- An integer, an infinity, or no value. -/
inductive ExtInt where
  /-- The value below every integer. -/
  | negInf
  /-- An integer. -/
  | fin (n : Int)
  /-- The value above every integer. -/
  | posInf
  /-- No value. -/
  | undefined
  deriving DecidableEq, Inhabited

namespace ExtInt

/-! ## Order -/

/-- How two values compare.  `undefined` compares with itself only. -/
def cmp? : ExtInt → ExtInt → Option Ordering
  | undefined, undefined => some .eq
  | undefined, _ => none
  | _, undefined => none
  | negInf, negInf => some .eq
  | posInf, posInf => some .eq
  | negInf, _ => some .lt
  | _, posInf => some .lt
  | _, negInf => some .gt
  | posInf, _ => some .gt
  | fin a, fin b => some (compare a b)

instance : LT ExtInt := ⟨fun a b => a.cmp? b = some .lt⟩

instance : LE ExtInt := ⟨fun a b => a.cmp? b = some .lt ∨ a.cmp? b = some .eq⟩

instance (a b : ExtInt) : Decidable (a < b) :=
  inferInstanceAs (Decidable (a.cmp? b = some .lt))

instance (a b : ExtInt) : Decidable (a ≤ b) :=
  inferInstanceAs (Decidable (a.cmp? b = some .lt ∨ a.cmp? b = some .eq))

/-- The smaller of two values, and `undefined` when they do not compare. -/
instance : Min ExtInt where
  min a b :=
    match a.cmp? b with
    | some .gt => b
    | some _ => a
    | none => undefined

/-- The larger of two values, and `undefined` when they do not compare. -/
instance : Max ExtInt where
  max a b :=
    match a.cmp? b with
    | some .lt => b
    | some _ => a
    | none => undefined

/-- The smallest of some values.  There is none in the empty list. -/
def minOf : List ExtInt → ExtInt
  | [] => undefined
  | a :: rest => rest.foldl min a

/-- The largest of some values.  There is none in the empty list. -/
def maxOf : List ExtInt → ExtInt
  | [] => undefined
  | a :: rest => rest.foldl max a

/-! ## Parts -/

/-- Whether there is no value. -/
def isUndefined (a : ExtInt) : Bool := a == undefined

/-- Whether the value is an infinity. -/
def isInf (a : ExtInt) : Bool := a == posInf || a == negInf

/-- The integer, if the value is one. -/
def toInt? : ExtInt → Option Int
  | fin n => some n
  | _ => none

/-- The sign of a defined value: `-1`, `0` or `1`. -/
def sign? : ExtInt → Option Int
  | negInf => some (-1)
  | fin n => some n.sign
  | posInf => some 1
  | undefined => none

/-- The infinity of a sign.  Zero counts as positive. -/
def infinity (sign : Int) : ExtInt := if sign < 0 then negInf else posInf

/-- The text of a value: a decimal, `INF`, `-INF` or `UNDEF`. -/
def text : ExtInt → String
  | negInf => "-INF"
  | fin n => toString n
  | posInf => "INF"
  | undefined => "UNDEF"

instance : ToString ExtInt := ⟨text⟩

/-! ## The order on integers -/

@[simp] theorem fin_lt_fin {a b : Int} : fin a < fin b ↔ a < b := by
  simp only [LT.lt, cmp?, Option.some.injEq]
  exact Int.compare_eq_lt

@[simp] theorem fin_le_fin {a b : Int} : fin a ≤ fin b ↔ a ≤ b := by
  simp only [LE.le, cmp?, Option.some.injEq, Int.compare_eq_lt, Int.compare_eq_eq]
  exact Int.le_iff_lt_or_eq.symm

end ExtInt

end FlowGraph
