import FlowGraph.Procedure.Draft

/-!
# Sample procedures

Three small procedures to try the analyses on.
-/

namespace FlowGraph

/-- The sample procedures. -/
inductive Sample where
  /-- Copies the source through a chain of variables, then overwrites some. -/
  | straight
  /-- A branch with arithmetic on both sides. -/
  | diamond
  /-- Counts a variable up to a hundred. -/
  | loop
  deriving DecidableEq

namespace Sample

open Drafting

/-- The draft of `straight`. -/
def straightDraft : Draft := .ofSteps "main" do
  let entry ← block "entry"
  let clear ← block "clear"
  let retval ← alloca entry "retval"
  let source ← alloca entry "source"
  let t ← alloca entry "t"
  let x ← alloca entry "x"
  let _ ← store entry (.const 0) retval
  let r0 ← load entry source
  let _ ← store entry (.value r0) t
  let r1 ← load entry t
  let r2 ← binary entry .add (.value r1) (.const 1)
  let _ ← store entry (.value r2) x
  let _ ← jump entry clear
  let _ ← store clear (.const 0) t
  let _ ← store clear (.const 0) source
  other clear

/-- The draft of `diamond`. -/
def diamondDraft : Draft := .ofSteps "main" do
  let entry ← block "entry"
  let thenBlock ← block "if.then"
  let elseBlock ← block "if.else"
  let final ← block "if.end"
  let retval ← alloca entry "retval"
  let a ← alloca entry "a"
  let b ← alloca entry "b"
  let x ← alloca entry "x"
  let _ ← store entry (.const 0) retval
  let _ ← store entry (.const 7) a
  let _ ← store entry (.const 3) b
  let r ← load entry a
  let c ← compare entry .sgt (.value r) (.const 0)
  let _ ← branch entry (.value c) thenBlock elseBlock
  let l1 ← load thenBlock a
  let l2 ← load thenBlock b
  let l3 ← binary thenBlock .sub (.value l1) (.value l2)
  let _ ← store thenBlock (.value l3) x
  let _ ← jump thenBlock final
  let r1 ← load elseBlock a
  let r2 ← load elseBlock b
  let r3 ← binary elseBlock .sub (.value r1) (.value r2)
  let r4 ← binary elseBlock .mul (.value r3) (.const 2)
  let _ ← store elseBlock (.value r4) x
  let _ ← jump elseBlock final
  other final

/-- The draft of `loop`. -/
def loopDraft : Draft := .ofSteps "main" do
  let entry ← block "entry"
  let cond ← block "while.cond"
  let body ← block "while.body"
  let final ← block "while.end"
  let retval ← alloca entry "retval"
  let i ← alloca entry "i"
  let s ← alloca entry "s"
  let _ ← store entry (.const 0) retval
  let _ ← store entry (.const 0) i
  let _ ← store entry (.const 0) s
  let _ ← jump entry cond
  let r ← load cond i
  let c ← compare cond .slt (.value r) (.const 100)
  let _ ← branch cond (.value c) body final
  let r1 ← load body i
  let r2 ← binary body .add (.value r1) (.const 1)
  let _ ← store body (.value r2) i
  let r3 ← load body s
  let r4 ← binary body .add (.value r3) (.const 2)
  let _ ← store body (.value r4) s
  let _ ← jump body cond
  other final

/-- The draft of a sample. -/
def draft : Sample → Draft
  | straight => straightDraft
  | diamond => diamondDraft
  | loop => loopDraft

end Sample

end FlowGraph
