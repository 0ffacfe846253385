import Backend6502.Lowering.Arith

/-!
# Comparisons

A comparison puts one value into a register and compares it with the other one. A test against zero
needs no compare if the flags already show the value. Signed order is read from the sign flag and
unsigned order from the carry.
-/

namespace Backend6502.Lowering

open Cpu (Mnemonic)
open Source (Op)

def swapped : Op → Op
  | .lt => .gt
  | .gt => .lt
  | .le => .ge
  | .ge => .le
  | op => op

/-- The comparison that holds exactly if the other one does not. -/
def negated : Op → Op
  | .lt => .ge
  | .ge => .lt
  | .gt => .le
  | .le => .gt
  | .eq => .ne
  | .ne => .eq
  | op => op

/-- Branches that go to a label if the last compare came out as asked. -/
def branchOn (op : Op) (signed : Bool) (target : String) : Gen Unit := do
  let less : Mnemonic := if signed then .bmi else .bcc
  let notLess : Mnemonic := if signed then .bpl else .bcs
  match op with
  | .eq => emitBranch .beq target
  | .ne => emitBranch .bne target
  | .lt => emitBranch less target
  | .ge => emitBranch notLess target
  | .le => do
    emitBranch less target
    emitBranch .beq target
  | .gt => do
    let here ← nextHere
    emitBranch .beq here
    emitBranch notLess target
    putLabel here
  | op => throw (.defect (.notAComparison op.text))

def compareOf? : Place → Option Mnemonic
  | .accumulator _ => some .cmp
  | .x => some .cpx
  | .y => some .cpy
  | _ => none

/-- Two values and the comparison between them. -/
structure Comparison where
  op : Op
  l : Place
  r : Place

namespace Comparison

def swap (c : Comparison) : Comparison :=
  ⟨swapped c.op, c.r, c.l⟩

/-- Puts a register on the left if there is one, the accumulator first, and frees the right side. -/
def arrange (c : Comparison) : Gen Comparison := do
  if c.r.isRegister then
    let c := if !c.l.isRegister || c.r.isAccumulator then c.swap else c
    if c.r.isRegister then return { c with r := ← spill c.r } else return c
  else return c

/-- Is it a test against zero that the flags alone can answer? -/
def isZeroTest (c : Comparison) (signed : Bool) : Bool :=
  c.r == .immediate 0 && (c.op == .eq || c.op == .ne || signed)

/-- Does the left side have to go to the accumulator? -/
def needsLoad (c : Comparison) (deferred : Bool) : Bool :=
  !c.l.isRegister || (deferred && !c.l.isAccumulator) || (!c.l.isAccumulator && c.r.isIndexed)

/--
Makes the left side ready for a compare. The answer says whether the flags already show the outcome,
so that no compare is needed.
-/
def stage (c : Comparison) (signed : Bool) : Gen (Comparison × Bool) := do
  let deferred := !(← get).deferred.isEmpty
  let zeroTest := c.isZeroTest signed
  if zeroTest && !deferred && (← get).flags.shows c.l then return (c, true)
  else if c.needsLoad deferred then do
    if ← accInUse then fail .tooComplex
    loadA c.l
    return ({ c with l := .accumulator c.l.signed }, zeroTest && !deferred)
  else return (c, false)

/-- Does what was put off while the left side waits; `outer` says what was in use before. -/
def settle (c : Comparison) (outer : Bool) : Gen Unit := do
  if c.l.isAccumulator then setAccInUse true
  flush
  setAccInUse outer

def compareSides (c : Comparison) : Gen Unit :=
  match compareOf? c.l with
  | some m => Lowering.emit m c.r
  | none => return

/-- Makes the flags answer the comparison; its sides may have been swapped. -/
def answer (c : Comparison) (signed : Bool) : Gen Op := do
  let outer ← accInUse
  let c ← c.arrange
  let (c, shown) ← c.stage signed
  c.settle outer
  if !shown then c.compareSides
  return c.op

def emit (c : Comparison) (target : String) (negate : Bool) : Gen Unit := do
  let signed := c.l.signed || c.r.signed
  let op ← c.answer signed
  branchOn (if negate then negated op else op) signed target

end Comparison

def compareValues (op : Op) (l r : Place) (target : String) (negate : Bool) : Gen Unit := do
  if l.isNothing || r.isNothing then fail .valuelessComparison
  match l, r with
  | .immediate a, .immediate b =>
    let holds := (fold op a b).toOption.getD 0 != 0
    if holds != negate then emitJump target
  | .immediate _, _ => Comparison.emit (Comparison.swap ⟨op, l, r⟩) target negate
  | _, _ => Comparison.emit ⟨op, l, r⟩ target negate

def compare (op : Op) (lhs rhs : Operand) : Test := fun target negate => do
  if ← isWide lhs.expr then fail .wideComparison
  if ← isWide rhs.expr then fail .wideComparison
  withHigh false do
    let (l, r) ← bothValues lhs rhs
    compareValues op l r target negate

end Backend6502.Lowering
