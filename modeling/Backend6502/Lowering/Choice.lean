import Backend6502.Lowering.Compare

/-!
# Choices and truth values

A condition is tested where it stands, and its outcome is made a number only where one is asked for.
A condition that is known in advance is never tested.
-/

namespace Backend6502.Lowering

open Source (Expr)

/-- Goes to a label if a condition is known to hold; runs the test if it is not known. -/
def unlessConstant (e : Expr) (test : Test) : Test := fun target negate => do
  match ← constant e with
  | some n => if (n != 0) != negate then emitJump target
  | none => test target negate

/-- One of two values by a condition, in the accumulator or in the scratch cell. -/
def choose (cond : Expr) (test : Test) (negate : Bool) (a b : Gen Place) : Gen Place := do
  match ← constant cond with
  | some n => if (n != 0) != negate then a else b
  | none => do
    let outer ← accInUse
    save outer
    setAccInUse false
    let n ← nextIf
    test (Label.otherwise n).text (!negate)
    let va ← a
    loadA va
    emitJump (Label.ifEnd n).text
    putLabel (Label.otherwise n).text
    let vb ← b
    loadA vb
    putLabel (Label.ifEnd n).text
    setAccInUse outer
    restore outer (va.signed || vb.signed)

def truthValue (cond : Expr) (test : Test) (negate : Bool) : Gen Place := do
  match ← constant cond with
  | some n => return .immediate (truth ((n != 0) != negate))
  | none => choose cond test negate (return .immediate 1) (return .immediate 0)

/-- An operand whose test compares its value with zero. -/
def Lowered.ofOperand (o : Operand) : Lowered :=
  { o with test := unlessConstant o.expr (compare .ne o (.int 0)) }

/-- An operand whose value is the outcome of its test. -/
def Lowered.ofTest (e : Expr) (test : Test) : Lowered where
  expr := e
  value := truthValue e (unlessConstant e test) false
  test := unlessConstant e test

def Lowered.not (o : Lowered) : Lowered where
  expr := .unary .not o.expr
  value := truthValue o.expr o.test true
  test := unlessConstant (.unary .not o.expr) fun target negate => o.test target (!negate)

/-- Both conditions have to hold: the second one is tested only if the first one leaves it open. -/
def bothTests (lhs rhs : Lowered) : Test := fun target negate => do
  let past := (Label.pastCond (← nextIf)).text
  lhs.test past (!negate)
  rhs.test target negate
  putLabel past

/-- Either condition is enough. -/
def eitherTest (lhs rhs : Lowered) : Test := fun target negate => do
  lhs.test target negate
  rhs.test target negate

def andTest (lhs rhs : Lowered) : Test := fun target negate =>
  if negate then eitherTest lhs rhs target negate else bothTests lhs rhs target negate

def orTest (lhs rhs : Lowered) : Test := fun target negate =>
  if negate then bothTests lhs rhs target negate else eitherTest lhs rhs target negate

end Backend6502.Lowering
