import Backend6502.Lowering.Call

/-!
# Expressions

The code of an expression from the code of its parts.
-/

namespace Backend6502.Lowering

open Source (Op Expr)

def lowerUnary (op : Op) (operand : Lowered) : Lowered :=
  let e := Expr.unary op operand.expr
  match op with
  | .neg => .ofOperand ⟨e, arith .sub (.int 0) operand.toOperand⟩
  | .bitNot => .ofOperand ⟨e, arith .xor operand.toOperand (.int (-1))⟩
  | .not => operand.not
  | .deref => .ofOperand ⟨e, deref operand.expr⟩
  | op => .ofOperand ⟨e, fail (.unsupportedUnary op)⟩

/-- A question mark; its right operand has to be a pair of arms. -/
def chooseArms (cond : Lowered) (arms : Option (Gen Place × Gen Place)) : Gen Place :=
  match arms with
  | some (a, b) => choose cond.expr cond.test false a b
  | none => fail .malformedChoice

def lowerBinary (op : Op) (lhs rhs : Lowered) : Lowered :=
  let e := Expr.binary op lhs.expr rhs.expr
  match op with
  | .lt | .gt | .le | .ge | .eq | .ne => .ofTest e (compare op lhs.toOperand rhs.toOperand)
  | .logAnd => .ofTest e (andTest lhs rhs)
  | .logOr => .ofTest e (orTest lhs rhs)
  | .choice => .ofOperand ⟨e, chooseArms lhs rhs.arms⟩
  | .arms => { Lowered.ofOperand ⟨e, fail .strayArms⟩ with arms := some (lhs.value, rhs.value) }
  | op =>
    if op.isAssign then .ofOperand ⟨e, assign op lhs.toOperand rhs.toOperand⟩
    else .ofOperand ⟨e, arithOrShift op lhs.toOperand rhs.toOperand⟩

mutual

def lower : Expr → Lowered
  | .absent => .ofOperand ⟨.absent, return .nothing⟩
  | .nothing => .ofOperand ⟨.nothing, return .nothing⟩
  | .int value => .ofOperand (.int value)
  | .var name index => .ofOperand ⟨.var name index, readVariable name index⟩
  | .binary op lhs rhs => lowerBinary op (lower lhs) (lower rhs)
  | .unary op operand => lowerUnary op (lower operand)
  | .incDec op operand => .ofOperand ⟨.incDec op operand, incDec op (lower operand).toOperand⟩
  | .call name args => .ofOperand ⟨.call name args, call name (lowerAll args)⟩

def lowerAll : List Expr → List Operand
  | [] => []
  | e :: rest => (lower e).toOperand :: lowerAll rest

end

end Backend6502.Lowering
