import Backend6502.Source.Stmt

/-!
# Calls

The names of the functions that expressions and statements call. Calls in assembler text are not
seen.
-/

namespace Backend6502.Source

mutual

def Expr.calls : Expr → List String
  | .call name args => name :: Expr.callsAll args
  | .binary _ lhs rhs => lhs.calls ++ rhs.calls
  | .unary _ operand => operand.calls
  | .incDec _ operand => operand.calls
  | .var _ index => index.calls
  | .absent | .nothing | .int _ => []

def Expr.callsAll : List Expr → List String
  | [] => []
  | e :: rest => e.calls ++ Expr.callsAll rest

end

mutual

def Stmt.calls : Stmt → List String
  | .block _ body => Stmt.callsAll body
  | .expr _ e => e.calls
  | .forLoop _ init cond update body => init.calls ++ cond.calls ++ update.calls ++ body.calls
  | .whileLoop _ cond body => cond.calls ++ body.calls
  | .doWhile _ body cond => body.calls ++ cond.calls
  | .ifElse _ cond thenBody none => cond.calls ++ thenBody.calls
  | .ifElse _ cond thenBody (some elseBody) => cond.calls ++ thenBody.calls ++ elseBody.calls
  | .switch _ selector arms => selector.calls ++ Stmt.callsArms arms
  | .ret _ value => value.calls
  | .strobe _ target => target.calls
  | .leave _ | .next _ | .asm _ _ | .goto _ _ => []

def Stmt.callsAll : List Stmt → List String
  | [] => []
  | s :: rest => s.calls ++ Stmt.callsAll rest

def Stmt.callsArms : List (Arm Stmt) → List String
  | [] => []
  | arm :: rest => Stmt.callsArm arm ++ Stmt.callsArms rest

def Stmt.callsArm : Arm Stmt → List String
  | ⟨_, _, body⟩ => Stmt.callsAll body

end

def Block.calls (b : Block) : List String :=
  Stmt.callsAll b.body

end Backend6502.Source
