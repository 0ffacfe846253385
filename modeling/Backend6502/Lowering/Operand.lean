import Backend6502.Lowering.Store

/-!
# Operands

An expression together with the code that computes it. Code for an operator is made from the code of
its operands, so each of the functions on operands stands for itself, and only `lower` recurses.
-/

namespace Backend6502.Lowering

open Source (Expr)

/-- An expression and the step that computes it. -/
structure Operand where
  expr : Expr
  value : Gen Place

def Operand.int (n : Int64) : Operand where
  expr := .int n
  value := return .immediate n

/-- A step that goes to a label if a condition holds or, if `negate` is set, if it does not. -/
abbrev Test := (target : String) → (negate : Bool) → Gen Unit

/-- An operand that can also be tested. -/
structure Lowered extends Operand where
  test : Test
  /-- The values on both sides of a colon. -/
  arms : Option (Gen Place × Gen Place) := none

def constant (e : Expr) : Gen (Option Int64) := do
  return constant? (← symbols) e

/-- Is an expression an addition or subtraction that is left to be computed? -/
def carries (e : Expr) : Gen Bool := do
  match e with
  | .binary op _ _ =>
    if op = .add || op = .sub then return (← constant e).isNone else return false
  | _ => return false

end Backend6502.Lowering
