import Backend6502.Symbols.Table

/-!
# Constants

Expressions of literals and constants have a value that is known in advance. Numbers have 64 bits
and wrap around. A shift by 64 or more, or by a negative amount, leaves nothing but the sign.
-/

namespace Backend6502.Lowering

open Source (Op Expr)
open Symbols (Table)

inductive FoldProblem where
  | divisionByZero
  | notFoldable (op : Op)
  deriving DecidableEq, Repr

def FoldProblem.message : FoldProblem → String
  | .divisionByZero => "division by zero"
  | .notFoldable op => "operator " ++ op.text ++ " cannot be folded"

def truth (b : Bool) : Int64 :=
  if b then 1 else 0

def shiftLeft (n amount : Int64) : Int64 :=
  if 0 ≤ amount ∧ amount < 64 then n <<< amount else 0

def shiftRight (n amount : Int64) : Int64 :=
  if 0 ≤ amount ∧ amount < 64 then n >>> amount else if n < 0 then -1 else 0

def fold (op : Op) (l r : Int64) : Except FoldProblem Int64 :=
  match op with
  | .add => .ok (l + r)
  | .sub => .ok (l - r)
  | .mul => .ok (l * r)
  | .div => if r = 0 then .error .divisionByZero else .ok (l / r)
  | .mod => if r = 0 then .error .divisionByZero else .ok (l % r)
  | .and => .ok (l &&& r)
  | .or => .ok (l ||| r)
  | .xor => .ok (l ^^^ r)
  | .shl => .ok (shiftLeft l r)
  | .shr => .ok (shiftRight l r)
  | .lt => .ok (truth (l < r))
  | .gt => .ok (truth (r < l))
  | .le => .ok (truth (l ≤ r))
  | .ge => .ok (truth (r ≤ l))
  | .eq => .ok (truth (l == r))
  | .ne => .ok (truth (l != r))
  | .logAnd => .ok (truth (l != 0 && r != 0))
  | .logOr => .ok (truth (l != 0 || r != 0))
  | op => .error (.notFoldable op)

def foldUnary? (op : Op) (n : Int64) : Option Int64 :=
  match op with
  | .neg => some (-n)
  | .bitNot => some (~~~ n)
  | .not => some (truth (n == 0))
  | _ => none

def constantVariable? (table : Table) (name : String) : Option Int64 :=
  match table.getVariable? name with
  | some v => if v.isConst && !(0 < v.length) then some v.value else none
  | none => none

/-- The value of an expression that is known in advance. -/
def constant? (table : Table) : Expr → Option Int64
  | .int value => some value
  | .var name .absent => constantVariable? table name
  | .unary op operand =>
    match constant? table operand with
    | some n => foldUnary? op n
    | none => none
  | .binary .choice cond (.binary _ a b) =>
    match constant? table cond with
    | some c => if c ≠ 0 then constant? table a else constant? table b
    | none => none
  | .binary op lhs rhs =>
    if op = .choice || op.isAssign || op = .arms then none
    else match constant? table lhs, constant? table rhs with
      | some l, some r => (fold op l r).toOption
      | _, _ => none
  | _ => none

end Backend6502.Lowering
