import Backend6502.Source.Op

/-!
# Expressions

An operand, an index or an argument may be missing; `absent` stands in its place. This is not the
empty expression, which is written down. A text shows a missing operand by a mark of its own. A call
with a missing argument has no text, and a text around it says so.
-/

namespace Backend6502.Source

inductive Expr where
  /-- The place of an expression that is missing. -/
  | absent
  /-- The empty expression. -/
  | nothing
  | int (value : Int64)
  /-- A variable, possibly with a subscript. `X` and `Y` are the index registers. -/
  | var (name : String) (index : Expr)
  | binary (op : Op) (lhs rhs : Expr)
  | unary (op : Op) (operand : Expr)
  | incDec (op : Op) (operand : Expr)
  | call (name : String) (args : List Expr)
  deriving Repr

instance : Inhabited Expr := ⟨.absent⟩

namespace Expr

def isAbsent : Expr → Bool
  | .absent => true
  | _ => false

/-- How an expression with a given text stands inside another text. -/
def embed (e : Expr) (text? : Option String) : String :=
  if e.isAbsent then "%!s(<nil>)"
  else text?.getD
    ("%!s(PANIC=String method: runtime error: " ++
      "invalid memory address or nil pointer dereference)")

mutual

def text? : Expr → Option String
  | .absent => none
  | .nothing => some ""
  | .int value => some (toString value)
  | .var name .absent => some name
  | .var name index => some (name ++ "[" ++ embed index (text? index) ++ "]")
  | .binary op lhs rhs =>
    some ("(" ++ embed lhs (text? lhs) ++ " " ++ op.text ++ " " ++ embed rhs (text? rhs) ++ ")")
  | .unary op operand => some ("(" ++ op.text ++ embed operand (text? operand) ++ ")")
  | .incDec op operand =>
    if op.isPostfix then some ("(" ++ embed operand (text? operand) ++ op.text ++ ")")
    else some ("(" ++ op.text ++ embed operand (text? operand) ++ ")")
  | .call name args =>
    match texts? args with
    | some texts => some (name ++ "(" ++ ", ".intercalate texts ++ ")")
    | none => none

def texts? : List Expr → Option (List String)
  | [] => some []
  | e :: rest =>
    match text? e, texts? rest with
    | some text, some texts => some (text :: texts)
    | _, _ => none

end

def shown (e : Expr) : String :=
  embed e e.text?

end Expr

end Backend6502.Source
