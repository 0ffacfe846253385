import Backend6502.Program.Record
import Backend6502.Source.Stmt

/-!
# Nodes

An expression or a statement is a JSON object with a `type`; a null stands for none. Member names
are exact, unknown ones are passed over, and of several members with one name the last one counts.
-/

namespace Backend6502.Program

open Json (Value)
open Source (Op Expr Loc Arm Stmt)

inductive NodeError where
  | json (fault : Fault)
  /-- A member of a node does not fit. -/
  | member (kind name : String) (fault : Fault)
  | missingMember (kind name : String)
  | unknownOperator (kind op : String)
  | missingOperand (kind op : String)
  | unknownExpression (kind : String)
  | unknownStatement (kind : String)
  deriving DecidableEq, Repr

def NodeError.message (wording : Fault → String) : NodeError → String
  | .json fault => wording fault
  | .member kind name fault => kind ++ "." ++ name ++ ": " ++ wording fault
  | .missingMember kind name => kind ++ ": missing " ++ Text.quoted name
  | .unknownOperator kind op => kind ++ ": unknown operator " ++ Text.quoted op
  | .missingOperand kind op => kind ++ " " ++ op ++ ": missing operand"
  | .unknownExpression kind => "unknown expression type " ++ Text.quoted kind
  | .unknownStatement kind => "unknown statement type " ++ Text.quoted kind

namespace Node

def members? : Option Value → Except NodeError (Option (List (String × Value)))
  | none | some .null => .ok none
  | some (.object members) => .ok (some members)
  | some _ => .error (.json .wrongType)

/-- The type of a node; it is empty if it is not a text. -/
def kind (members : List (String × Value)) : String :=
  match Value.lastOf? "type" members with
  | some (.string text) => text
  | _ => ""

def optional {α : Type} (read : Value → Except Fault α) (zero : α)
    (members : List (String × Value)) (name : String) : Except NodeError α :=
  match Value.lastOf? name members with
  | none => .ok zero
  | some value => (read value).mapError (.member (kind members) name)

def text (members : List (String × Value)) (name : String) : Except NodeError String :=
  match Value.lastOf? name members with
  | none => .error (.missingMember (kind members) name)
  | some value => (Record.string "" value).mapError (.member (kind members) name)

def rawItems (value : Value) : Except Fault (List Value) := do
  return (← Record.list (fun _ item => .ok item) .null {} value).shown

def loc (members : List (String × Value)) : Except NodeError Loc := do
  let pos ← optional (Record.int 0) 0 members "pos"
  let label ← optional (Record.string "") "" members "label"
  return { pos, label }

/-- Reads an expression with at most `bound` nodes inside each other. -/
def exprUpTo : (bound : Nat) → Option Value → Except NodeError Expr
  | 0, _ => .ok .absent
  | bound + 1, value? => do
    let some members ← members? value? | return .absent
    let member (name : String) := Value.lastOf? name members
    match kind members with
    | "int" => return .int (← optional (Record.int 0) 0 members "value")
    | "var" => do
      let name ← text members "name"
      let index ← exprUpTo bound (member "index")
      return .var name index
    | "binary" => do
      let opText ← text members "op"
      let some op := Op.ofBinaryText? opText | throw (.unknownOperator "binary" opText)
      let lhs ← exprUpTo bound (member "lhs")
      let rhs ← exprUpTo bound (member "rhs")
      if lhs.isAbsent || rhs.isAbsent then throw (.missingOperand "binary" opText)
      return .binary op lhs rhs
    | "unary" => do
      let opText ← text members "op"
      let operand ← exprUpTo bound (member "operand")
      if operand.isAbsent then throw (.missingOperand "unary" opText)
      let some op := Op.ofUnaryText? opText | throw (.unknownOperator "unary" opText)
      return .unary op operand
    | "incdec" => do
      let opText ← text members "op"
      let operand ← exprUpTo bound (member "operand")
      if operand.isAbsent then throw (.missingOperand "incdec" opText)
      let some op := Op.ofStepText? opText | throw (.unknownOperator "incdec" opText)
      return .incDec op operand
    | "call" => do
      let name ← text members "name"
      let args ← optional rawItems [] members "args"
      return .call name (← args.mapM fun arg => exprUpTo bound (some arg))
    | "nothing" => return .nothing
    | other => throw (.unknownExpression other)

/-- An arm whose statements are not yet read. -/
structure RawArm where
  values : Record.Items Int64 := {}
  isDefault : Bool := false
  body : Record.Items Value := {}

/-- Reads an arm over an earlier one; unknown members are passed over. -/
def arm (old : RawArm) : Value → Except Fault RawArm :=
  Record.read (fun arm name value =>
    match Record.nameOf? ["values", "default", "body"] name with
    | some "values" => do
      return { arm with values := ← Record.list Record.int 0 arm.values value }
    | some "default" => do
      return { arm with isDefault := ← Record.bool arm.isDefault value }
    | some "body" => do
      return { arm with body := ← Record.list (fun _ item => .ok item) .null arm.body value }
    | _ => .ok arm) old

def arms (value : Value) : Except Fault (List RawArm) := do
  return (← Record.list arm {} {} value).shown

mutual

/-- Reads a statement with at most `bound` nodes inside each other; none for a null. -/
def stmtUpTo : (bound : Nat) → Option Value → Except NodeError (Option Stmt)
  | 0, _ => .ok none
  | bound + 1, value? => do
    let some members ← members? value? | return none
    let expr (name : String) := exprUpTo bound (Value.lastOf? name members)
    let loc ← loc members
    match kind members with
    | "block" => do
      let raw ← optional rawItems [] members "stmts"
      return some (.block loc (← stmtsUpTo bound raw))
    | "expr" => return some (.expr loc (← expr "expr"))
    | "for" => do
      let init ← expr "init"
      let cond ← expr "cond"
      let update ← expr "update"
      let body ← bodyUpTo bound members "body"
      return some (.forLoop loc init cond update body)
    | "while" => do
      let cond ← expr "cond"
      let body ← bodyUpTo bound members "body"
      return some (.whileLoop loc cond body)
    | "dowhile" => do
      let body ← bodyUpTo bound members "body"
      let cond ← expr "cond"
      return some (.doWhile loc body cond)
    | "if" => do
      let cond ← expr "cond"
      let thenBody ← bodyUpTo bound members "then"
      let elseBody ← stmtUpTo bound (Value.lastOf? "else" members)
      return some (.ifElse loc cond thenBody elseBody)
    | "switch" => do
      let selector ← expr "selector"
      let raw ← optional arms [] members "arms"
      return some (.switch loc selector (← armsUpTo bound raw))
    | "break" => return some (.leave loc)
    | "continue" => return some (.next loc)
    | "return" => return some (.ret loc (← expr "value"))
    | "asm" => return some (.asm loc (← text members "text"))
    | "strobe" => return some (.strobe loc (← expr "target"))
    | "goto" => return some (.goto loc (← text members "to"))
    | other => throw (.unknownStatement other)

def bodyUpTo : (bound : Nat) → List (String × Value) → String → Except NodeError Stmt
  | 0, members, name => .error (.missingMember (kind members) name)
  | bound + 1, members, name => do
    match ← stmtUpTo bound (Value.lastOf? name members) with
    | some s => return s
    | none => throw (.missingMember (kind members) name)

/-- Reads statements and leaves out the nulls. -/
def stmtsUpTo : (bound : Nat) → List Value → Except NodeError (List Stmt)
  | 0, _ => .ok []
  | bound + 1, values => do
    let read ← values.mapM fun value => stmtUpTo bound (some value)
    return read.filterMap id

/-- Reads the statements of arms. -/
def armsUpTo : (bound : Nat) → List RawArm → Except NodeError (List (Arm Stmt))
  | 0, _ => .ok []
  | bound + 1, raw =>
    raw.mapM fun arm => do
      let body ← stmtsUpTo bound arm.body.shown
      return { values := arm.values.shown, isDefault := arm.isDefault, body }

end

def stmt (value : Value) : Except NodeError (Option Stmt) :=
  stmtUpTo (4 * (value.depth + 1)) (some value)

def expr (value : Value) : Except NodeError Expr :=
  exprUpTo (value.depth + 1) (some value)

end Node

end Backend6502.Program
