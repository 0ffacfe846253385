import Backend6502.Code.Defect
import Backend6502.Program.Node
import Backend6502.Source.Diagnostic
import Backend6502.Symbols.Table

/-!
# Programs

A program is a symbol table with the bodies of its functions, and the lines that its source comes
from. It is read from a JSON record with the lists `variables`, `functions` and `linemap`.
-/

namespace Backend6502

structure Program where
  symbols : Symbols.Table := {}
  lines : Source.LineMap := {}
  deriving Repr

namespace Program

open Json (Value)
open Source (Block LineEntry)
open Symbols (Variable Function MemoryClass Table DefinitionError)

inductive LoadError where
  | json (fault : Fault)
  | unknownClass (variableName className : String)
  | definition (error : DefinitionError)
  | function (name : String) (error : NodeError)
  /-- The body of a function is a null. -/
  | absentBody
  deriving DecidableEq, Repr

def LoadError.message (wording : Fault → String) : LoadError → String
  | .json fault => "program: " ++ wording fault
  | .unknownClass variableName className =>
    "program: variable " ++ variableName ++ ": unknown memory class " ++ Text.quoted className
  | .definition error => "program: " ++ error.message
  | .function name error => "program: function " ++ name ++ ": " ++ error.message wording
  | .absentBody => Code.Defect.absentNode.message

/-- A variable as it is written, with the text of its class. -/
structure VariableRecord where
  declared : Variable := { name := "" }
  className : String := ""

def VariableRecord.read (old : VariableRecord) : Value → Except Fault VariableRecord :=
  Record.read (fun r name value =>
    let known := ["name", "class", "size", "length", "signed", "pointer", "const", "value",
      "address"]
    let v := r.declared
    match Record.nameOf? known name with
    | some "name" => do return { r with declared.name := ← Record.string v.name value }
    | some "class" => do return { r with className := ← Record.string r.className value }
    | some "size" => do return { r with declared.size := ← Record.int v.size value }
    | some "length" => do return { r with declared.length := ← Record.int v.length value }
    | some "signed" => do return { r with declared.signed := ← Record.bool v.signed value }
    | some "pointer" => do return { r with declared.pointer := ← Record.bool v.pointer value }
    | some "const" => do return { r with declared.isConst := ← Record.bool v.isConst value }
    | some "value" => do return { r with declared.value := ← Record.int v.value value }
    | some "address" => do return { r with declared.address := ← Record.int v.address value }
    | _ => .error (.unknownMember name)) old

/-- A function as it is written, with its body not yet read. -/
structure FunctionRecord where
  function : Function := { name := "" }
  body : Option Value := none

def FunctionRecord.read (old : FunctionRecord) : Value → Except Fault FunctionRecord :=
  Record.read (fun r name value =>
    let f := r.function
    match Record.nameOf? ["name", "bank", "interrupt", "returns", "signed", "body"] name with
    | some "name" => do return { r with function.name := ← Record.string f.name value }
    | some "bank" => do return { r with function.bank := ← Record.int f.bank value }
    | some "interrupt" => do return { r with function.interrupt := ← Record.bool f.interrupt value }
    | some "returns" => do return { r with function.returns := ← Record.bool f.returns value }
    | some "signed" => do return { r with function.signed := ← Record.bool f.signed value }
    | some "body" => .ok { r with body := some value }
    | _ => .error (.unknownMember name)) old

def readLineEntry (old : LineEntry) : Value → Except Fault LineEntry :=
  Record.read (fun entry name value =>
    match Record.nameOf? ["offset", "file", "line"] name with
    | some "offset" => do return { entry with offset := ← Record.int entry.offset value }
    | some "file" => do return { entry with file := ← Record.string entry.file value }
    | some "line" => do return { entry with line := ← Record.int entry.line value }
    | _ => .error (.unknownMember name)) old

structure ProgramRecord where
  vars : Record.Items VariableRecord := {}
  functions : Record.Items FunctionRecord := {}
  lines : Record.Items LineEntry := {}

def ProgramRecord.read : Value → Except Fault ProgramRecord :=
  Record.read (fun r name value =>
    match Record.nameOf? ["variables", "functions", "linemap"] name with
    | some "variables" => do
      return { r with vars := ← Record.list VariableRecord.read {} r.vars value }
    | some "functions" => do
      return { r with functions := ← Record.list FunctionRecord.read {} r.functions value }
    | some "linemap" => do
      return { r with lines := ← Record.list readLineEntry {} r.lines value }
    | _ => .error (.unknownMember name)) {}

def addVariables : Table → List VariableRecord → Except LoadError Table
  | table, [] => .ok table
  | table, r :: rest =>
    match MemoryClass.ofText? r.className with
    | none => .error (.unknownClass r.declared.name r.className)
    | some memory =>
      match table.defineVariable { r.declared with memory } with
      | .error error => .error (.definition error)
      | .ok table => addVariables table rest

def FunctionRecord.block (r : FunctionRecord) : Except LoadError (Option Block) :=
  match r.body with
  | none => .ok none
  | some value =>
    match Node.stmt value with
    | .error error => .error (.function r.function.name error)
    | .ok none => .error .absentBody
    | .ok (some s) => .ok (some (.ofStmt s))

/-- Adds the functions to a table; the first one gets the given order. -/
def addFunctions : Table → Int64 → List FunctionRecord → Except LoadError Table
  | table, _, [] => .ok table
  | table, order, r :: rest => do
    let body ← r.block
    match table.defineFunction { r.function with order, body } with
    | .error error => .error (.definition error)
    | .ok table => addFunctions table (order + 1) rest

def ofValue (value : Value) : Except LoadError Program := do
  let r ← (ProgramRecord.read value).mapError .json
  let table ← addVariables {} r.vars.shown
  let symbols ← addFunctions table 0 r.functions.shown
  return { symbols, lines := .ofEntries r.lines.shown }

/-- The program that a text describes. What follows the first JSON value is passed over. -/
def load (text : String) : Except LoadError Program :=
  match Json.parse text with
  | .ok value => ofValue value
  | .error .empty => .error (.json .empty)
  | .error .malformed => .error (.json .malformed)

end Program

end Backend6502
