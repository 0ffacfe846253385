import Backend6502.Command.Arguments
import Backend6502.Machine
import Backend6502.Program.Load

/-!
# The work of the command

What the command makes of the text of a program: messages, code, and how it ends. Nothing is read or
written here.
-/

namespace Backend6502.Command

open Symbols (Table Variable)

inductive Ending where
  | done
  | failed (message : String)
  /-- The program breaks a rule that the compiler relies on. -/
  | broken (message : String)
  deriving DecidableEq, Repr

def Ending.code : Ending → UInt32
  | .done => 0
  | .failed _ => 1
  | .broken _ => 2

def Ending.text : Ending → String
  | .done => ""
  | .failed message => message ++ "\n"
  | .broken message => "panic: " ++ message ++ "\n"

/-- The code of a program, and what happens after it was written. -/
structure Product where
  code : String
  log : String := ""
  ending : Ending := .done

/-- Messages, and then code or a failure. -/
structure Job where
  log : String := ""
  result : Except Ending Product

def variableLine (m : Machine) (v : Variable) : String :=
  "  " ++ Text.padRight 20 v.name ++ " $"
    ++ Text.hexUpper 4 ((m.addresses.lookup v.name).getD 0).toNat ++ ":"
    ++ String.join ((m.peekBytes v.name v.byteCount.toInt.toNat).map fun b =>
      " " ++ Text.hexUpper 2 b.toNat)
    ++ "\n"

def runReport (m : Machine) (t : Table) : String :=
  "run complete: " ++ toString m.steps ++ " instructions, A=$" ++ Text.hexUpper 2 m.cpu.a.toNat
    ++ " X=$" ++ Text.hexUpper 2 m.cpu.x.toNat ++ " Y=$" ++ Text.hexUpper 2 m.cpu.y.toNat ++ "\n"
    ++ String.join ((t.vars.filter (!·.isConst)).map (variableLine m))

/-- Runs a compiled program: the report and the ending. -/
def execute (c : Compiled) (t : Table) (limit : Int64) : String × Ending :=
  match Machine.load c t with
  | .error e => ("", .failed e.message)
  | .ok m =>
    match m.run limit with
    | (_, some overrun) => ("", .failed overrun.message)
    | (m, none) => (runReport m t, .done)

def summary (c : Compiled) : String :=
  toString c.streams.length ++ " functions, " ++ toString c.removed ++ " instructions removed, "
    ++ toString c.fixes ++ " branches fixed, " ++ toString c.trampolines.length ++ " trampolines\n"

/-- What is left to do with a compiled program. -/
def Product.ofCompiled (i : Invocation) (t : Table) (c : Compiled) : Product :=
  let numbers := if i.options.verbose then summary c else ""
  let (report, ending) := if i.execute then execute c t i.limit else ("", .done)
  { code := c.write i.options.cycles, log := numbers ++ report, ending }

namespace Job

def ofProgram (i : Invocation) (p : Program) : Job :=
  let (reports, result) := compile p.symbols i.options.level
  let log := if i.options.verbose then
      p.symbols.dump ++ String.join (reports.map Report.text)
    else ""
  { log
    result := match result with
      | .ok c => .ok (.ofCompiled i p.symbols c)
      | .error (.error _ e) => .error (.failed (p.lines.format e.diagnostic))
      | .error (.defect d) => .error (.broken d.message)
      | .error failure => .error (.failed failure.message) }

def ofText (i : Invocation) (text : String) : Job :=
  match Program.load text with
  | .ok p => ofProgram i p
  | .error .absentBody => { result := .error (.broken Code.Defect.absentNode.message) }
  | .error e => { result := .error (.failed (e.message Program.Fault.message)) }

end Job

end Backend6502.Command
