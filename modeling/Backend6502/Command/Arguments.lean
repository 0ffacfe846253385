import Backend6502.Compiler
import Backend6502.Text.Literal

/-!
# Command line arguments

The flags stand in front of all else. A flag has one or two dashes; its value follows `=` or is the
next argument, but a switch takes one only after `=`. The environment gives the defaults.
-/

namespace Backend6502.Command

/-- What the command is asked to do. -/
structure Invocation where
  input : String := ""
  /-- The file for the code; standard output if empty. -/
  output : String := ""
  options : Options := {}
  execute : Bool := false
  /-- How many instructions a run may take. -/
  limit : Int64 := 1000000
  deriving DecidableEq, Repr

/-- The words that turn an option on in the environment. -/
def affirmations : List String :=
  ["1", "ABSOLUTELY", "AFFIRMATIVE", "Absolutely", "Affirmative", "ENABLE", "ENABLED", "Enable",
   "Enabled", "POSITIVE", "Positive", "T", "TRUE", "True", "Y", "YES", "Yes", "absolutely",
   "affirmative", "enable", "enabled", "positive", "t", "true", "y", "yes"]

def optionsOf (environment : List (String × String)) : Options where
  level := ((environment.lookup "CC78_OPT").bind fun text =>
    (Text.signed? 10 64 text.toList).map Int64.ofInt).getD 1
  cycles := affirmations.contains ((environment.lookup "CC78_CYCLES").getD "")
  verbose := affirmations.contains ((environment.lookup "CC78_VERBOSE").getD "")

def environmentNames : List String :=
  ["CC78_OPT", "CC78_CYCLES", "CC78_VERBOSE"]

inductive Flag where
  | level
  | cycles
  | input
  | output
  | execute
  | limit
  | verbose
  deriving DecidableEq, Repr

namespace Flag

def all : List Flag :=
  [.level, .cycles, .input, .output, .execute, .limit, .verbose]

def name : Flag → String
  | .level => "O"
  | .cycles => "cycles"
  | .input => "in"
  | .output => "out"
  | .execute => "run"
  | .limit => "steps"
  | .verbose => "v"

def ofName? (name : String) : Option Flag :=
  all.find? (·.name == name)

theorem ofName?_name (f : Flag) : ofName? f.name = some f := by
  cases f <;> decide

def isSwitch : Flag → Bool
  | .cycles | .execute | .verbose => true
  | _ => false

def switch? : String → Option Bool
  | "1" | "t" | "T" | "true" | "TRUE" | "True" => some true
  | "0" | "f" | "F" | "false" | "FALSE" | "False" => some false
  | _ => none

def whole? (text : String) : Option Int64 :=
  (Text.literal? 64 text.toList).map Int64.ofInt

/-- Takes a flag's value over, if it can be read. -/
def set? (f : Flag) (value : String) (i : Invocation) : Option Invocation :=
  match f with
  | .level => (whole? value).map fun level => { i with options.level := level }
  | .cycles => (switch? value).map fun cycles => { i with options.cycles := cycles }
  | .input => some { i with input := value }
  | .output => some { i with output := value }
  | .execute => (switch? value).map fun execute => { i with execute }
  | .limit => (whole? value).map fun limit => { i with limit }
  | .verbose => (switch? value).map fun verbose => { i with options.verbose := verbose }

def help (defaults : Invocation) : Flag → String
  | .level => " int\n    \toptimization level: 0, 1 or 2" ++ whole defaults.options.level
  | .cycles => "\n    \tannotate instructions with cycle counts" ++ switch defaults.options.cycles
  | .input => " string\n    \tprogram JSON produced by the front end (default stdin)"
  | .output => " string\n    \tassembler output file (default stdout)"
  | .execute =>
    "\n    \trun main on the 6502 emulator and print the variables" ++ switch defaults.execute
  | .limit => " int\n    \tinstruction limit for -run" ++ whole defaults.limit
  | .verbose => "\tprint per-function statistics" ++ switch defaults.options.verbose
where
  whole (n : Int64) : String := if n = 0 then "" else " (default " ++ toString n ++ ")"
  switch (b : Bool) : String := if b then " (default true)" else ""

end Flag

def usage (defaults : Invocation) : String :=
  "Usage of cc78:\n"
    ++ String.join (Flag.all.map fun f => "  -" ++ f.name ++ f.help defaults ++ "\n")

inductive UsageError where
  | help
  | malformed (argument : String)
  | unknown (name : String)
  | noValue (flag : Flag)
  | badValue (flag : Flag) (value : String)
  deriving DecidableEq, Repr

def UsageError.message : UsageError → String
  | .help => ""
  | .malformed argument => "bad flag syntax: " ++ argument ++ "\n"
  | .unknown name => "flag provided but not defined: -" ++ name ++ "\n"
  | .noValue flag => "flag needs an argument: -" ++ flag.name ++ "\n"
  | .badValue flag value =>
    if flag.isSwitch then
      "invalid boolean value " ++ Text.quoted value ++ " for -" ++ flag.name ++ ": parse error\n"
    else "invalid value " ++ Text.quoted value ++ " for flag -" ++ flag.name ++ ": parse error\n"

/-- What an argument is. -/
inductive Argument where
  | plain
  | separator
  | malformed
  | flag (name : String) (value : Option String)
  deriving DecidableEq, Repr

namespace Argument

def ofFlag (cs : List Char) : Argument :=
  if cs.isEmpty || cs.head? == some '-' || cs.head? == some '=' then .malformed
  else
    .flag (String.ofList (cs.takeWhile (· ≠ '=')))
      (match cs.dropWhile (· ≠ '=') with
        | _ :: value => some (String.ofList value)
        | [] => none)

def ofChars : List Char → Argument
  | ['-'] => .plain
  | ['-', '-'] => .separator
  | '-' :: '-' :: cs => ofFlag cs
  | '-' :: cs => ofFlag cs
  | _ => .plain

end Argument

def Flag.set (f : Flag) (value : String) (i : Invocation) : Except UsageError Invocation :=
  match f.set? value i with
  | some i => .ok i
  | none => .error (.badValue f value)

def Invocation.parse (i : Invocation) : List String → Except UsageError Invocation
  | [] => .ok i
  | argument :: rest =>
    match Argument.ofChars argument.toList with
    | .plain | .separator => .ok i
    | .malformed => .error (.malformed argument)
    | .flag name value =>
      match Flag.ofName? name with
      | none => .error (if name = "help" || name = "h" then .help else .unknown name)
      | some flag =>
        match value, flag.isSwitch, rest with
        | some value, _, rest => (flag.set value i).bind fun i => parse i rest
        | none, true, rest => (flag.set "true" i).bind fun i => parse i rest
        | none, false, value :: rest => (flag.set value i).bind fun i => parse i rest
        | none, false, [] => .error (.noValue flag)

end Backend6502.Command
