import Backend6502.Command.Console

/-!
# The command

Compiles a program from a file or standard input.
-/

namespace Backend6502.Command

/-- The number of a system error; some calls give it negated. -/
def systemCode (code : UInt32) : UInt32 :=
  if code < 0x80000000 then code else 0 - code

def OpenError.ofError : IO.Error → OpenError
  | .noFileOrDirectory .. => .missing
  | .permissionDenied .. => .other "permission denied"
  | .inappropriateType _ code _ => if systemCode code = 20 then .notFolder else .folder
  | .invalidArgument _ code detail =>
    if systemCode code = 36 then .nameTooLong else .other detail
  | e => .other (toString e)

def terminal : Console IO where
  input := do (← IO.getStdin).readToEnd
  read name := do
    try return .ok (← IO.FS.readFile name) catch e => return .error (.ofError e)
  create name content := do
    try return .ok (← IO.FS.writeFile name content) catch e => return .error (.ofError e)
  print text := do (← IO.getStdout).putStr text
  complain text := do (← IO.getStderr).putStr text

end Backend6502.Command

open Backend6502.Command in
def main (arguments : List String) : IO UInt32 := do
  let environment ← environmentNames.filterMapM fun name => do
    return (← IO.getEnv name).map fun value => (name, value)
  terminal.run environment arguments
