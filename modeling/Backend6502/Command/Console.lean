import Backend6502.Command.Job

/-!
# The command and its surroundings

The order in which the command reads, writes and complains, over any surroundings that can be read
and written.
-/

namespace Backend6502.Command

inductive OpenError where
  | missing
  /-- A part of its path is not a folder. -/
  | notFolder
  | folder
  | nameTooLong
  | other (reason : String)
  deriving DecidableEq, Repr

def OpenError.reason : OpenError → String
  | .missing => "no such file or directory"
  | .notFolder => "not a directory"
  | .folder => "is a directory"
  | .nameTooLong => "file name too long"
  | .other reason => reason

def OpenError.readMessage (name : String) : OpenError → String
  | .folder => "program: read " ++ name ++ ": is a directory"
  | e => "open " ++ name ++ ": " ++ e.reason

def OpenError.writeMessage (name : String) (e : OpenError) : String :=
  "open " ++ name ++ ": " ++ e.reason

/-- What the command can do to its surroundings. -/
structure Console (m : Type → Type) where
  input : m String
  read : (name : String) → m (Except OpenError String)
  /-- Writes a file; an old one is replaced. -/
  create : (name content : String) → m (Except OpenError Unit)
  print : String → m Unit
  complain : String → m Unit

namespace Console

variable {m : Type → Type} [Monad m]

def source (c : Console m) (i : Invocation) : m (Except Ending String) := do
  if i.input = "" then return .ok (← c.input)
  else return (← c.read i.input).mapError fun e => .failed (e.readMessage i.input)

def deliver (c : Console m) (i : Invocation) (code : String) : m (Except Ending Unit) := do
  if i.output = "" then
    c.print code
    return .ok ()
  else return (← c.create i.output code).mapError fun e => .failed (e.writeMessage i.output)

def perform (c : Console m) (i : Invocation) : m Ending := do
  match ← c.source i with
  | .error ending => return ending
  | .ok text =>
    let job := Job.ofText i text
    c.complain job.log
    match job.result with
    | .error ending => return ending
    | .ok product =>
      match ← c.deliver i product.code with
      | .error ending => return ending
      | .ok () =>
        c.complain product.log
        return product.ending

/-- The whole command; the result is its exit code. -/
def run (c : Console m) (environment : List (String × String)) (arguments : List String) :
    m UInt32 := do
  let defaults : Invocation := { options := optionsOf environment }
  match defaults.parse arguments with
  | .error e =>
    c.complain (e.message ++ usage defaults)
    return if e = .help then 0 else 2
  | .ok i =>
    let ending ← c.perform i
    c.complain ending.text
    return ending.code

end Console

end Backend6502.Command
