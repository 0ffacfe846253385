import Backend6502.Command.Console

/-!
# The command in a folder

A folder given by its files, and the command run in it. The name of a file is walked part by part,
and each part before the last one has to lead to a folder. Around the folder there is nothing but
the files that stand for the streams of the command.
-/

namespace Backend6502.Command

/-- A place among the files: the names on the way to it, from the folder on. A slash in front stands
for the top of all folders, and two dots come only in front, for a folder around this one. -/
abbrev Place := List String

def Place.enter (place : Place) (part : String) : Place :=
  match part with
  | "" | "." => place
  | ".." =>
    match place.getLast? with
    | none | some ".." => place ++ [".."]
    | some "/" => place
    | some _ => place.dropLast
  | _ => place ++ [part]

def startOf (name : String) : Place :=
  if name.startsWith "/" then ["/"] else []

/-- The parts of a name; slashes next to each other count as one. -/
def partsOf (name : String) : List String :=
  (name.splitOn "/").filter (· ≠ "")

def maxPartBytes : Nat := 255

def maxNameBytes : Nat := 4095

/-- A stream of the command, as a file. -/
inductive Device where
  /-- What is written to it is lost, and there is nothing to read. -/
  | null
  | input
  | output
  | complaints
  deriving DecidableEq, Repr

def devices : List (Place × Device) :=
  [(["/", "dev", "null"], .null), (["/", "dev", "stdin"], .input),
   (["/", "dev", "stdout"], .output), (["/", "dev", "stderr"], .complaints)]

inductive Entry where
  | folder
  | file (content : String)
  | device (device : Device)
  deriving DecidableEq, Repr

/-- The files of a folder and of the folders in it, each one with its place. -/
structure Folder where
  files : List (Place × String) := []
  deriving DecidableEq, Repr

namespace Folder

def ofFiles (files : List (String × String)) : Folder :=
  ⟨files.map fun (name, content) => ((partsOf name).foldl Place.enter (startOf name), content)⟩

/--
Is there a folder at a place? It is one if something is below it, and so are this folder and those
around it.
-/
def hasFolder (f : Folder) (place : Place) : Bool :=
  place.all (· == "..") ||
    (f.files.map (·.1) ++ devices.map (·.1)).any fun file =>
      place.isPrefixOf file && file != place

def entry? (f : Folder) (place : Place) : Option Entry :=
  if f.hasFolder place then some .folder
  else match f.files.lookup place, devices.lookup place with
    | some content, _ => some (.file content)
    | none, some device => some (.device device)
    | none, none => none

def walk (f : Folder) : Place → List String → Except OpenError Place
  | place, [] => .ok place
  | place, part :: rest =>
    if maxPartBytes < part.utf8ByteSize then .error .nameTooLong
    else match f.entry? (place.enter part) with
      | some .folder => f.walk (place.enter part) rest
      | some _ => .error .notFolder
      | none => .error .missing

/-- The place of the folder that a name leads to before its last part. -/
def placeBefore (f : Folder) (name : String) : Except OpenError Place :=
  if maxNameBytes < name.utf8ByteSize then .error .nameTooLong
  else f.walk (startOf name) (partsOf name).dropLast

/-- The file or stream to read under a name. -/
def find (f : Folder) (name : String) : Except OpenError Entry := do
  let place ← f.placeBefore name
  let some last := (partsOf name).getLast? | throw .folder
  if maxPartBytes < last.utf8ByteSize then throw .nameTooLong
  match f.entry? (place.enter last) with
  | none => throw .missing
  | some .folder => throw .folder
  | some entry => if name.endsWith "/" then throw .notFolder else return entry

def target (f : Folder) (name : String) : Except OpenError Place := do
  let place ← f.placeBefore name
  let some last := (partsOf name).getLast? | throw .folder
  if name.endsWith "/" || last = "." || last = ".." then throw .folder
  if maxPartBytes < last.utf8ByteSize then throw .nameTooLong
  if f.hasFolder (place ++ [last]) then throw .folder
  return place ++ [last]

/-- The folder with another content of a file, which may be a new one. -/
def write (f : Folder) (place : Place) (content : String) : Folder :=
  ⟨f.files.filter (·.1 != place) ++ [(place, content)]⟩

end Folder

/-- A folder and what was written to the two outputs. -/
structure Desk where
  folder : Folder := {}
  printed : String := ""
  complaints : String := ""
  deriving DecidableEq, Repr

namespace Desk

def print (desk : Desk) (text : String) : Desk :=
  { desk with printed := desk.printed ++ text }

def complain (desk : Desk) (text : String) : Desk :=
  { desk with complaints := desk.complaints ++ text }

/-- Reads a file or a stream; `input` is what can be read from standard input. -/
def read (desk : Desk) (input name : String) : Except OpenError String := do
  match ← desk.folder.find name with
  | .device .input => return input
  | .file content => return content
  | _ => return ""

def create (desk : Desk) (name content : String) : Except OpenError Desk := do
  let place ← desk.folder.target name
  match devices.lookup place with
  | none => return { desk with folder := desk.folder.write place content }
  | some .output => return desk.print content
  | some .complaints => return desk.complain content
  | some _ => return desk

/-- The surroundings of a command that runs in a folder. -/
def console (input : String) : Console (StateM Desk) where
  input := pure input
  read name := fun desk => (desk.read input name, desk)
  create name content := fun desk =>
    match desk.create name content with
    | .ok desk => (.ok (), desk)
    | .error e => (.error e, desk)
  print text := modify (·.print text)
  complain text := modify (·.complain text)

end Desk

/-- Runs the command in a folder: its exit code, and what is there afterwards. -/
def runIn (folder : Folder) (input : String) (environment : List (String × String))
    (arguments : List String) : UInt32 × Desk :=
  (Desk.console input).run environment arguments { folder }

end Backend6502.Command
