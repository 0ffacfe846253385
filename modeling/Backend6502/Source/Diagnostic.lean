/-!
# Diagnostics

An error in the source at an offset, and the lines that offsets come from.
-/

namespace Backend6502.Source

inductive ErrorKind where
  /-- Misuse, or a construct that is not supported. -/
  | misuse
  /-- An operation that the target cannot do. -/
  | unimplemented
  deriving DecidableEq, Repr

def ErrorKind.text : ErrorKind → String
  | .misuse => "syntax error"
  | .unimplemented => "unimplemented"

def ErrorKind.ofNumber (number : Int64) : ErrorKind :=
  if number = 1 then .unimplemented else .misuse

structure Diagnostic where
  kind : ErrorKind
  pos : Int64
  message : String
  deriving DecidableEq, Repr

def Diagnostic.text (d : Diagnostic) : String :=
  "offset " ++ toString d.pos ++ ": " ++ d.kind.text ++ ": " ++ d.message

/-- The source from an offset on comes from this line of a file. -/
structure LineEntry where
  offset : Int64 := 0
  file : String := ""
  line : Int64 := 0
  deriving DecidableEq, Repr

/-- Where the source comes from, by increasing offset. -/
structure LineMap where
  entries : List LineEntry := []
  deriving DecidableEq, Repr

namespace LineMap

def insert (entry : LineEntry) : List LineEntry → List LineEntry
  | [] => [entry]
  | first :: rest =>
    if entry.offset < first.offset then entry :: first :: rest else first :: insert entry rest

/-- The map of entries in any order; entries with one offset stay in their order. -/
def ofEntries (entries : List LineEntry) : LineMap :=
  ⟨entries.foldl (fun sorted entry => insert entry sorted) []⟩

/-- The entry that an offset belongs to: the last one that does not start after it. -/
def resolve? (map : LineMap) (offset : Int64) : Option LineEntry :=
  (map.entries.takeWhile fun entry => entry.offset ≤ offset).getLast?

/-- The error with its file and line, or with its offset if they are not known. -/
def format (map : LineMap) (d : Diagnostic) : String :=
  match map.resolve? d.pos with
  | some entry =>
    entry.file ++ ":" ++ toString entry.line ++ ": " ++ d.kind.text ++ ": " ++ d.message
  | none => d.text

end LineMap

end Backend6502.Source
