import Backend6502.Code.Instruction
import Backend6502.Text.Column

/-!
# Streams of lines

The code of one function as a list of lines: labels, instructions, assembler text taken over as it
is, comments, and the places of removed instructions. The optimizer counts what it removes and the
branch repair what it replaces.
-/

namespace Backend6502.Code

inductive Line where
  | label (name : String)
  | instruction (i : Instruction)
  /-- Assembler text that is taken over as it is. -/
  | verbatim (text : String)
  | comment (text : String)
  /-- The place of a removed instruction. -/
  | removed
  deriving DecidableEq, Repr

namespace Line

def instruction? : Line → Option Instruction
  | .instruction i => some i
  | _ => none

def label? : Line → Option String
  | .label name => some name
  | _ => none

/-- Comments and the places of removed instructions are passed over. -/
def isSilent : Line → Bool
  | .comment _ | .removed => true
  | _ => false

def write (cycles : Bool) : Line → String
  | .label name => name ++ "\n"
  | .instruction i =>
    if cycles then "\t" ++ Text.padRight 16 i.text ++ "; " ++ i.cycleText ++ "\n"
    else "\t" ++ i.text ++ "\n"
  | .verbatim text => text ++ "\n"
  | .comment text => "\t; " ++ text ++ "\n"
  | .removed => ""

end Line

structure Stream where
  name : String
  lines : List Line := []
  removed : Nat := 0
  /-- The number of branches repaired so far. -/
  fixes : Nat := 0
  deriving DecidableEq, Repr

namespace Stream

def empty (name : String) : Stream :=
  { name }

def append (s : Stream) (lines : List Line) : Stream :=
  { s with lines := s.lines ++ lines }

def index? (s : Stream) (i : Int64) : Option Nat :=
  if 0 ≤ i.toInt ∧ i.toInt ≤ s.lines.length then some i.toInt.toNat else none

/--
Puts lines between those before `i` and those from `j` on. If `i` is after `j`, the lines between
them stand before and after the new ones.
-/
def replace? (s : Stream) (i j : Int64) (lines : List Line) : Option Stream := do
  let start ← s.index? i
  let stop ← s.index? j
  return { s with lines := s.lines.take start ++ lines ++ s.lines.drop stop }

def insert? (s : Stream) (i : Int64) (lines : List Line) : Option Stream :=
  s.replace? i i lines

def line? (s : Stream) (i : Int64) : Option Line :=
  if 0 ≤ i.toInt then s.lines[i.toInt.toNat]? else none

def kill? (s : Stream) (i : Int64) : Option Stream := do
  let _ ← s.line? i
  return { s with lines := s.lines.set i.toInt.toNat .removed, removed := s.removed + 1 }

def instructions (s : Stream) : List Instruction :=
  s.lines.filterMap Line.instruction?

def labels (s : Stream) : List String :=
  s.lines.filterMap Line.label?

def bytes (s : Stream) : Int64 :=
  (s.instructions.map (·.size)).foldl (· + ·) 0

def write (cycles : Bool) (s : Stream) : String :=
  String.join (s.lines.map (Line.write cycles))

@[simp] theorem lines_append (s : Stream) (lines : List Line) :
    (s.append lines).lines = s.lines ++ lines := rfl

theorem instructions_append (s : Stream) (lines : List Line) :
    (s.append lines).instructions = s.instructions ++ lines.filterMap Line.instruction? := by
  rw [instructions, lines_append, List.filterMap_append]
  rfl

theorem labels_append (s : Stream) (lines : List Line) :
    (s.append lines).labels = s.labels ++ lines.filterMap Line.label? := by
  rw [labels, lines_append, List.filterMap_append]
  rfl

end Stream

end Backend6502.Code
