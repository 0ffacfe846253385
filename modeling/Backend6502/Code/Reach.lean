import Backend6502.Code.Defect
import Backend6502.Code.Stream
import Backend6502.Text.Blank

/-!
# The reach of branches

A branch encodes the distance from the instruction after it to its target in one signed byte. The
target is the nearest line that carries the label, counted in lines; of two equally near ones it is
the one further down. Assembler text that is taken over cannot be measured, so each of its lines
counts as the longest instruction.
-/

namespace Backend6502.Code

/-- The pieces of a text between its line ends. -/
def textLines : List Char → List (List Char)
  | [] => [[]]
  | '\n' :: rest => [] :: textLines rest
  | c :: rest =>
    match textLines rest with
    | [] => [[c]]
    | line :: lines => (c :: line) :: lines

/-- Does a piece of assembler text hold an instruction? -/
def holdsCode (cs : List Char) : Bool :=
  match Text.trim cs with
  | [] => false
  | c :: _ => c != ';'

namespace Line

def size : Line → Int64
  | .instruction i => i.size
  | .verbatim text => Int64.ofNat (3 * (textLines text.toList).countP holdsCode)
  | _ => 0

def isLabel (name : String) : Line → Bool
  | .label text => text == name
  | _ => false

end Line

def inRange (distance : Int64) : Bool :=
  -128 ≤ distance && distance ≤ 127

/-- Looks for a label among the lines above, nearest first; `up` bytes lie before them. -/
def seekUp (name : String) : (up : Int64) → List Line → Option Int64
  | _, [] => none
  | up, line :: before =>
    if line.isLabel name then some (-up) else seekUp name (up + line.size) before

/-- Looks for a label on both sides, one line of each at a time. -/
def seek (name : String) : (down up : Int64) → (after before : List Line) → Option Int64
  | _, up, [], before => seekUp name up before
  | down, up, line :: after, before =>
    if line.isLabel name then some down
    else match before with
      | [] => seek name (down + line.size) up after []
      | above :: before =>
        if above.isLabel name then some (-up)
        else seek name (down + line.size) (up + above.size) after before

/-- A line with an instruction, seen between the lines above (nearest first) and those below. -/
structure Spot where
  before : List Line
  instruction : Instruction
  after : List Line

namespace Spot

/-- The distance that the instruction has to encode as a branch. -/
def distance? (spot : Spot) : Option Int64 :=
  seek spot.instruction.operand 0 spot.instruction.size spot.after spot.before

def lines (spot : Spot) : List Line :=
  spot.before.reverse ++ .instruction spot.instruction :: spot.after

end Spot

namespace Stream

/-- Line `i` between the lines around it. A line without an instruction counts as a blank one. -/
def spot? (s : Stream) (i : Int64) : Option Spot := do
  let line ← s.line? i
  let index := i.toInt.toNat
  return {
    before := (s.lines.take index).reverse
    instruction := line.instruction?.getD .blank
    after := s.lines.drop (index + 1) }

/-- The distance from the end of line `i` to the label that it names. -/
def distance (s : Stream) (i : Int64) : Except Defect Int64 :=
  match s.spot? i with
  | none => .error .outOfBounds
  | some spot =>
    match spot.distance? with
    | some distance => .ok distance
    | none => .error (.noTarget s.name spot.instruction)

end Stream

end Backend6502.Code
