import Backend6502.Json.Parser
import Backend6502.Text.Quoted

/-!
# Records

A record is a JSON object whose member names are compared without regard to case. A null leaves a
member as it was. A member that is given twice is read over its earlier value: numbers and texts are
replaced, and each item of a list is read over the last item that had its place.
-/

namespace Backend6502.Program

open Json (Value)

inductive Fault where
  /-- There is no text. -/
  | empty
  | malformed
  | wrongType
  | unknownMember (name : String)
  deriving DecidableEq, Repr

def Fault.message : Fault → String
  | .empty => "EOF"
  | .malformed => "malformed JSON"
  | .wrongType => "JSON value of the wrong type"
  | .unknownMember name => "json: unknown field " ++ Text.quoted name

namespace Record

/-- The form of a letter that stands for all its cases; two letters beyond ASCII have one in it. -/
def foldChar (c : Char) : Char :=
  if c.toNat = 0x17F then 'S' else if c.toNat = 0x212A then 'K' else c.toUpper

/-- Are two member names the same but for their case? -/
def sameName (a b : String) : Bool :=
  a.toList.map foldChar == b.toList.map foldChar

def nameOf? (known : List String) (name : String) : Option String :=
  known.find? (sameName name)

def int (old : Int64) : Value → Except Fault Int64
  | .null => .ok old
  | .number text =>
    match Text.signed? 10 64 text.toList with
    | some n => .ok (Int64.ofInt n)
    | none => .error .wrongType
  | _ => .error .wrongType

def bool (old : Bool) : Value → Except Fault Bool
  | .null => .ok old
  | .bool b => .ok b
  | _ => .error .wrongType

def string (old : String) : Value → Except Fault String
  | .null => .ok old
  | .string text => .ok text
  | _ => .error .wrongType

/-- A list in a record. If it is shorter than an earlier one, the items that the earlier one had in
the places after it are kept behind it, where a longer list that comes later is read over them. -/
structure Items (α : Type) where
  shown : List α := []
  behind : List α := []

/-- Reads items over those that had their places; where there was none, they start from `zero`. -/
def overItems {α : Type} (onItem : α → Value → Except Fault α) (zero : α) :
    List α → List Value → Except Fault (Items α)
  | old, [] => .ok { behind := old }
  | old, item :: rest => do
    let first ← onItem (old.head?.getD zero) item
    let others ← overItems onItem zero old.tail rest
    return { others with shown := first :: others.shown }

/-- Reads a list over an earlier one. A null or an empty list leaves nothing behind. -/
def list {α : Type} (onItem : α → Value → Except Fault α) (zero : α) (old : Items α) :
    Value → Except Fault (Items α)
  | .null | .array [] => .ok {}
  | .array items => overItems onItem zero (old.shown ++ old.behind) items
  | _ => .error .wrongType

/-- Reads the members of an object one after another. -/
def overMembers {α : Type} (onMember : α → String → Value → Except Fault α) :
    α → List (String × Value) → Except Fault α
  | a, [] => .ok a
  | a, (name, value) :: rest => do
    let a ← onMember a name value
    overMembers onMember a rest

def read {α : Type} (onMember : α → String → Value → Except Fault α) (old : α) :
    Value → Except Fault α
  | .null => .ok old
  | .object members => overMembers onMember old members
  | _ => .error .wrongType

end Record

end Backend6502.Program
