import Backend6502.Json.Value
import Backend6502.Text.Numeral

/-!
# Reading JSON

`parse` reads the first value of a text and passes over what follows it. Half of a surrogate pair is
read as the replacement character. Arrays and objects may be nested ten thousand deep.
-/

namespace Backend6502.Json

inductive SyntaxFault where
  /-- There is nothing but blanks. -/
  | empty
  | malformed
  deriving DecidableEq, Repr

namespace Parser

def skipBlanks (cs : List Char) : List Char :=
  cs.dropWhile fun c => c == ' ' || c == '\t' || c == '\n' || c == '\r'

def hex4? (a b c d : Char) : Option Nat :=
  Text.unsigned? 16 [a, b, c, d]

/-- What a character stands for after a backslash. -/
def escape? : Char → Option Nat
  | '"' => some 0x22
  | '\\' => some 0x5c
  | '/' => some 0x2f
  | 'b' => some 8
  | 'f' => some 12
  | 'n' => some 10
  | 'r' => some 13
  | 't' => some 9
  | _ => none

/-- Reads the rest of a string into units, newest first; `\u` escapes give UTF-16 units. -/
def stringUnits? : (units : List Nat) → List Char → Option (List Nat × List Char)
  | _, [] => none
  | units, '"' :: rest => some (units, rest)
  | units, '\\' :: 'u' :: a :: b :: c :: d :: rest =>
    match hex4? a b c d with
    | some unit => stringUnits? (unit :: units) rest
    | none => none
  | units, '\\' :: c :: rest =>
    match escape? c with
    | some unit => stringUnits? (unit :: units) rest
    | none => none
  | units, c :: rest =>
    if c.toNat < 0x20 || c == '\\' then none else stringUnits? (c.toNat :: units) rest

def isHighSurrogate (unit : Nat) : Bool :=
  0xD800 ≤ unit && unit < 0xDC00

def isLowSurrogate (unit : Nat) : Bool :=
  0xDC00 ≤ unit && unit < 0xE000

/-- Joins surrogate pairs and replaces lone halves. -/
def joinUnits : List Nat → List Char
  | [] => []
  | [unit] =>
    [if isHighSurrogate unit || isLowSurrogate unit then Char.ofNat 0xFFFD else Char.ofNat unit]
  | unit :: next :: rest =>
    if isHighSurrogate unit && isLowSurrogate next then
      Char.ofNat (0x10000 + (unit - 0xD800) * 0x400 + (next - 0xDC00)) :: joinUnits rest
    else
      (if isHighSurrogate unit || isLowSurrogate unit then Char.ofNat 0xFFFD else Char.ofNat unit)
        :: joinUnits (next :: rest)

def string? (cs : List Char) : Option (String × List Char) :=
  (stringUnits? [] cs).map fun (units, rest) =>
    (String.ofList (joinUnits units.reverse), rest)

def isDigit (c : Char) : Bool :=
  '0' ≤ c && c ≤ '9'

def digits? (cs : List Char) : Option (List Char × List Char) :=
  match cs.takeWhile isDigit with
  | [] => none
  | digits => some (digits, cs.dropWhile isDigit)

/-- Reads the whole part of a number: a zero alone, or digits that start with another one. -/
def whole? : List Char → Option (List Char × List Char)
  | '0' :: rest => some (['0'], rest)
  | cs => digits? cs

/-- Reads the part after the point, if there is a point. -/
def fraction? : List Char → Option (List Char × List Char)
  | '.' :: rest => (digits? rest).map fun (digits, rest) => ('.' :: digits, rest)
  | cs => some ([], cs)

def exponent? : List Char → Option (List Char × List Char)
  | [] => some ([], [])
  | e :: rest =>
    if e == 'e' || e == 'E' then
      match rest with
      | '+' :: more => (digits? more).map fun (digits, rest) => (e :: '+' :: digits, rest)
      | '-' :: more => (digits? more).map fun (digits, rest) => (e :: '-' :: digits, rest)
      | more => (digits? more).map fun (digits, rest) => (e :: digits, rest)
    else some ([], e :: rest)

/-- Reads a number without its sign. -/
def magnitude? (cs : List Char) : Option (List Char × List Char) := do
  let (whole, cs) ← whole? cs
  let (fraction, cs) ← fraction? cs
  let (exponent, cs) ← exponent? cs
  return (whole ++ fraction ++ exponent, cs)

/-- Reads a number as it is written. -/
def number? : List Char → Option (String × List Char)
  | '-' :: rest => (magnitude? rest).map fun (text, rest) => (String.ofList ('-' :: text), rest)
  | cs => (magnitude? cs).map fun (text, rest) => (String.ofList text, rest)

mutual

/--
Reads a value of at most `bound` parts with at most `room` arrays and objects inside each other.
-/
def value? : (bound room : Nat) → List Char → Option (Value × List Char)
  | 0, _, _ => none
  | bound + 1, room, cs =>
    match skipBlanks cs with
    | 'n' :: 'u' :: 'l' :: 'l' :: rest => some (.null, rest)
    | 't' :: 'r' :: 'u' :: 'e' :: rest => some (.bool true, rest)
    | 'f' :: 'a' :: 'l' :: 's' :: 'e' :: rest => some (.bool false, rest)
    | '"' :: rest => (string? rest).map fun (text, rest) => (.string text, rest)
    | '[' :: rest =>
      match room with
      | 0 => none
      | room + 1 =>
        match skipBlanks rest with
        | ']' :: rest => some (.array [], rest)
        | rest => items? bound room [] rest
    | '{' :: rest =>
      match room with
      | 0 => none
      | room + 1 =>
        match skipBlanks rest with
        | '}' :: rest => some (.object [], rest)
        | rest => members? bound room [] rest
    | cs => (number? cs).map fun (text, rest) => (.number text, rest)

/-- Reads the items of an array up to its end; those read so far stand newest first. -/
def items? : (bound room : Nat) → List Value → List Char → Option (Value × List Char)
  | 0, _, _, _ => none
  | bound + 1, room, items, cs =>
    match value? bound room cs with
    | none => none
    | some (item, rest) =>
      match skipBlanks rest with
      | ',' :: rest => items? bound room (item :: items) rest
      | ']' :: rest => some (.array (item :: items).reverse, rest)
      | _ => none

/-- Reads the members of an object up to its end; those read so far stand newest first. -/
def members? : (bound room : Nat) → List (String × Value) → List Char → Option (Value × List Char)
  | 0, _, _, _ => none
  | bound + 1, room, members, cs =>
    match skipBlanks cs with
    | '"' :: rest =>
      match string? rest with
      | none => none
      | some (name, rest) =>
        match skipBlanks rest with
        | ':' :: rest =>
          match value? bound room rest with
          | none => none
          | some (value, rest) =>
            match skipBlanks rest with
            | ',' :: rest => members? bound room ((name, value) :: members) rest
            | '}' :: rest => some (.object ((name, value) :: members).reverse, rest)
            | _ => none
        | _ => none
    | _ => none

end

end Parser

def parse (text : String) : Except SyntaxFault Value :=
  match Parser.skipBlanks text.toList with
  | [] => .error .empty
  | cs =>
    match Parser.value? (2 * cs.length + 2) 10000 cs with
    | some (value, _) => .ok value
    | none => .error .malformed

end Backend6502.Json
