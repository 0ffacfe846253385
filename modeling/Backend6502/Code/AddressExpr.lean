import Backend6502.Text.Blank
import Backend6502.Text.Digit
import Backend6502.Text.Letter
import Backend6502.Text.Numeral

/-!
# Address expressions

Operands stand for 16 bit numbers: decimal, hexadecimal and binary numerals, names, sums and
differences, and the low and high bytes of these. `evaluate` is given the meaning of names.
-/

namespace Backend6502.Code.AddressExpr

inductive Problem where
  | missing
  | outOfRange (text : String)
  | undefinedName (text : String)
  | malformed (text : String)
  deriving DecidableEq, Repr

def splitLast? (p : Char → Bool) : List Char → Option (List Char × Char × List Char)
  | [] => none
  | c :: rest =>
    match splitLast? p rest with
    | some (left, mark, right) => some (c :: left, mark, right)
    | none => if p c then some ([], c, rest) else none

def beforeComma (cs : List Char) : List Char :=
  cs.takeWhile (· != ',')

def withoutClosing (cs : List Char) : List Char :=
  match cs.reverse with
  | ')' :: rest => rest.reverse
  | _ => cs

def withoutOpening : List Char → List Char
  | '(' :: rest => rest
  | cs => cs

/-- The address part of an operand, without index registers and brackets. -/
def ofOperand (operand : List Char) : List Char :=
  let text := Text.trim operand
  let text :=
    if text.getLast? = some ')' then text
    else match splitLast? (· == ',') text with
      | some (left, _, _) => left
      | none => text
  Text.trim (beforeComma (withoutClosing (withoutOpening text)))

/-- The value of a numeral: hexadecimal after a dollar or `0x`, binary after a percent sign. -/
def numeral? : List Char → Option Int
  | '$' :: rest => Text.signed? 16 32 rest
  | '%' :: rest => Text.signed? 2 32 rest
  | '0' :: 'x' :: rest => Text.signed? 16 32 rest
  | cs => Text.signed? 10 32 cs

def startsName (c : Char) : Bool :=
  Text.isLetter c || c == '_'

def isName : List Char → Bool
  | [] => false
  | c :: rest => startsName c && rest.all fun d => startsName d || Text.isDigit d

def withoutDot : List Char → List Char
  | '.' :: rest => rest
  | cs => cs

def evaluateAtom (resolve : String → Option UInt16) (cs : List Char) : Except Problem UInt16 :=
  let text := String.ofList cs
  match numeral? cs with
  | some value =>
    if value < -0x8000 ∨ 0xFFFF < value then .error (.outOfRange text)
    else .ok (UInt16.ofInt value)
  | none =>
    match resolve text with
    | some address => .ok address
    | none =>
      if isName (withoutDot cs) then .error (.undefinedName text) else .error (.malformed text)

/-- The value of an expression with at most `bound` parts inside each other. -/
def evaluateUpTo (resolve : String → Option UInt16) :
    (bound : Nat) → List Char → Except Problem UInt16
  | 0, _ => .error .missing
  | bound + 1, cs =>
    match Text.trim cs with
    | [] => .error .missing
    | '<' :: rest => (fun value : UInt16 => value &&& 0xFF) <$> evaluateUpTo resolve bound rest
    | '>' :: rest => (fun value : UInt16 => value >>> 8) <$> evaluateUpTo resolve bound rest
    | text =>
      match splitLast? (fun c => c == '+' || c == '-') text with
      | some (c :: left, sign, right) => do
        let base ← evaluateUpTo resolve bound (c :: left)
        let offset ← evaluateUpTo resolve bound right
        return if sign == '-' then base - offset else base + offset
      | _ => evaluateAtom resolve text

/-- The value of an expression; every part of it is shorter than the whole. -/
def evaluate (resolve : String → Option UInt16) (cs : List Char) : Except Problem UInt16 :=
  evaluateUpTo resolve (cs.length + 1) cs

end Backend6502.Code.AddressExpr
