/-!
# Numerals

Reading and writing whole numbers. A signed numeral is an optional sign and at least one digit; the
digits above nine are letters in either case. `signed?` reads what fits a two's complement number of
the given width and refuses the rest.
-/

namespace Backend6502.Text

def digitValue? (c : Char) : Option Nat :=
  if '0' ≤ c ∧ c ≤ '9' then some (c.toNat - '0'.toNat)
  else if 'a' ≤ c ∧ c ≤ 'z' then some (c.toNat - 'a'.toNat + 10)
  else if 'A' ≤ c ∧ c ≤ 'Z' then some (c.toNat - 'A'.toNat + 10)
  else none

def digitIn? (base : Nat) (c : Char) : Option Nat :=
  (digitValue? c).filter (· < base)

/-- Appends the digits to a value read so far. -/
def digitsFrom? (base : Nat) : Nat → List Char → Option Nat
  | value, [] => some value
  | value, c :: rest =>
    match digitIn? base c with
    | some digit => digitsFrom? base (value * base + digit) rest
    | none => none

/-- A numeral without a sign: one digit or more. -/
def unsigned? (base : Nat) : List Char → Option Nat
  | [] => none
  | cs => digitsFrom? base 0 cs

def splitSign : List Char → Bool × List Char
  | '-' :: rest => (true, rest)
  | '+' :: rest => (false, rest)
  | cs => (false, cs)

/-- The signed value, if a two's complement number of `width` bits holds it. -/
def fitSigned? (width : Nat) (negative : Bool) (value : Nat) : Option Int :=
  if negative then
    if value ≤ Nat.pow 2 (width - 1) then some (-(value : Int)) else none
  else
    if value < Nat.pow 2 (width - 1) then some (value : Int) else none

def signed? (base width : Nat) (cs : List Char) : Option Int :=
  match splitSign cs with
  | (negative, digits) => (unsigned? base digits).bind (fitSigned? width negative)

def hexDigit (n : Nat) : Char :=
  if n < 10 then Char.ofNat ('0'.toNat + n) else Char.ofNat ('a'.toNat + (n - 10))

/-- The lowest `count` hexadecimal digits of a number, in lower case. -/
def hexLower : (count : Nat) → Nat → String
  | 0, _ => ""
  | count + 1, n => (hexLower count (n / 16)).push (hexDigit (n % 16))

/-- The lowest `count` hexadecimal digits of a number, in upper case. -/
def hexUpper : (count : Nat) → Nat → String
  | 0, _ => ""
  | count + 1, n => (hexUpper count (n / 16)).push (hexDigit (n % 16)).toUpper

/-- Two lower case digits for each byte. -/
def hexBytes (bytes : List UInt8) : String :=
  String.join (bytes.map fun byte => hexLower 2 byte.toNat)

end Backend6502.Text
