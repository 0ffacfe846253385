import Backend6502.Text.Numeral

/-!
# Integer literals

A numeral that says its own base: `0b`, `0o` and `0x` in either case, a plain `0` in front for
octal, decimal otherwise. An underscore may stand between two digits and after what gives the base.
-/

namespace Backend6502.Text

/-- The base of a literal and what follows the letters that give it; is it given at all? -/
def splitBase : List Char → Nat × Bool × List Char
  | '0' :: mark :: digit :: rest =>
    match mark.toLower with
    | 'b' => (2, true, digit :: rest)
    | 'o' => (8, true, digit :: rest)
    | 'x' => (16, true, digit :: rest)
    | _ => (8, true, mark :: digit :: rest)
  | '0' :: rest => (8, true, rest)
  | cs => (10, false, cs)

/-- Does every underscore follow a digit, and does a digit follow it? The flag says whether a digit
came last. -/
def isSeparated : Bool → List Char → Bool
  | afterDigit, [] => afterDigit
  | afterDigit, '_' :: rest => afterDigit && isSeparated false rest
  | _, _ :: rest => isSeparated true rest

def unsignedLiteral? (cs : List Char) : Option Nat :=
  match splitBase cs with
  | (base, given, digits) =>
    if isSeparated given digits then digitsFrom? base 0 (digits.filter (· ≠ '_')) else none

/-- The value of a literal with an optional sign, if it fits `width` bits. -/
def literal? (width : Nat) (cs : List Char) : Option Int :=
  match splitSign cs with
  | (negative, digits) => (unsignedLiteral? digits).bind (fitSigned? width negative)

example : literal? 64 "-0x_1F".toList = some (-31) := by decide
example : literal? 64 "0_17".toList = some 15 := by decide
example : literal? 64 "0".toList = some 0 := by decide
example : literal? 64 "1__0".toList = none := by decide
example : literal? 64 "0x".toList = none := by decide
example : literal? 64 "".toList = none := by decide

end Backend6502.Text
