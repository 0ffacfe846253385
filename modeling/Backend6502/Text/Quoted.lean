import Backend6502.Text.Numeral
import Backend6502.Text.Printable

/-!
# Quoted text

A text between double quotes. The quote and the backslash are escaped, the seven control characters
with a short name use it, and whatever cannot be shown is given by its code point.
-/

namespace Backend6502.Text

def controlName? (c : Char) : Option Char :=
  match c.toNat with
  | 7 => some 'a'
  | 8 => some 'b'
  | 9 => some 't'
  | 10 => some 'n'
  | 11 => some 'v'
  | 12 => some 'f'
  | 13 => some 'r'
  | _ => none

def quotedChar (c : Char) : String :=
  if c == '"' || c == '\\' then String.ofList ['\\', c]
  else if isPrintable c then c.toString
  else match controlName? c with
    | some name => String.ofList ['\\', name]
    | none =>
      let n := c.toNat
      if n < 0x20 || n == 0x7f then "\\x" ++ hexLower 2 n
      else if n < 0x10000 then "\\u" ++ hexLower 4 n
      else "\\U" ++ hexLower 8 n

def quoted (text : String) : String :=
  "\"" ++ String.join (text.toList.map quotedChar) ++ "\""

end Backend6502.Text
