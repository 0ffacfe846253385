import Backend6502.Cpu.Encoding
import Backend6502.Text.Upper

/-!
# Operations

The name of an instruction as it is written. A name in capitals is a mnemonic; any other spelling is
kept as it is. The table is searched without regard to case, everything else goes by mnemonics.
-/

namespace Backend6502.Code

open Cpu (Mnemonic)

inductive Operation where
  | known (m : Mnemonic)
  /-- A name in another spelling, which may still be in the table. -/
  | spelled (text : String)
  deriving DecidableEq, Repr

namespace Operation

def ofText (text : String) : Operation :=
  match Mnemonic.ofName? text with
  | some m => .known m
  | none => .spelled text

def text : Operation → String
  | .known m => m.name
  | .spelled text => text

theorem ofText_name (m : Mnemonic) : ofText m.name = .known m := by
  rw [ofText, Mnemonic.ofName?_name]

def entry? : Operation → Option Mnemonic
  | .known m => some m
  | .spelled text => Mnemonic.ofName? (Text.upper text)

def isBranch : Operation → Bool
  | .known m => m.isBranch
  | .spelled _ => false

end Operation

end Backend6502.Code
