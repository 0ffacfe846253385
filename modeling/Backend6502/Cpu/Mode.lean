/-!
# Addressing modes
-/

namespace Backend6502.Cpu

/-- How an instruction finds its operand. -/
inductive Mode where
  | immediate | implied | relative | zeroPage | zeroPageX | zeroPageY | absolute | absoluteX
  | absoluteY | indirect | indirectX | indirectY | accumulator
  deriving DecidableEq, Repr

namespace Mode

def all : List Mode :=
  [.immediate, .implied, .relative, .zeroPage, .zeroPageX, .zeroPageY, .absolute, .absoluteX,
   .absoluteY, .indirect, .indirectX, .indirectY, .accumulator]

def name : Mode → String
  | .immediate => "immediate"
  | .implied => "implied"
  | .relative => "relative"
  | .zeroPage => "zero page"
  | .zeroPageX => "zero page,X"
  | .zeroPageY => "zero page,Y"
  | .absolute => "absolute"
  | .absoluteX => "absolute,X"
  | .absoluteY => "absolute,Y"
  | .indirect => "indirect"
  | .indirectX => "(indirect,X)"
  | .indirectY => "(indirect),Y"
  | .accumulator => "accumulator"

/-- The name of the mode with this number; a number without a mode is shown as it is. -/
def nameOfNumber (number : UInt8) : String :=
  match all[number.toNat]? with
  | some mode => mode.name
  | none => s!"mode({number.toNat})"

def wide? : Mode → Option Mode
  | .zeroPage => some .absolute
  | .zeroPageX => some .absoluteX
  | .zeroPageY => some .absoluteY
  | _ => none

end Mode

end Backend6502.Cpu
