import Backend6502.Code.Defect
import Backend6502.Symbols.Table

/-!
# Places

Where the value of an expression lives while code is generated, and which value the sign and zero
flags currently show.
-/

namespace Backend6502.Lowering

open Cpu (Mnemonic Mode)
open Symbols (Table scratchCell)

inductive Place where
  | nothing
  /-- A constant that is in no register yet, at full width. -/
  | immediate (value : Int64)
  | scratch (signed : Bool)
  /-- A byte of a variable; `is8Bit` tells a byte variable from a part of a wider one. -/
  | cell (name : String) (is8Bit : Bool) (offset : Int64) (signed : Bool)
  | indexedX (name : String) (signed : Bool)
  /-- An element, indexed by Y; through the variable if it is a pointer. -/
  | indexedY (name : String) (signed : Bool)
  | accumulator (signed : Bool)
  | x
  | y
  /-- A label, which is never a value. -/
  | label (name : String)
  deriving DecidableEq, Repr

namespace Place

def signed : Place → Bool
  | .scratch signed | .cell _ _ _ signed | .indexedX _ signed | .indexedY _ signed
  | .accumulator signed => signed
  | .nothing | .immediate _ | .x | .y | .label _ => false

/-- The name that the place belongs to; it is empty if there is none. -/
def name : Place → String
  | .cell name _ _ _ | .indexedX name _ | .indexedY name _ | .label name => name
  | .nothing | .immediate _ | .scratch _ | .accumulator _ | .x | .y => ""

def isRegister : Place → Bool
  | .accumulator _ | .x | .y => true
  | _ => false

def isMemory : Place → Bool
  | .scratch _ | .cell .. | .indexedX _ _ | .indexedY _ _ => true
  | _ => false

def isIndexed : Place → Bool
  | .indexedX _ _ | .indexedY _ _ => true
  | _ => false

def isAccumulator : Place → Bool
  | .accumulator _ => true
  | _ => false

def isScratch : Place → Bool
  | .scratch _ => true
  | _ => false

def isNothing : Place → Bool
  | .nothing => true
  | _ => false

def isIndexRegister : Place → Bool
  | .x | .y => true
  | _ => false

def text : Place → String
  | .nothing => "Nothing"
  | .immediate value => "Immediate(" ++ toString value ++ ")"
  | .scratch signed => "Tmp(signed=" ++ toString signed ++ ")"
  | .cell name is8Bit offset _ =>
    "Absolute(" ++ name ++ ", 8bit=" ++ toString is8Bit ++ ", " ++ toString offset ++ ")"
  | .indexedX name _ => "AbsoluteX(" ++ name ++ ")"
  | .indexedY name _ => "AbsoluteY(" ++ name ++ ")"
  | .accumulator signed => "A(signed=" ++ toString signed ++ ")"
  | .x => "X"
  | .y => "Y"
  | .label name => "Label(" ++ name ++ ")"

def ofNumber (number value : Int64) (name : String) (is8Bit : Bool) (offset : Int64)
    (signed : Bool) : Except Code.Defect Place :=
  match number.toInt with
  | 0 => .ok .nothing
  | 1 => .ok (.immediate value)
  | 2 => .ok (.scratch signed)
  | 3 => .ok (.cell name is8Bit offset signed)
  | 4 => .ok (.indexedX name signed)
  | 5 => .ok (.indexedY name signed)
  | 6 => .ok (.accumulator signed)
  | 7 => .ok .x
  | 8 => .ok .y
  | 9 => .ok (.label name)
  | _ => .error (.unknownPlace number)

end Place

def lowByte (n : Int64) : UInt8 :=
  n.toUInt64.toUInt8

def byteOperand (b : UInt8) : String :=
  "#" ++ toString b.toNat

/-- The zero page mode or the other one, by the class of a variable. -/
def memoryMode (table : Table) (name : String) (short long : Mode) : Mode :=
  match table.getVariable? name with
  | some v => if v.memory = .zeroPage then short else long
  | none => long

def isPointer (table : Table) (name : String) : Bool :=
  (table.getVariable? name).any (·.pointer)

/--
The mode and the text that address a place. In the pass for high bytes a constant stands for its
second byte. An index register is no operand.
-/
def Place.operand? (table : Table) (high : Bool) : Place → Option (Mode × String)
  | .nothing => some (.implied, "")
  | .immediate value =>
    some (.immediate, byteOperand (lowByte (if high then value >>> 8 else value)))
  | .scratch _ => some (.zeroPage, scratchCell)
  | .cell name _ offset _ =>
    some (memoryMode table name .zeroPage .absolute,
      if offset = 0 then name else name ++ "+" ++ toString offset)
  | .indexedX name _ => some (memoryMode table name .zeroPageX .absoluteX, name ++ ",X")
  | .indexedY name _ =>
    if isPointer table name then some (.indirectY, "(" ++ name ++ "),Y")
    else some (memoryMode table name .zeroPageY .absoluteY, name ++ ",Y")
  | .accumulator _ => some (.accumulator, "")
  | .label name => some (.absolute, name)
  | .x | .y => none

/-- What the sign and zero flags show. -/
inductive Flags where
  | unknown
  | accumulator
  | x
  | y
  | cell (name : String) (is8Bit : Bool) (offset : Int64)
  deriving DecidableEq, Repr

namespace Flags

def ofPlace : Place → Flags
  | .accumulator _ => .accumulator
  | .x => .x
  | .y => .y
  | .cell name is8Bit offset _ => .cell name is8Bit offset
  | _ => .unknown

def shows (flags : Flags) (place : Place) : Bool :=
  flags != .unknown && flags == ofPlace place

def afterStore (flags source : Flags) (place : Place) : Flags :=
  match flags with
  | .cell name _ _ => if name == place.name then .unknown else flags
  | _ =>
    if flags == source then
      match place with
      | .cell .. => ofPlace place
      | _ => flags
    else flags

def after (flags : Flags) (m : Mnemonic) (place : Place) : Flags :=
  match m with
  | .lda =>
    match place with
    | .cell .. => ofPlace place
    | _ => .accumulator
  | .adc | .sbc | .and | .ora | .eor | .pla | .txa | .tya => .accumulator
  | .asl | .lsr | .rol | .ror | .inc | .dec => ofPlace place
  | .ldx | .inx | .dex | .tax | .tsx => .x
  | .ldy | .iny | .dey | .tay => .y
  | .sta => flags.afterStore .accumulator place
  | .stx => flags.afterStore .x place
  | .sty => flags.afterStore .y place
  | .clc | .sec | .pha | .php | .nop | .txs => flags
  | _ => .unknown

end Flags

end Backend6502.Lowering
