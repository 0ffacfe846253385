import Backend6502.Code.Operation
import Backend6502.Text.Numeral

/-!
# Instructions

A machine instruction with its operand as text. `Instruction.find?` takes size and cycle counts from
the instruction table and has no answer where the processor has no encoding.
-/

namespace Backend6502.Code

open Cpu (Mnemonic Mode Encoding)

structure Instruction where
  op : Operation
  mode : Mode
  /-- The operand as the assembler reads it. -/
  operand : String
  cycles : Nat
  /-- Cycles when a branch is taken or a page is crossed; 0 if the count is fixed. -/
  cyclesTaken : Nat
  /-- The size in bytes. An instruction that is not from the table may have any. -/
  size : Int64
  /-- Instructions that the optimizer leaves alone. -/
  isProtected : Bool
  deriving DecidableEq, Repr

namespace Instruction

def row? (op : Operation) (mode : Mode) : Option Encoding :=
  op.entry?.bind fun m => Encoding.find? m mode

def ofRow (op : Operation) (operand : String) (row : Encoding) : Instruction where
  op := op
  mode := row.mode
  operand := operand
  cycles := row.cycles
  cyclesTaken := if row.extra = 0 then 0 else row.cycles + row.extra
  size := Int64.ofNat row.length
  isProtected := false

def find? (op : Operation) (mode : Mode) (operand : String) : Option Instruction :=
  (row? op mode).map (ofRow op operand)

def missing (op : Operation) (mode : Mode) : String :=
  op.text ++ " does not support " ++ mode.name ++ " addressing"

def bare (op : Operation) (mode : Mode) (operand : String) (size : Int64) : Instruction where
  op := op
  mode := mode
  operand := operand
  cycles := 0
  cyclesTaken := 0
  size := size
  isProtected := false

/-- What stands where there is no instruction: no name, no operand and no size. -/
def blank : Instruction :=
  bare (.spelled "") .immediate "" 0

/-- Is it this mnemonic, written in capitals? -/
def is (m : Mnemonic) (i : Instruction) : Bool :=
  i.op == .known m

def mnemonic? (i : Instruction) : Option Mnemonic :=
  match i.op with
  | .known m => some m
  | .spelled _ => none

/--
The number after the sign of an immediate operand, in decimal or after a dollar in hexadecimal.
-/
def literal? : List Char → Option Int
  | '$' :: rest => Text.signed? 16 32 rest
  | rest => Text.signed? 10 32 rest

def immediate? (i : Instruction) : Option UInt8 :=
  match i.mode, i.operand.toList with
  | .immediate, '#' :: rest => (literal? rest).map fun value => UInt8.ofInt value
  | _, _ => none

def text (i : Instruction) : String :=
  if i.operand.isEmpty then i.op.text else i.op.text ++ " " ++ i.operand

def cycleText (i : Instruction) : String :=
  if i.cyclesTaken = 0 then toString i.cycles
  else toString i.cycles ++ "/" ++ toString i.cyclesTaken

end Instruction

end Backend6502.Code
