import Backend6502.Code.AddressBook
import Backend6502.Code.AddressExpr
import Backend6502.Code.Reach

/-!
# The assembler

Two passes over streams that are laid out one after another. The first gives every label its
address; a label that starts with a dot belongs to its stream. The second encodes the instructions.
Labels stay known to the assembler, also those that a failed run has met.
-/

namespace Backend6502.Code

open Cpu (Encoding)

inductive AssemblyError where
  | labelPastMemory (label stream : String)
  | duplicateLabel (label stream : String)
  | tooLarge (stream : String) (line : Nat)
  | verbatimText (stream : String)
  | noEncoding (stream : String) (i : Instruction)
  | branchOutOfRange (stream : String) (distance : Int) (i : Instruction)
  | notZeroPage (stream : String) (i : Instruction)
  | operand (stream : String) (problem : AddressExpr.Problem)
  deriving DecidableEq, Repr

def AddressExpr.Problem.message : AddressExpr.Problem → String
  | .missing => "missing operand"
  | .outOfRange text => "value out of range: " ++ text
  | .undefinedName text => "undefined label '" ++ text ++ "'"
  | .malformed text => "invalid operand '" ++ text ++ "'"

def AssemblyError.message : AssemblyError → String
  | .labelPastMemory label stream =>
    "label '" ++ label ++ "' in " ++ stream ++ " points past addressable memory"
  | .duplicateLabel label stream => "duplicate label '" ++ label ++ "' in " ++ stream
  | .tooLarge stream line => "program too large near " ++ stream ++ " line " ++ toString line
  | .verbatimText stream => "inline assembler in " ++ stream ++ " cannot be encoded"
  | .noEncoding stream i => stream ++ ": no encoding for " ++ i.text
  | .branchOutOfRange stream distance i =>
    stream ++ ": branch out of range (" ++ toString distance ++ " bytes) in '" ++ i.text ++ "'"
  | .notZeroPage stream i => stream ++ ": '" ++ i.text ++ "' is not a zero page address"
  | .operand stream problem => stream ++ ": " ++ problem.message

structure Assembler where
  labels : AddressBook := {}
  symbols : AddressBook := {}
  deriving DecidableEq, Repr

namespace Assembler

def ofSymbols (symbols : List (String × UInt16)) : Assembler :=
  { symbols := .ofList symbols }

def fullName (stream label : String) : String :=
  match label.toList with
  | '.' :: _ => stream ++ label
  | _ => label

def address? (asm : Assembler) (name : String) : Option UInt16 :=
  asm.labels.find? name

/-- What a name stands for inside a stream: a label or else a symbol. -/
def resolve (asm : Assembler) (stream name : String) : Option UInt16 :=
  match asm.labels.find? (fullName stream name) with
  | some address => some address
  | none => asm.symbols.find? name

/-- Gives the labels of a stream their addresses; the answer is the address after the last line. -/
def placeLines (stream : String) :
    AddressBook → UInt32 → Nat → List Line → AddressBook × Except AssemblyError UInt32
  | book, address, _, [] => (book, .ok address)
  | book, address, index, line :: rest =>
    match line with
    | .label name =>
      if 0xFFFF < address then (book, .error (.labelPastMemory name stream))
      else match book.find? (fullName stream name) with
        | some _ => (book, .error (.duplicateLabel name stream))
        | none =>
          placeLines stream (book.insert (fullName stream name) address.toUInt16) address
            (index + 1) rest
    | .instruction i =>
      let next := address + i.size.toUInt64.toUInt32
      if 0x10000 < next then (book, .error (.tooLarge stream index))
      else placeLines stream book next (index + 1) rest
    | .verbatim _ => (book, .error (.verbatimText stream))
    | .comment _ | .removed => placeLines stream book address (index + 1) rest

def placeStreams :
    AddressBook → UInt32 → List Stream → AddressBook × Except AssemblyError UInt32
  | book, address, [] => (book, .ok address)
  | book, address, s :: rest =>
    match placeLines s.name book address 0 s.lines with
    | (book, .ok address) => placeStreams book address rest
    | (book, .error error) => (book, .error error)

def evaluate (asm : Assembler) (stream : String) (cs : List Char) :
    Except AssemblyError UInt16 :=
  (AddressExpr.evaluate (asm.resolve stream) cs).mapError (.operand stream)

def withoutHash : List Char → List Char
  | '#' :: rest => rest
  | cs => cs

def operandBytes (asm : Assembler) (stream : String) (here : Nat) (i : Instruction) :
    Except AssemblyError (List UInt8) :=
  match i.mode with
  | .implied | .accumulator => .ok []
  | .immediate => do
    let value ← asm.evaluate stream (withoutHash i.operand.toList)
    return [value.toUInt8]
  | .relative => do
    let target ← asm.evaluate stream i.operand.toList
    let distance : Int := (target.toNat : Int) - (here + 2 : Nat)
    if -128 ≤ distance ∧ distance ≤ 127 then return [UInt8.ofInt distance]
    else .error (.branchOutOfRange stream distance i)
  | .zeroPage | .zeroPageX | .zeroPageY | .indirectX | .indirectY => do
    let value ← asm.evaluate stream (AddressExpr.ofOperand i.operand.toList)
    if 0xFF < value then .error (.notZeroPage stream i) else return [value.toUInt8]
  | .absolute | .absoluteX | .absoluteY | .indirect => do
    let value ← asm.evaluate stream (AddressExpr.ofOperand i.operand.toList)
    return [value.toUInt8, (value >>> 8).toUInt8]

def instructionBytes (asm : Assembler) (stream : String) (here : Nat) (i : Instruction) :
    Except AssemblyError (List UInt8) :=
  match i.op.entry?.bind (Encoding.inMode? · i.mode) with
  | none => .error (.noEncoding stream i)
  | some row => do
    let bytes ← asm.operandBytes stream here i
    return row.opcode :: bytes

def lineBytes (asm : Assembler) (stream : String) :
    Nat → List Line → Except AssemblyError (List UInt8)
  | _, [] => .ok []
  | here, .instruction i :: rest => do
    let bytes ← asm.instructionBytes stream here i
    let others ← asm.lineBytes stream (here + bytes.length) rest
    return bytes ++ others
  | here, _ :: rest => asm.lineBytes stream here rest

def streamBytes (asm : Assembler) : Nat → List Stream → Except AssemblyError (List UInt8)
  | _, [] => .ok []
  | here, s :: rest => do
    let bytes ← asm.lineBytes s.name here s.lines
    let others ← asm.streamBytes (here + bytes.length) rest
    return bytes ++ others

/-- Assembles streams from an address on; also gives the assembler with the labels it has met. -/
def assemble (asm : Assembler) (start : UInt16) (streams : List Stream) :
    Assembler × Except AssemblyError (List UInt8) :=
  match placeStreams asm.labels start.toUInt32 streams with
  | (labels, .error error) => ({ asm with labels }, .error error)
  | (labels, .ok _) =>
    let asm := { asm with labels }
    (asm, asm.streamBytes start.toNat streams)

end Assembler

end Backend6502.Code
