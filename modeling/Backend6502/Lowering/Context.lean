import Backend6502.Code.Jump
import Backend6502.Code.Stream
import Backend6502.Lowering.Cause
import Backend6502.Lowering.Label

/-!
# The context of code generation

What code generation knows while it works on one function, and the steps that it is made of. A step
reads the symbols and the function, changes the context, and may fail. The context outlives a
failure: the calls across banks that were met stay recorded.
-/

namespace Backend6502.Lowering

open Cpu (Mnemonic Mode)
open Code (Line Instruction)
open Source (Expr)
open Symbols (Table Function)

/-- What stays the same throughout a function. -/
structure Scope where
  symbols : Table
  function : Function

/-- Where the statements that leave a round of a loop, or the loop or switch, go. -/
structure Exits where
  /-- None in a switch that is in no loop. -/
  next : Option String
  leave : String
  deriving DecidableEq, Repr

/-- An increment or decrement that is put off to the end of a statement. -/
structure Deferred where
  target : Expr
  increments : Bool

structure Context where
  code : List Line := []
  accInUse : Bool := false
  /-- The scratch cell holds a value that is still needed. -/
  scratchInUse : Bool := false
  flags : Flags := .unknown
  high : Bool := false
  forCount : Nat := 0
  /-- Counts what is chosen and short labels. -/
  ifCount : Nat := 0
  whileCount : Nat := 0
  /-- Innermost first. -/
  exits : List Exits := []
  deferred : List Deferred := []
  /-- The offset of the statement at hand. -/
  pos : Int64 := 0
  trampolines : List String := []

/-- A step of code generation. -/
abbrev Gen := ReaderT Scope (EStateM Failure Context)

def fail {α : Type} (cause : Cause) : Gen α := do
  throw (.error ⟨cause, (← get).pos⟩)

def symbols : Gen Table := do
  return (← read).symbols

def inHigh : Gen Bool := do
  return (← get).high

def accInUse : Gen Bool := do
  return (← get).accInUse

def setAccInUse (inUse : Bool) : Gen Unit :=
  modify fun c => { c with accInUse := inUse }

def setScratchInUse (inUse : Bool) : Gen Unit :=
  modify fun c => { c with scratchInUse := inUse }

def setFlags (flags : Flags) : Gen Unit :=
  modify fun c => { c with flags }

def setHigh (high : Bool) : Gen Unit :=
  modify fun c => { c with high }

def withHigh {α : Type} (high : Bool) (step : Gen α) : Gen α := do
  let before ← inHigh
  setHigh high
  let a ← step
  setHigh before
  return a

def nextFor : Gen Nat := do
  modify fun c => { c with forCount := c.forCount + 1 }
  return (← get).forCount

/-- The number of the next choice or short label. -/
def nextIf : Gen Nat := do
  modify fun c => { c with ifCount := c.ifCount + 1 }
  return (← get).ifCount

def nextWhile : Gen Nat := do
  modify fun c => { c with whileCount := c.whileCount + 1 }
  return (← get).whileCount

def addLines (lines : List Line) : Gen Unit :=
  modify fun c => { c with code := c.code ++ lines }

def addLine (line : Line) : Gen Unit :=
  addLines [line]

/-- Places a label. Control may come from elsewhere, so the flags show nothing. -/
def putLabel (name : String) : Gen Unit := do
  addLine (.label name)
  setFlags .unknown

def track (m : Mnemonic) (place : Place) : Gen Unit :=
  modify fun c => { c with flags := c.flags.after m place }

def addTimes (count : Nat) (m : Mnemonic) (mode : Mode) (operand : String) : Gen Unit := do
  match Instruction.find? (.known m) mode operand with
  | some i => addLines (List.replicate count (.instruction i))
  | none => throw (.defect (.noEncoding (.known m) mode))

/-- Adds an instruction that is known to exist. -/
def addFixed (m : Mnemonic) (mode : Mode) (operand : String) : Gen Unit :=
  addTimes 1 m mode operand

/-- Emits an instruction with a byte, whatever the pass. -/
def emitByte (m : Mnemonic) (b : UInt8) : Gen Unit := do
  addFixed m .immediate (byteOperand b)
  track m .nothing

def emitImplied (m : Mnemonic) : Gen Unit := do
  addFixed m .implied ""
  track m .nothing

def emitBranch (m : Mnemonic) (target : String) : Gen Unit :=
  addFixed m .relative target

def emitJump (target : String) : Gen Unit :=
  addFixed .jmp .absolute target

def isStore : Mnemonic → Bool
  | .sta | .stx | .sty => true
  | _ => false

/-- Emits an instruction that addresses a place. A read of the scratch cell frees it. -/
def emit (m : Mnemonic) (place : Place) : Gen Unit := do
  match place.operand? (← symbols) (← inHigh) with
  | none => fail (.registerOperand m place)
  | some (mode, operand) =>
    match Instruction.find? (.known m) mode operand with
    | none => fail (.noEncoding m mode place)
    | some i => do
      addLine (.instruction i)
      if place.isScratch && !isStore m then setScratchInUse false
      track m place

def emitTimes (m : Mnemonic) (place : Place) : Nat → Gen Unit
  | 0 => return
  | n + 1 => do
    emit m place
    emitTimes m place n

def loadA (place : Place) : Gen Unit :=
  match place with
  | .accumulator _ => return
  | .x => emitImplied .txa
  | .y => emitImplied .tya
  | .immediate _ | .scratch _ | .cell .. | .indexedX _ _ | .indexedY _ _ => emit .lda place
  | .nothing | .label _ => fail .noValue

/-- The mnemonic that stores a register. -/
def storeOf? : Place → Option Mnemonic
  | .accumulator _ => some .sta
  | .x => some .stx
  | .y => some .sty
  | _ => none

/-- Moves the value of a register into the scratch cell. -/
def spill (place : Place) : Gen Place := do
  if (← get).scratchInUse then fail .tooComplex
  match storeOf? place with
  | none => return place
  | some m => do
    emit m (.scratch place.signed)
    setScratchInUse true
    return .scratch place.signed

/-- Pushes the accumulator if its value is still needed. -/
def save (needed : Bool) : Gen Unit := do
  if needed then emitImplied .pha

/--
The place of a new value in the accumulator. If the old one was pushed, the new one goes to the
scratch cell and the old one comes back.
-/
def restore (pushed signed : Bool) : Gen Place := do
  if pushed then
    if (← get).scratchInUse then fail .tooComplex
    emit .sta (.scratch signed)
    setScratchInUse true
    emitImplied .pla
    return .scratch signed
  else return .accumulator signed

def emitReturn : Gen Unit := do
  if (← read).function.interrupt then emitImplied .rti else emitImplied .rts

end Backend6502.Lowering
