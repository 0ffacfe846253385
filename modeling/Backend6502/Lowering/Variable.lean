import Backend6502.Lowering.Context

/-!
# Variables, elements and targets

The places of variables, array elements and what pointers point to, for reading and for writing. A
byte has a high byte too: zero, or all bits equal to its sign.
-/

namespace Backend6502.Lowering

open Source (Expr)
open Symbols (Table Variable)

/-- The variable that an expression reads if it is a plain 16 bit variable. -/
def wideVariable? (table : Table) : Expr → Option Variable
  | .var name .absent =>
    (table.getVariable? name).filter fun v => v.size == 2 && !v.isConst
  | _ => none

def isWide (e : Expr) : Gen Bool := do
  return (wideVariable? (← symbols) e).isSome

/-- Does an expression read a signed byte: a variable, an element, or what a pointer points to? -/
def isSignedByte (table : Table) : Expr → Bool
  | .unary .deref (.var name index) =>
    (table.getVariable? name).any fun v => v.signed && v.pointer && index.isAbsent
  | .var name index =>
    (table.getVariable? name).any fun v => v.signed && (v.size == 1 || !index.isAbsent)
  | _ => false

/-- The high byte of a byte: zero, or its sign made in the accumulator. -/
def extend (place : Place) : Gen Place := do
  if !place.signed then return .immediate 0
  if ← accInUse then fail .tooComplex
  withHigh false do
    emit .lda place
    emit .asl (.accumulator true)
    emitByte .lda 0
    emitByte .adc 0xff
    emitByte .eor 0xff
    return .accumulator true

def element (place : Place) : Gen Place := do
  if ← inHigh then extend place else return place

def readRegister (name : String) (index : Expr) : Gen Place := do
  if !index.isAbsent then fail (.registerSubscripted name)
  if ← inHigh then return .immediate 0
  return if name == "X" then .x else .y

def readScalar (v : Variable) : Gen Place := do
  if v.size = 2 then return .cell v.name false (if ← inHigh then 1 else 0) v.signed
  element (.cell v.name true 0 v.signed)

def readConstantElement (v : Variable) (index : Int64) : Gen Place := do
  if v.pointer then
    if ← inHigh then extend (.indexedY v.name v.signed)
    else do
      emitByte .ldy (lowByte index)
      return .indexedY v.name v.signed
  else if 0 < v.length ∧ (index < 0 ∨ v.length ≤ index) then
    fail (.indexOutOfRange index v.name)
  else element (.cell v.name true index v.signed)

def readElement (v : Variable) (index : Expr) : Gen Place := do
  if v.size = 2 ∧ !v.pointer then fail (.wideArraySubscripted v.name)
  if v.length = 0 ∧ !v.pointer then fail (.notAnArray v.name)
  match index with
  | .var name _ =>
    if name == "X" then
      if v.pointer then fail (.pointerNeedsY v.name) else element (.indexedX v.name v.signed)
    else if name == "Y" then element (.indexedY v.name v.signed)
    else fail (.badSubscript v.name)
  | .int value => readConstantElement v value
  | _ => fail (.badSubscript v.name)

def isRegisterName (name : String) : Bool :=
  name == "X" || name == "Y"

def readVariable (name : String) (index : Expr) : Gen Place := do
  if isRegisterName name then readRegister name index
  else match (← symbols).getVariable? name with
    | none => fail (.unknownIdentifier name)
    | some v =>
      if index.isAbsent then
        if v.isConst && v.length == 0 then return .immediate v.value else readScalar v
      else readElement v index

def deref (operand : Expr) : Gen Place := do
  match operand with
  | .var name .absent =>
    match (← symbols).getVariable? name with
    | none => fail (.unknownIdentifier name)
    | some v =>
      if !v.pointer then fail (.notAPointer name)
      else if ← inHigh then extend (.indexedY v.name v.signed)
      else do
        emitByte .ldy 0
        return .indexedY v.name v.signed
  | _ => fail .notAPointerVariable

def checkWritable (name : String) : Gen Unit := do
  if isRegisterName name then return
  match (← symbols).getVariable? name with
  | none => fail (.unknownIdentifier name)
  | some v => if v.isConst || v.memory = .rom then fail (.readOnly name)

/--
The place of an expression that is written to. Only a 16 bit variable has a high byte to write.
-/
def target (e : Expr) : Gen Place := do
  match e with
  | .var name index => do
    checkWritable name
    if ← isWide e then readVariable name index
    else withHigh false (readVariable name index)
  | .unary .deref operand => deref operand
  | _ => fail (.badTarget e)

/-- Does a write to an expression load Y first? -/
def needsY (table : Table) : Expr → Bool
  | .unary .deref _ => true
  | .var name (.int _) => isPointer table name
  | _ => false

end Backend6502.Lowering
