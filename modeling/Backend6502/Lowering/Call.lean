import Backend6502.Lowering.Assign

/-!
# Calls

Functions take no arguments and return at most a byte. From the fixed bank a function in another
bank is called through a trampoline. Some names are built in.
-/

namespace Backend6502.Lowering

open Symbols (Function scratchCell)

def isBuiltin (name : String) : Bool :=
  ["load", "store", "strobe", "csleep", "memcpy", "memset"].contains name

def onlyArgument (name : String) (args : List Operand) : Gen Operand :=
  match args with
  | [arg] => return arg
  | _ => fail (.oneArgument name)

def loadCall (arg : Operand) : Gen Place := do
  if ← accInUse then fail .tooComplex
  let v ← arg.value
  loadA v
  return .accumulator v.signed

def storeCall (arg : Operand) : Gen Place := do
  let place ← target arg.expr
  store place (.accumulator false)
  return .nothing

def strobeCall (arg : Operand) : Gen Place := do
  strobe arg.expr
  return .nothing

/-- Lets a number of cycles pass; an odd one starts with an instruction of three cycles. -/
def sleep (cycles : Int64) : Gen Unit := do
  if cycles.toInt % 2 = 1 then
    addFixed .bit .zeroPage scratchCell
    setFlags .unknown
    addTimes ((cycles.toInt.toNat - 3) / 2) .nop .implied ""
  else addTimes (cycles.toInt.toNat / 2) .nop .implied ""

def sleepCall (arg : Operand) : Gen Place := do
  match ← constant arg.expr with
  | none => fail .sleepNotConstant
  | some cycles => do
    if cycles < 2 then fail (.sleepTooShort cycles)
    sleep cycles
    return .nothing

def builtinCall (name : String) (args : List Operand) : Gen Place := do
  if name == "load" then loadCall (← onlyArgument name args)
  else if name == "store" then storeCall (← onlyArgument name args)
  else if name == "strobe" then strobeCall (← onlyArgument name args)
  else if name == "csleep" then sleepCall (← onlyArgument name args)
  else fail (.unsupportedBuiltin name)

/-- Puts a name into a list in order, once. -/
def insertName (name : String) (names : List String) : List String :=
  if names.contains name then names else Symbols.insertBy (fun a b => a < b) name names

def trampolineName (name : String) : String :=
  name ++ "_trampoline"

def callTarget (f : Function) : Gen String := do
  let bank := (← read).function.bank
  if f.bank = bank ∨ f.bank = 0 then return f.name
  else if bank = 0 then do
    modify fun c => { c with trampolines := insertName f.name c.trampolines }
    return trampolineName f.name
  else fail (.farCall f.name f.bank bank)

def callFunction (f : Function) : Gen Place := do
  let label ← callTarget f
  let outer ← accInUse
  save outer
  emit .jsr (.label label)
  if f.returns then restore outer f.signed
  else do
    if outer then emitImplied .pla
    return .nothing

def returnedHigh (f : Function) : Gen Place := do
  if !f.returns then return .nothing
  else if f.signed then fail (.signedWideReturn f.name)
  else return .immediate 0

def programCall (name : String) (argCount : Nat) : Gen Place := do
  match (← symbols).getFunction? name with
  | none => fail (.unknownFunction name)
  | some f => do
    if argCount ≠ 0 then fail (.takesNoArguments name)
    if f.interrupt then fail (.interruptCalled name)
    if ← inHigh then returnedHigh f else callFunction f

def call (name : String) (args : List Operand) : Gen Place := do
  if isBuiltin name then
    if ← inHigh then return .immediate 0 else builtinCall name args
  else programCall name args.length

end Backend6502.Lowering
