import Backend6502.Lowering.Variable

/-!
# Stores and steps

Writing a value to its target, and adding or subtracting one in place.
-/

namespace Backend6502.Lowering

open Source (Expr)
open Symbols (Variable)

/-- Runs a step with the accumulator pushed if its value is still needed. -/
def keepingA (step : Gen Unit) : Gen Unit := do
  let needed ← accInUse
  if needed then emitImplied .pha
  step
  if needed then emitImplied .pla

def storeX (value : Place) : Gen Unit :=
  match value with
  | .x => return
  | .accumulator _ => emitImplied .tax
  | .y => keepingA do
    emitImplied .tya
    emitImplied .tax
  | _ => emit .ldx value

def storeY (value : Place) : Gen Unit :=
  match value with
  | .y => return
  | .accumulator _ => emitImplied .tay
  | .x => keepingA do
    emitImplied .txa
    emitImplied .tay
  | _ => emit .ldy value

def storeMemory (place value : Place) : Gen Unit :=
  match storeOf? value with
  | some m => emit m place
  | none => keepingA do
    emit .lda value
    emit .sta place

def store (place value : Place) : Gen Unit :=
  match place with
  | .x => storeX value
  | .y => storeY value
  | .cell .. | .indexedX _ _ | .indexedY _ _ => storeMemory place value
  | _ => fail (.cannotAssign place)

/-- Writes to a hardware register; the value does not matter. -/
def strobe (e : Expr) : Gen Unit := do
  let place ← target e
  if place.isMemory then emit .sta place else fail .strobeTarget

def nextHere : Gen String := do
  return (Label.here (← nextIf)).text

def incrementWide (v : Variable) : Gen Unit := do
  let here ← nextHere
  emit .inc (.cell v.name false 0 v.signed)
  emitBranch .bne here
  emit .inc (.cell v.name false 1 v.signed)
  putLabel here

def decrementWide (v : Variable) : Gen Unit := do
  let here ← nextHere
  keepingA do
    emit .lda (.cell v.name false 0 v.signed)
    emitBranch .bne here
    emit .dec (.cell v.name false 1 v.signed)
    putLabel here
    emit .dec (.cell v.name false 0 v.signed)

def stepWide (v : Variable) (increments : Bool) : Gen Unit := do
  if v.memory = .rom || v.isConst then fail (.readOnly v.name)
  else if increments then incrementWide v
  else decrementWide v

def stepPlace (place : Place) (increments : Bool) : Gen Unit :=
  match place with
  | .x => emitImplied (if increments then .inx else .dex)
  | .y => emitImplied (if increments then .iny else .dey)
  | _ => emit (if increments then .inc else .dec) place

def step (e : Expr) (increments : Bool) : Gen Unit := do
  match wideVariable? (← symbols) e with
  | some v => stepWide v increments
  | none => stepPlace (← target e) increments

/-- Does what was put off, in order. -/
def stepAll : List Deferred → Gen Unit
  | [] => return
  | d :: rest => do
    step d.target d.increments
    stepAll rest

/-- Does what was put off to the end of the statement. -/
def flush : Gen Unit := do
  let deferred := (← get).deferred
  modify fun c => { c with deferred := [] }
  withHigh false (stepAll deferred)

/-- The end of a statement: what was put off is done, and no value is needed any more. -/
def endStatement : Gen Unit := do
  flush
  setAccInUse false
  setScratchInUse false

end Backend6502.Lowering
