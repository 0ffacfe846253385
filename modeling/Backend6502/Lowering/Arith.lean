import Backend6502.Lowering.Operand

/-!
# Arithmetic

The left operand is loaded into the accumulator and the right one is applied to it. If the old value
of the accumulator is still needed, it is pushed and the result goes to the scratch cell.
-/

namespace Backend6502.Lowering

open Cpu (Mnemonic)
open Source (Op Expr)

/-- Can the operands change places? -/
def isCommutative : Op → Bool
  | .add | .and | .or | .xor => true
  | _ => false

def arithMnemonic? : Op → Option Mnemonic
  | .add => some .adc
  | .sub => some .sbc
  | .and => some .and
  | .or => some .ora
  | .xor => some .eor
  | _ => none

/-- What the pass for high bytes cannot do. -/
def checkHighArith (op : Op) (lhs rhs : Expr) : Gen Unit := do
  if ← inHigh then
    let table ← symbols
    if isSignedByte table lhs || isSignedByte table rhs then fail .signedByteInWide
    if op = .add || op = .sub then
      if ← carries lhs then fail .chainedWide
      if ← carries rhs then fail .chainedWide

/-- Computes two operands one after the other; the first one is kept in the accumulator. -/
def bothValues (lhs rhs : Operand) : Gen (Place × Place) := do
  let outer ← accInUse
  let l ← lhs.value
  if l.isAccumulator then setAccInUse true
  let r ← rhs.value
  setAccInUse outer
  return (l, r)

def instructionOf (op : Op) : Gen Mnemonic := do
  match op with
  | .mul => fail .multiplication
  | .div | .mod => fail .division
  | _ =>
    match arithMnemonic? op with
    | some m => return m
    | none => fail (.unsupportedOperator op)

/-- Takes the right value out of the accumulator. -/
def freeAccumulator (op : Op) (l r : Place) : Gen (Place × Place) := do
  if r.isAccumulator then
    if isCommutative op then return (r, l) else return (l, ← spill r)
  else return (l, r)

/-- Takes the right value out of an index register. -/
def freeIndexRegister (op : Op) (l r : Place) : Gen (Place × Place) := do
  if r.isIndexRegister then
    if isCommutative op && !l.isRegister then return (r, l) else return (l, ← spill r)
  else return (l, r)

/-- Sets the carry as an addition or subtraction needs it. -/
def prepareCarry (op : Op) : Gen Unit := do
  if !(← inHigh) then
    if op = .add then emitImplied .clc
    if op = .sub then emitImplied .sec

def apply (op : Op) (m : Mnemonic) (l r : Place) : Gen Place := do
  let outer ← accInUse
  let signed := l.signed || r.signed
  let pushed := outer && !l.isAccumulator
  if !l.isAccumulator then
    if outer && (← get).scratchInUse && !r.isScratch && !l.isScratch then fail .tooComplex
    save outer
    loadA l
  prepareCarry op
  emit m r
  restore pushed signed

def arith (op : Op) (lhs rhs : Operand) : Gen Place := do
  checkHighArith op lhs.expr rhs.expr
  let (l, r) ← bothValues lhs rhs
  match l, r with
  | .immediate a, .immediate b =>
    match fold op a b with
    | .ok n => return .immediate n
    | .error problem => fail (.fold problem)
  | _, _ => do
    let m ← instructionOf op
    if l.isNothing || r.isNothing then fail .noValue
    let (l, r) ← freeAccumulator op l r
    let (l, r) ← freeIndexRegister op l r
    apply op m l r

def shiftOnce (op : Op) (signed : Bool) : Gen Unit := do
  if op = .shl then emit .asl (.accumulator signed)
  else if signed then
    emitByte .cmp 0x80
    emit .ror (.accumulator true)
  else emit .lsr (.accumulator false)

def shiftTimes (op : Op) (signed : Bool) : Nat → Gen Unit
  | 0 => return
  | n + 1 => do
    shiftOnce op signed
    shiftTimes op signed n

/-- A shift by less than a byte, or of a byte. -/
def shiftBits (op : Op) (lhs : Operand) (amount : Int64) : Gen Place := do
  if amount < 0 ∨ 8 < amount then fail .shiftOutOfRange
  let outer ← accInUse
  let l ← lhs.value
  match l with
  | .immediate a => return .immediate ((fold op a amount).toOption.getD 0)
  | _ => do
    if ← inHigh then fail .wideShift
    if amount = 0 then return l
    let pushed := outer && !l.isAccumulator
    if !l.isAccumulator then
      save outer
      loadA l
    shiftTimes op l.signed amount.toInt.toNat
    restore pushed l.signed

def shiftByteLeft (lhs : Operand) : Gen Place := do
  if ← inHigh then withHigh false lhs.value else return .immediate 0

def shiftByteRight (lhs : Operand) : Gen Place := do
  match wideVariable? (← symbols) lhs.expr with
  | some v => if ← inHigh then return .immediate 0 else return .cell v.name true 1 false
  | none => shiftBits .shr lhs 8

def shift (op : Op) (lhs : Operand) (amount : Expr) : Gen Place := do
  match ← constant amount with
  | none => fail .shiftNotConstant
  | some n =>
    if n = 8 then
      if op = .shl then shiftByteLeft lhs else shiftByteRight lhs
    else shiftBits op lhs n

def arithOrShift (op : Op) (lhs rhs : Operand) : Gen Place :=
  if op = .shl || op = .shr then shift op lhs rhs.expr else arith op lhs rhs

end Backend6502.Lowering
