import Backend6502.Lowering.Choice

/-!
# Assignments

A byte is written once. A 16 bit variable is written in two passes over the same expression, the low
byte first unless the low byte moves up.
-/

namespace Backend6502.Lowering

open Source (Op Expr)

/-- Is it an addition or subtraction of one? -/
def isStepping (op : Op) (rhs : Expr) : Gen Bool := do
  match op.compound? with
  | some base =>
    if base = .add || base = .sub then return (← constant rhs) == some 1 else return false
  | none => return false

def shiftInPlace (base : Op) (lhs : Expr) (amount : Int64) : Gen (Option Place) := do
  let table ← symbols
  if amount < 1 ∨ 8 < amount ∨ needsY table lhs ∨ (wideVariable? table lhs).isSome then
    return none
  else do
    let place ← target lhs
    match place with
    | .cell _ _ _ false | .indexedX _ false => do
      emitTimes (if base = .shr then .lsr else .asl) place amount.toInt.toNat
      return some place
    | _ => return none

/-- Carries out a compound assignment where the value is, if that is possible. -/
def assignInPlace (base : Op) (lhs rhs : Expr) : Gen (Option Place) := do
  match ← constant rhs, ← inHigh with
  | some amount, false =>
    match base with
    | .add | .sub =>
      if amount = 1 then do
        let place ← target lhs
        step lhs (base = .add)
        return some place
      else return none
    | .shl | .shr => shiftInPlace base lhs amount
    | _ => return none
  | _, _ => return none

def shelter (lhs : Expr) (value : Place) : Gen Place := do
  match value with
  | .x | .y | .indexedY _ _ =>
    if needsY (← symbols) lhs then do
      if ← accInUse then fail .tooComplex
      loadA value
      return .accumulator value.signed
    else return value
  | _ => return value

def storeValue (lhs : Expr) (value : Gen Place) : Gen Place := do
  let outer ← accInUse
  let v ← value
  match v with
  | .nothing | .label _ => fail .noValue
  | _ => do
    let v ← shelter lhs v
    if v.isAccumulator then setAccInUse true
    let place ← target lhs
    store place v
    setAccInUse outer
    return place

def assignByte (op : Op) (lhs rhs : Operand) : Gen Place := do
  match op.compound? with
  | none => storeValue lhs.expr rhs.value
  | some base => do
    let outer ← accInUse
    match ← assignInPlace base lhs.expr rhs.expr with
    | some place => do
      setAccInUse outer
      return place
    | none => storeValue lhs.expr (arithOrShift base lhs rhs)

/-- Does the low byte of the value move up, so that the high byte has to be written first? -/
def movesUp (op : Op) (rhs : Expr) : Gen Bool := do
  match op.compound?, rhs with
  | some .shl, amount => return (← constant amount) == some 8
  | none, .binary .shl _ amount => return (← constant amount) == some 8
  | _, _ => return false

def assignPass (high outer : Bool) (op : Op) (lhs rhs : Operand) : Gen Place := do
  setHigh high
  setAccInUse outer
  assignByte op lhs rhs

/-- Writes both bytes of a 16 bit variable; the answer is the place of the low one. -/
def assignWide (op : Op) (lhs rhs : Operand) : Gen Place := do
  let highFirst ← movesUp op rhs.expr
  let outer ← accInUse
  if highFirst then do
    let _ ← assignPass true outer op lhs rhs
    let low ← assignPass false outer op lhs rhs
    setHigh false
    return low
  else do
    let low ← assignPass false outer op lhs rhs
    let _ ← assignPass true outer op lhs rhs
    setHigh false
    return low

/-- Refuses to write a 16 bit variable to an index register. -/
def checkRegisterTarget (lhs rhs : Expr) : Gen Unit := do
  match lhs with
  | .var name _ =>
    if isRegisterName name then
      if ← isWide rhs then fail (.wideToRegister name)
  | _ => return

/--
An assignment. In the pass for high bytes a nested assignment has already been done, and only a
16 bit variable has a byte left to be written.
-/
def assign (op : Op) (lhs rhs : Operand) : Gen Place := do
  let wide := wideVariable? (← symbols) lhs.expr
  let stepping ← isStepping op rhs.expr
  match ← inHigh, wide with
  | true, none => lhs.value
  | true, some _ => if stepping then lhs.value else assignByte op lhs rhs
  | false, none => do
    checkRegisterTarget lhs.expr rhs.expr
    assignByte op lhs rhs
  | false, some v =>
    if stepping then do
      stepWide v (op = .addAssign)
      return .cell v.name false 0 v.signed
    else assignWide op lhs rhs

/-- An increment or a decrement; one behind its operand is put off to the end of the statement. -/
def incDec (op : Op) (operand : Operand) : Gen Place := do
  let place ← target operand.expr
  if ← inHigh then operand.value
  else if op.isPostfix then do
    modify fun c => { c with deferred := c.deferred ++ [⟨operand.expr, op.increments⟩] }
    return place
  else do
    step operand.expr op.increments
    return place

end Backend6502.Lowering
