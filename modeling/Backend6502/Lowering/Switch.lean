import Backend6502.Lowering.Expr

/-!
# Switches

The tests of an arm stand right before its body. A test that fails goes to the tests of the next arm
that has any; the last one goes to the default arm, or out of the switch. A body that runs into an
arm with tests jumps over them.
-/

namespace Backend6502.Lowering

open Cpu (Mnemonic)

/-- An arm with the code of its body. -/
structure ArmCode where
  /-- The values to be tested; none for a default arm. -/
  values : List Int64
  /-- Does control run past the end of the body? -/
  fallsThrough : Bool
  body : Gen Unit

/-- Does the arm take what no test has taken? -/
def ArmCode.isDefault (arm : ArmCode) : Bool :=
  arm.values.isEmpty

/-- The indices of the elements that satisfy `p`, counted from `k` on. -/
def indicesFrom {α : Type} (p : α → Bool) : (k : Nat) → List α → List Nat
  | _, [] => []
  | k, a :: rest => if p a then k :: indicesFrom p (k + 1) rest else indicesFrom p (k + 1) rest

/-- What the arms of a switch have in common. -/
structure SwitchPlan where
  number : Nat
  /-- The instruction that compares the selector. -/
  compare : Mnemonic
  default? : Option Nat

namespace SwitchPlan

def body (plan : SwitchPlan) (k : Nat) : String :=
  (Label.switchBody plan.number k).text

def next (plan : SwitchPlan) (k : Nat) : String :=
  (Label.switchNext plan.number k).text

def stop (plan : SwitchPlan) : String :=
  (Label.switchEnd plan.number).text

/-- Where control goes if no test is left. -/
def otherwise (plan : SwitchPlan) : String :=
  match plan.default? with
  | some k => plan.body k
  | none => plan.stop

/-- Where control goes if the tests before the arms from `k` on have failed. -/
def firstTest (plan : SwitchPlan) (k : Nat) (arms : List ArmCode) : String :=
  match indicesFrom (!·.isDefault) k arms with
  | first :: _ => plan.next first
  | [] => plan.otherwise

def tests (plan : SwitchPlan) (body fail : String) : List Int64 → Gen Unit
  | [] => return
  | [value] => do
    emitByte plan.compare (lowByte value)
    emitBranch .bne fail
  | value :: rest => do
    emitByte plan.compare (lowByte value)
    emitBranch .beq body
    plan.tests body fail rest

/-- The code of an arm; `runsIn` says whether control comes from the body before it. -/
def arm (plan : SwitchPlan) (k : Nat) (runsIn : Bool) (arm : ArmCode) (rest : List ArmCode) :
    Gen Unit := do
  if !arm.isDefault then
    if k ≠ 0 then
      if runsIn then emitJump (plan.body k)
      putLabel (plan.next k)
    plan.tests (plan.body k) (plan.firstTest (k + 1) rest) arm.values
  putLabel (plan.body k)
  arm.body

def arms (plan : SwitchPlan) : (k : Nat) → (runsIn : Bool) → List ArmCode → Gen Unit
  | _, _, [] => return
  | k, runsIn, a :: rest => do
    plan.arm k runsIn a rest
    plan.arms (k + 1) a.fallsThrough rest

/--
Goes to the first test, or to the default arm if there is none, unless that comes first anyway.
-/
def enter (plan : SwitchPlan) (arms : List ArmCode) : Gen Unit := do
  match indicesFrom (!·.isDefault) 0 arms, plan.default? with
  | 0 :: _, _ => return
  | first :: _, _ => emitJump (plan.next first)
  | [], some (k + 1) => emitJump (plan.body (k + 1))
  | [], _ => return

end SwitchPlan

/-- Puts the selector into a register; one that is still to be changed goes to the accumulator. -/
def loadSelector (selector : Lowered) : Gen Place := do
  let place ← selector.value
  let deferred := !(← get).deferred.isEmpty
  if !place.isRegister then do
    loadA place
    return .accumulator place.signed
  else if deferred && !place.isAccumulator then do
    loadA place
    return .accumulator false
  else return place

def findDefault (arms : List ArmCode) : Gen (Option Nat) :=
  match indicesFrom (·.isDefault) 0 arms with
  | [] => return none
  | [k] => return some k
  | _ => fail .multipleDefaults

/-- Runs a step with other places for the statements that leave it. -/
def withExits (exits : Exits) (step : Gen Unit) : Gen Unit := do
  let outer := (← get).exits
  modify fun c => { c with exits := exits :: outer }
  step
  modify fun c => { c with exits := outer }

def switch (selector : Lowered) (arms : List ArmCode) : Gen Unit := do
  if ← isWide selector.expr then fail .wideSelector
  let place ← loadSelector selector
  setAccInUse true
  flush
  setAccInUse false
  let number ← nextIf
  let default? ← findDefault arms
  match compareOf? place with
  | none => throw (.defect (.noEncoding (.spelled "") .immediate))
  | some compare => do
    let plan : SwitchPlan := { number, compare, default? }
    let outer := (← get).exits.head?
    withExits { next := outer.bind (·.next), leave := plan.stop } do
      plan.enter arms
      plan.arms 0 false arms
    putLabel plan.stop

end Backend6502.Lowering
