import Backend6502.Lowering.Switch

/-!
# Statements

The code of statements and of a whole function.
-/

namespace Backend6502.Lowering

open Source (Expr Loc Arm Stmt)
open Symbols (Function)

/-- The start of a statement: its offset counts for errors, and its label is placed. -/
def enter (loc : Loc) : Gen Unit := do
  modify fun c => { c with pos := loc.pos }
  if !loc.label.isEmpty then putLabel (Label.source loc.label).text

/-- Where a statement that leaves a loop or switch goes. -/
def leaveTarget : Gen String := do
  match (← get).exits with
  | [] => fail .strayBreak
  | exits :: _ => return exits.leave

/-- Where a statement that goes on with the next round goes. -/
def nextTarget : Gen String := do
  match (← get).exits.head?.bind (·.next) with
  | none => fail .strayContinue
  | some label => return label

/-- The statement itself, or the only one of a block without a label. -/
def unwrapped : Stmt → Stmt
  | .block loc [s] => if loc.label.isEmpty then s else .block loc [s]
  | s => s

/-- Where a statement goes if it does nothing but go somewhere. -/
def jumpTarget (s : Stmt) : Gen (Option String) := do
  let s := unwrapped s
  if !s.loc.label.isEmpty then return none
  match s with
  | .leave _ => return some (← leaveTarget)
  | .next _ => return some (← nextTarget)
  | .goto _ name => return some (Label.source name).text
  | _ => return none

def exprStmt (e : Expr) : Gen Unit := do
  if !e.isAbsent then
    let _ ← (lower e).value
  endStatement

def ifThen (cond : Lowered) (thenBody : Gen Unit) : Gen Unit := do
  let n ← nextIf
  cond.test (Label.ifEnd n).text true
  thenBody
  putLabel (Label.ifEnd n).text

/-- A choice between two statements; `jumps` says that the first one never runs past its end. -/
def ifThenElse (cond : Lowered) (jumps : Bool) (thenBody elseBody : Gen Unit) : Gen Unit := do
  let n ← nextIf
  cond.test (Label.otherwise n).text true
  thenBody
  if !jumps then emitJump (Label.ifEnd n).text
  putLabel (Label.otherwise n).text
  elseBody
  putLabel (Label.ifEnd n).text

def isOmitted : Expr → Bool
  | .absent | .nothing => true
  | _ => false

def forInit (init : Expr) : Gen Unit := do
  if !init.isAbsent then exprStmt init

/-- Leaves a counting loop before its first round if its condition does not hold. -/
def forFirst (cond : Expr) (stop : String) : Gen Unit := do
  if !isOmitted cond then (lower cond).test stop true

/-- Goes on with the next round of a counting loop if its condition holds. -/
def forAgain (cond : Expr) (start : String) : Gen Unit :=
  if isOmitted cond then emitJump start else (lower cond).test start false

/-- A counting loop. The condition is tested before the loop and again at the end of a round. -/
def forLoop (init cond update : Expr) (body : Gen Unit) : Gen Unit := do
  forInit init
  let n ← nextFor
  let start := (Label.forStart n).text
  let stop := (Label.forEnd n).text
  forFirst cond stop
  putLabel start
  withExits { next := some (Label.forUpdate n).text, leave := stop } body
  putLabel (Label.forUpdate n).text
  exprStmt update
  forAgain cond start
  putLabel stop

def whileLoop (cond : Lowered) (body : Gen Unit) : Gen Unit := do
  let n ← nextWhile
  let start := (Label.whileStart n).text
  let stop := (Label.whileEnd n).text
  putLabel start
  cond.test stop true
  withExits { next := some start, leave := stop } body
  emitJump start
  putLabel stop

def doWhile (body : Gen Unit) (cond : Lowered) : Gen Unit := do
  let n ← nextWhile
  let start := (Label.doStart n).text
  putLabel start
  withExits { next := some (Label.doCond n).text, leave := (Label.doEnd n).text } body
  putLabel (Label.doCond n).text
  cond.test start false
  putLabel (Label.doEnd n).text

def returnStmt (value : Expr) : Gen Unit := do
  if !value.isAbsent then
    let f := (← read).function
    if f.interrupt then fail (.interruptReturns f.name)
    loadA (← (lower value).value)
    setAccInUse true
  endStatement
  emitReturn

def asmStmt (text : String) : Gen Unit := do
  addLine (.verbatim text)
  setFlags .unknown

mutual

def stmt : Stmt → Gen Unit
  | .block loc body => do
    enter loc
    stmts body
  | .expr loc e => do
    enter loc
    exprStmt e
  | .forLoop loc init cond update body => do
    enter loc
    forLoop init cond update (stmt body)
  | .whileLoop loc cond body => do
    enter loc
    whileLoop (lower cond) (stmt body)
  | .doWhile loc body cond => do
    enter loc
    doWhile (stmt body) (lower cond)
  | .ifElse loc cond thenBody none => do
    enter loc
    match ← jumpTarget thenBody with
    | some label => (lower cond).test label false
    | none => ifThen (lower cond) (stmt thenBody)
  | .ifElse loc cond thenBody (some elseBody) => do
    enter loc
    ifThenElse (lower cond) thenBody.jumps (stmt thenBody) (stmt elseBody)
  | .switch loc selector arms => do
    enter loc
    switch (lower selector) (armCodes arms)
  | .leave loc => do
    enter loc
    emitJump (← leaveTarget)
  | .next loc => do
    enter loc
    emitJump (← nextTarget)
  | .ret loc value => do
    enter loc
    returnStmt value
  | .asm loc text => do
    enter loc
    asmStmt text
  | .strobe loc e => do
    enter loc
    strobe e
  | .goto loc name => do
    enter loc
    emitJump (Label.source name).text

def stmts : List Stmt → Gen Unit
  | [] => return
  | s :: rest => do
    stmt s
    stmts rest

def armCodes : List (Arm Stmt) → List ArmCode
  | [] => []
  | arm :: rest => armCode arm :: armCodes rest

def armCode : Arm Stmt → ArmCode
  | ⟨values, isDefault, body⟩ =>
    { values := if isDefault then [] else values
      fallsThrough := !Stmt.lastJumps body
      body := stmts body }

end

def endsInReturn (body : List Stmt) : Bool :=
  match body.getLast? with
  | some (.ret _ _) => true
  | _ => false

def function (f : Function) : Gen Unit := do
  putLabel f.name
  match f.body with
  | none => emitReturn
  | some block => do
    stmt block.toStmt
    if !endsInReturn block.body then emitReturn

end Backend6502.Lowering
