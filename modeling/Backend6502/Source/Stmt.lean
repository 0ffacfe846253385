import Backend6502.Source.Expr

/-!
# Statements

Every statement carries its offset in the source and the label that may stand before it.
-/

namespace Backend6502.Source

/-- The place of a statement in the source, and its label; no label is the empty one. -/
structure Loc where
  pos : Int64 := 0
  label : String := ""
  deriving DecidableEq, Repr

/-- The values of a group of cases, and the statements after them. -/
structure Arm (α : Type) where
  values : List Int64
  isDefault : Bool
  body : List α
  deriving Repr

inductive Stmt where
  | block (loc : Loc) (body : List Stmt)
  | expr (loc : Loc) (e : Expr)
  | forLoop (loc : Loc) (init cond update : Expr) (body : Stmt)
  | whileLoop (loc : Loc) (cond : Expr) (body : Stmt)
  | doWhile (loc : Loc) (body : Stmt) (cond : Expr)
  | ifElse (loc : Loc) (cond : Expr) (thenBody : Stmt) (elseBody : Option Stmt)
  | switch (loc : Loc) (selector : Expr) (arms : List (Arm Stmt))
  | leave (loc : Loc)
  /-- Goes on with the next round of the innermost loop. -/
  | next (loc : Loc)
  | ret (loc : Loc) (value : Expr)
  /-- Assembler text that is taken over as it is. -/
  | asm (loc : Loc) (text : String)
  /-- Writes to a hardware register for its effect only. -/
  | strobe (loc : Loc) (target : Expr)
  | goto (loc : Loc) (target : String)
  deriving Repr

namespace Stmt

def loc : Stmt → Loc
  | .block loc _ | .expr loc _ | .forLoop loc _ _ _ _ | .whileLoop loc _ _ | .doWhile loc _ _
  | .ifElse loc _ _ _ | .switch loc _ _ | .leave loc | .next loc | .ret loc _ | .asm loc _
  | .strobe loc _ | .goto loc _ => loc

mutual

/-- Does control never run past the end of the statement? -/
def jumps : Stmt → Bool
  | .leave _ | .next _ | .ret _ _ | .goto _ _ => true
  | .block _ body => lastJumps body
  | _ => false

/-- Does control never run past the last statement? -/
def lastJumps : List Stmt → Bool
  | [] => false
  | [s] => jumps s
  | _ :: s :: rest => lastJumps (s :: rest)

end

end Stmt

structure Block where
  loc : Loc
  body : List Stmt
  deriving Repr

def Block.ofStmt : Stmt → Block
  | .block loc body => ⟨loc, body⟩
  | s => ⟨s.loc, [s]⟩

def Block.toStmt (b : Block) : Stmt :=
  .block b.loc b.body

end Backend6502.Source
