import Backend6502.Code.Instruction
import Backend6502.Text.Quoted

/-!
# Defects

What goes wrong when a caller breaks a rule that the code relies on, as opposed to an error in the
program that is being compiled.
-/

namespace Backend6502.Code

inductive Defect where
  | noEncoding (op : Operation) (mode : Cpu.Mode)
  | noTarget (stream : String) (branch : Instruction)
  /-- Something was to be repaired that is no conditional branch. -/
  | notABranch (op : Operation)
  /-- Branches were asked for on the outcome of an operator that does not compare. -/
  | notAComparison (op : String)
  | unknownPlace (number : Int64)
  /-- A line was asked for that is not there, or a number of bytes that cannot be. -/
  | outOfBounds
  /-- A node was needed where the program has none. -/
  | absentNode
  deriving DecidableEq, Repr

namespace Defect

def message : Defect → String
  | .noEncoding op mode => Instruction.missing op mode
  | .noTarget stream branch =>
    "asm: " ++ stream ++ ": branch " ++ Text.quoted branch.text ++ " has no target label"
  | .notABranch op => "asm: " ++ op.text ++ " is not a conditional branch"
  | .notAComparison op => "branchOn: " ++ op ++ " is not a comparison"
  | .unknownPlace number => "unhandled ExprKind " ++ toString number
  | .outOfBounds | .absentNode => "runtime error"

end Defect

namespace Instruction

/-- The instruction of the table, where it is known to exist. -/
def build (op : Operation) (mode : Cpu.Mode) (operand : String) : Except Defect Instruction :=
  match find? op mode operand with
  | some i => .ok i
  | none => .error (.noEncoding op mode)

end Instruction

end Backend6502.Code
