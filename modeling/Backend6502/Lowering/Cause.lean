import Backend6502.Lowering.Constant
import Backend6502.Lowering.Place
import Backend6502.Source.Diagnostic

/-!
# Compile errors

What may be wrong with a function, and its wording.
-/

namespace Backend6502.Lowering

open Cpu (Mnemonic Mode)
open Source (Op Expr ErrorKind Diagnostic)

inductive Cause where
  | tooComplex
  | noValue
  | unsupportedUnary (op : Op)
  | malformedChoice
  | strayArms
  | registerSubscripted (name : String)
  | unknownIdentifier (name : String)
  | wideArraySubscripted (name : String)
  | notAnArray (name : String)
  | pointerNeedsY (name : String)
  | indexOutOfRange (index : Int64) (name : String)
  | badSubscript (name : String)
  | notAPointerVariable
  | notAPointer (name : String)
  | signedByteInWide
  | chainedWide
  | fold (problem : FoldProblem)
  | multiplication
  | division
  | unsupportedOperator (op : Op)
  | shiftNotConstant
  | shiftOutOfRange
  | wideShift
  | readOnly (name : String)
  | badTarget (e : Expr)
  | wideToRegister (name : String)
  | noEncoding (m : Mnemonic) (mode : Mode) (place : Place)
  | registerOperand (m : Mnemonic) (place : Place)
  | cannotAssign (place : Place)
  | strobeTarget
  | strayBreak
  | strayContinue
  | interruptReturns (name : String)
  | wideSelector
  | multipleDefaults
  | wideComparison
  | valuelessComparison
  | unknownFunction (name : String)
  | takesNoArguments (name : String)
  | interruptCalled (name : String)
  | signedWideReturn (name : String)
  | farCall (name : String) (bank callerBank : Int64)
  | oneArgument (name : String)
  | sleepNotConstant
  | sleepTooShort (cycles : Int64)
  | unsupportedBuiltin (name : String)
  deriving Repr

namespace Cause

/-- Is it misuse, or something that the target cannot do? -/
def kind : Cause → ErrorKind
  | .signedByteInWide | .chainedWide | .multiplication | .division | .wideShift | .wideComparison
  | .signedWideReturn _ | .unsupportedBuiltin _ => .unimplemented
  | _ => .misuse

def message : Cause → String
  | .tooComplex => "code too complex for the compiler"
  | .noValue => "expression has no value"
  | .unsupportedUnary op => "unsupported unary operator " ++ op.text
  | .malformedChoice => "malformed ternary expression"
  | .strayArms => "':' outside of a ternary expression"
  | .registerSubscripted name => "register " ++ name ++ " cannot be subscripted"
  | .unknownIdentifier name => "unknown identifier " ++ name
  | .wideArraySubscripted name => "16-bit array " ++ name ++ " cannot be subscripted"
  | .notAnArray name => name ++ " is not an array"
  | .pointerNeedsY name => "pointer " ++ name ++ " can only be indexed by Y"
  | .indexOutOfRange index name => "index " ++ toString index ++ " out of range for " ++ name
  | .badSubscript name => "subscript of " ++ name ++ " must be X, Y or a constant"
  | .notAPointerVariable => "only pointer variables can be dereferenced"
  | .notAPointer name => name ++ " is not a pointer"
  | .signedByteInWide => "signed 8-bit operand in 16-bit arithmetic"
  | .chainedWide => "16-bit arithmetic is limited to one addition or subtraction"
  | .fold problem => problem.message
  | .multiplication => "multiplication is not supported"
  | .division => "division is not supported"
  | .unsupportedOperator op => "unsupported operator " ++ op.text
  | .shiftNotConstant => "shift amount must be a constant"
  | .shiftOutOfRange => "shift amount must be between 0 and 8"
  | .wideShift => "16-bit shifts are only supported by 8"
  | .readOnly name => "cannot modify read-only variable " ++ name
  | .badTarget e => "bad left-value " ++ e.shown
  | .wideToRegister name => "cannot assign 16-bit data to " ++ name
  | .noEncoding m mode place =>
    Code.Instruction.missing (.known m) mode ++ " (operand " ++ place.text ++ ")"
  | .registerOperand m place =>
    m.name ++ ": register " ++ place.text ++ " is not a memory operand"
  | .cannotAssign place => "cannot assign to " ++ place.text
  | .strobeTarget => "strobe target must be a memory location"
  | .strayBreak => "break statement not within loop or switch"
  | .strayContinue => "continue statement not within a loop"
  | .interruptReturns name => "interrupt handler " ++ name ++ " cannot return a value"
  | .wideSelector => "16-bit switch selector is not supported"
  | .multipleDefaults => "multiple default labels in one switch"
  | .wideComparison => "16-bit comparison is not supported"
  | .valuelessComparison => "comparison with a value-less expression"
  | .unknownFunction name => "unknown function " ++ name
  | .takesNoArguments name => "function " ++ name ++ " takes no arguments"
  | .interruptCalled name => "interrupt handler " ++ name ++ " cannot be called"
  | .signedWideReturn name => "signed return value of " ++ name ++ " in 16-bit context"
  | .farCall name bank callerBank =>
    "cannot call " ++ name ++ " in bank " ++ toString bank ++ " from bank " ++ toString callerBank
  | .oneArgument name => name ++ " takes exactly one argument"
  | .sleepNotConstant => "csleep argument must be a constant"
  | .sleepTooShort cycles => "csleep(" ++ toString cycles ++ "): at least 2 cycles"
  | .unsupportedBuiltin name => name ++ " is not supported"

end Cause

structure CompileError where
  cause : Cause
  pos : Int64
  deriving Repr

def CompileError.diagnostic (e : CompileError) : Diagnostic :=
  ⟨e.cause.kind, e.pos, e.cause.message⟩

inductive Failure where
  | error (e : CompileError)
  | defect (d : Code.Defect)
  deriving Repr

end Backend6502.Lowering
