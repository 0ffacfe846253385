/-!
# Operators

The operators of expressions. Besides the operators of the language there may be others, which are
known by their number only and have no meaning.
-/

namespace Backend6502.Source

inductive Op where
  | add | sub | mul | div | mod | and | or | xor | shl | shr
  | lt | gt | le | ge | eq | ne
  | logAnd | logOr
  | assign | addAssign | subAssign | andAssign | orAssign | xorAssign | shlAssign | shrAssign
  | mulAssign | divAssign
  /-- The question mark of `c ? a : b`; its right operand holds the arms. -/
  | choice
  /-- The colon of `c ? a : b`. -/
  | arms
  | neg | not | bitNot | deref
  | preInc | preDec | postInc | postDec
  /-- A number that stands for no operator. -/
  | other (number : Int64)
  deriving DecidableEq, Repr

namespace Op

/-- The operators of the language in the order of their numbers. -/
def all : List Op :=
  [.add, .sub, .mul, .div, .mod, .and, .or, .xor, .shl, .shr, .lt, .gt, .le, .ge, .eq, .ne,
   .logAnd, .logOr, .assign, .addAssign, .subAssign, .andAssign, .orAssign, .xorAssign, .shlAssign,
   .shrAssign, .mulAssign, .divAssign, .choice, .arms, .neg, .not, .bitNot, .deref, .preInc,
   .preDec, .postInc, .postDec]

def ofNumber (number : Int64) : Op :=
  if number < 0 then .other number else (all[number.toInt.toNat]?).getD (.other number)

def text : Op → String
  | .add => "+"
  | .sub => "-"
  | .mul => "*"
  | .div => "/"
  | .mod => "%"
  | .and => "&"
  | .or => "|"
  | .xor => "^"
  | .shl => "<<"
  | .shr => ">>"
  | .lt => "<"
  | .gt => ">"
  | .le => "<="
  | .ge => ">="
  | .eq => "=="
  | .ne => "!="
  | .logAnd => "&&"
  | .logOr => "||"
  | .assign => "="
  | .addAssign => "+="
  | .subAssign => "-="
  | .andAssign => "&="
  | .orAssign => "|="
  | .xorAssign => "^="
  | .shlAssign => "<<="
  | .shrAssign => ">>="
  | .mulAssign => "*="
  | .divAssign => "/="
  | .choice => "?"
  | .arms => ":"
  | .neg => "-"
  | .not => "!"
  | .bitNot => "~"
  | .deref => "*"
  | .preInc => "++"
  | .preDec => "--"
  | .postInc => "++"
  | .postDec => "--"
  | .other number => "Op(" ++ toString number ++ ")"

def binary : List Op :=
  all.take 30

/-- The operator between two operands with this spelling. -/
def ofBinaryText? (text : String) : Option Op :=
  binary.find? (·.text == text)

/-- The operator before an operand with this spelling. -/
def ofUnaryText? : String → Option Op
  | "-" => some .neg
  | "!" => some .not
  | "~" => some .bitNot
  | "*" => some .deref
  | _ => none

/-- The increment or decrement that is written this way around an `x`. -/
def ofStepText? : String → Option Op
  | "++x" => some .preInc
  | "--x" => some .preDec
  | "x++" => some .postInc
  | "x--" => some .postDec
  | _ => none

def compound? : Op → Option Op
  | .addAssign => some .add
  | .subAssign => some .sub
  | .andAssign => some .and
  | .orAssign => some .or
  | .xorAssign => some .xor
  | .shlAssign => some .shl
  | .shrAssign => some .shr
  | .mulAssign => some .mul
  | .divAssign => some .div
  | _ => none

def isAssign (op : Op) : Bool :=
  op == .assign || op.compound?.isSome

def isCompare : Op → Bool
  | .lt | .gt | .le | .ge | .eq | .ne => true
  | _ => false

def increments : Op → Bool
  | .preInc | .postInc => true
  | _ => false

def isPostfix : Op → Bool
  | .postInc | .postDec => true
  | _ => false

theorem ofBinaryText?_text (op : Op) (h : op ∈ binary) : ofBinaryText? op.text = some op := by
  have : ∀ op ∈ binary, ofBinaryText? op.text = some op := by decide
  exact this op h

end Op

end Backend6502.Source
