import Backend6502.Source.Stmt
import Backend6502.Text.Column

/-!
# The symbol table

Variables in the order of their names and functions in the order of their declaration. A name is
given once to a variable and once to a function, and a function takes no variable's name.
-/

namespace Backend6502.Symbols

open Source (Block)

/-- Where a variable lives. -/
inductive MemoryClass where
  | zeroPage
  | ram
  | rom
  /-- A number that stands for no class. -/
  | other (number : Int64)
  deriving DecidableEq, Repr

namespace MemoryClass

def ofNumber (number : Int64) : MemoryClass :=
  if number = 0 then .zeroPage
  else if number = 1 then .ram
  else if number = 2 then .rom
  else .other number

def text : MemoryClass → String
  | .zeroPage => "zeropage"
  | .ram => "ram"
  | .rom => "rom"
  | .other number => "MemoryClass(" ++ toString number ++ ")"

def ofText? : String → Option MemoryClass
  | "" => some .ram
  | "zeropage" => some .zeroPage
  | "ram" => some .ram
  | "rom" => some .rom
  | _ => none

end MemoryClass

/-- A named memory cell or array, or a constant. -/
structure Variable where
  name : String
  memory : MemoryClass := .ram
  size : Int64 := 0
  /-- The number of elements; 0 for a single cell. -/
  length : Int64 := 0
  signed : Bool := false
  pointer : Bool := false
  isConst : Bool := false
  value : Int64 := 0
  /-- The fixed address of a hardware register; 0 if the variable is placed by the layout. -/
  address : Int64 := 0
  deriving DecidableEq, Repr

structure Function where
  name : String
  bank : Int64 := 0
  /-- The place of its declaration among the others. -/
  order : Int64 := 0
  interrupt : Bool := false
  returns : Bool := false
  signed : Bool := false
  body : Option Block := none
  deriving Repr

inductive DefinitionError where
  | unnamedVariable
  | reservedName (name : String)
  | variableRedefined (name : String)
  | unsupportedSize (name : String) (size : Int64)
  | unnamedFunction
  | functionRedefined (name : String)
  | functionIsVariable (name : String)
  deriving DecidableEq, Repr

def DefinitionError.message : DefinitionError → String
  | .unnamedVariable => "variable without a name"
  | .reservedName name => name ++ " is a reserved name"
  | .variableRedefined name => "variable " ++ name ++ " redefined"
  | .unsupportedSize name size => "variable " ++ name ++ ": unsupported size " ++ toString size
  | .unnamedFunction => "function without a name"
  | .functionRedefined name => "function " ++ name ++ " redefined"
  | .functionIsVariable name => "function " ++ name ++ " clashes with a variable"

/-- The name of the zero page cell that generated code keeps for itself. -/
def scratchCell : String := "cctmp"

/-- The names that no variable can have. -/
def isReserved (name : String) : Bool :=
  name == "X" || name == "Y" || name == scratchCell

def insertBy {α : Type} (comesBefore : α → α → Bool) (a : α) : List α → List α
  | [] => [a]
  | b :: rest => if comesBefore a b then a :: b :: rest else b :: insertBy comesBefore a rest

/-- The known variables and functions. -/
structure Table where
  vars : List Variable := []
  /-- By order, then by name. -/
  functions : List Function := []
  deriving Repr

namespace Table

def getVariable? (t : Table) (name : String) : Option Variable :=
  t.vars.find? (·.name == name)

def getFunction? (t : Table) (name : String) : Option Function :=
  t.functions.find? (·.name == name)

/-- The size of an element as it counts: one byte if nothing is said, two for a pointer. -/
def elementSize (v : Variable) : Int64 :=
  if v.pointer then 2 else if v.size = 0 then 1 else v.size

def defineVariable (t : Table) (v : Variable) : Except DefinitionError Table :=
  if v.name.isEmpty then .error .unnamedVariable
  else if isReserved v.name then .error (.reservedName v.name)
  else if (t.getVariable? v.name).isSome then .error (.variableRedefined v.name)
  else
    let v := { v with size := elementSize v }
    if v.size = 1 ∨ v.size = 2 then
      .ok { t with vars := insertBy (fun a b => a.name < b.name) v t.vars }
    else .error (.unsupportedSize v.name v.size)

def declaredBefore (f g : Function) : Bool :=
  if f.order = g.order then f.name < g.name else f.order < g.order

def defineFunction (t : Table) (f : Function) : Except DefinitionError Table :=
  if f.name.isEmpty then .error .unnamedFunction
  else if (t.getFunction? f.name).isSome then .error (.functionRedefined f.name)
  else if (t.getVariable? f.name).isSome then .error (.functionIsVariable f.name)
  else .ok { t with functions := insertBy declaredBefore f t.functions }

def variableLine (v : Variable) : String :=
  "  " ++ Text.padRight 20 v.name ++ "  " ++ v.memory.text ++ " (Size: " ++ toString v.size
    ++ ", Length: " ++ toString v.length ++ ", Signed: " ++ toString v.signed
    ++ ", Pointer: " ++ toString v.pointer ++ ")"
    ++ (if v.isConst then " = " ++ toString v.value else "") ++ "\n"

def functionLine (f : Function) : String :=
  "  " ++ Text.padRight 20 f.name ++ "  Bank: " ++ toString f.bank
    ++ (if f.interrupt then " (interrupt)" else "") ++ "\n"

def dump (t : Table) : String :=
  (if t.vars.isEmpty then "Variables: (empty)\n"
    else "Variables:\n" ++ String.join (t.vars.map variableLine))
  ++ (if t.functions.isEmpty then ""
    else "Functions:\n" ++ String.join (t.functions.map functionLine))

end Table

end Backend6502.Symbols
