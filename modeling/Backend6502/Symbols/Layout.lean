import Backend6502.Symbols.Table

/-!
# The memory layout

Every variable that is not a constant gets an address. Zero page variables follow the scratch cell,
the others start at `$0200`, both in the order of their names; a fixed address is kept.
-/

namespace Backend6502.Symbols

def scratchAddress : UInt16 := 0x80

/-- The address after the scratch cell, where zero page variables start. -/
def zeroPageStart : Int64 := 0x81

def zeroPageEnd : Int64 := 0x100

def ramStart : Int64 := 0x200

def codeStart : UInt16 := 0x1000

/-- The end of the memory for variables. -/
def ramEnd : Int64 := 0x1000

inductive LayoutError where
  | zeroPageFull (name : String)
  | ramFull (name : String)
  deriving DecidableEq, Repr

def LayoutError.message : LayoutError → String
  | .zeroPageFull name => "layout: zero page full at " ++ name
  | .ramFull name => "layout: RAM full at " ++ name

def Variable.byteCount (v : Variable) : Int64 :=
  if 0 < v.length then v.size * v.length else v.size

/-- The lowest sixteen bits of a number, as an address. -/
def addressOf (n : Int64) : UInt16 :=
  n.toUInt64.toUInt16

/-- Places variables; `zeroPage` and `ram` are the first free addresses. -/
def placeVariables (zeroPage ram : Int64) :
    List Variable → Except LayoutError (List (String × UInt16))
  | [] => .ok []
  | v :: rest =>
    if v.isConst then placeVariables zeroPage ram rest
    else if v.address ≠ 0 then do
      let others ← placeVariables zeroPage ram rest
      return (v.name, addressOf v.address) :: others
    else if v.memory = .zeroPage then
      if zeroPageEnd < zeroPage + v.byteCount then .error (.zeroPageFull v.name)
      else do
        let others ← placeVariables (zeroPage + v.byteCount) ram rest
        return (v.name, addressOf zeroPage) :: others
    else if ramEnd < ram + v.byteCount then .error (.ramFull v.name)
    else do
      let others ← placeVariables zeroPage (ram + v.byteCount) rest
      return (v.name, addressOf ram) :: others

def Table.layout (t : Table) : Except LayoutError (List (String × UInt16)) := do
  let placed ← placeVariables zeroPageStart ramStart t.vars
  return insertBy (fun a b => a.1 < b.1) (scratchCell, scratchAddress) placed

end Backend6502.Symbols
