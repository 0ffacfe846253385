import Backend6502.Code.Assembler
import Backend6502.Compiler
import Backend6502.Cpu.Execute
import Backend6502.Symbols.Layout

/-!
# Running a program

A compiled program in memory. A few instructions in front of it call `main` and spin once it has
returned.
-/

namespace Backend6502

open Code (Assembler AssemblyError Instruction Stream)
open Symbols (LayoutError Table codeStart)

/-- A program in memory. -/
structure Machine where
  /-- The addresses of the variables, by name. -/
  addresses : List (String × UInt16)
  cpu : Cpu.State
  /-- The number of instructions of the last run. -/
  steps : Nat := 0
  /-- Where a run ends. -/
  halt : UInt16

namespace Machine

/-- Why a program cannot be loaded. -/
inductive LoadError where
  | noMain
  | layout (error : LayoutError)
  | assembly (error : AssemblyError)
  deriving DecidableEq, Repr

def LoadError.message : LoadError → String
  | .noMain => "run: program has no main"
  | .layout error => error.message
  | .assembly error => "run: " ++ error.message

def callOf (target : String) : Instruction where
  op := .known .jsr
  mode := .absolute
  operand := target
  cycles := 6
  cyclesTaken := 0
  size := 3
  isProtected := false

/-- The code in front of the program: it calls `main` and then stays where it is. -/
def startup : Stream where
  name := "harness"
  lines := [.instruction (callOf "main"), .label ".halt", .instruction (.jump ".halt")]

/-- Puts a compiled program into memory. -/
def load (c : Compiled) (t : Table) : Except LoadError Machine :=
  match c.stream? "main" with
  | none => .error .noMain
  | some _ =>
    match t.layout with
    | .error error => .error (.layout error)
    | .ok addresses =>
      match (Assembler.ofSymbols addresses).assemble codeStart (startup :: c.streams) with
      | (_, .error error) => .error (.assembly error)
      | (assembler, .ok code) => .ok {
          addresses
          cpu := { memory := ({} : Cpu.Memory).writeBytes codeStart code }
          halt := (assembler.address? "harness.halt").getD 0 }

/--
Steps until the program counter reaches `halt`, at most `bound` of them; counts from `steps` on.
-/
def stepsUpTo (halt : UInt16) : (bound steps : Nat) → Cpu.State → Nat × Cpu.State
  | 0, steps, cpu => (steps, cpu)
  | bound + 1, steps, cpu =>
    if cpu.pc = halt then (steps, cpu) else stepsUpTo halt bound (steps + 1) cpu.step

theorem stepsUpTo_of_halted (halt : UInt16) (bound steps : Nat) (cpu : Cpu.State)
    (h : cpu.pc = halt) : stepsUpTo halt bound steps cpu = (steps, cpu) := by
  cases bound with
  | zero => rfl
  | succ bound => rw [stepsUpTo, if_pos h]

/-- A run that did not end in time. -/
structure Overrun where
  limit : Int64
  pc : UInt16
  deriving DecidableEq, Repr

def Overrun.message (o : Overrun) : String :=
  "run: main did not return after " ++ toString o.limit ++ " instructions (PC=$"
    ++ Text.hexUpper 4 o.pc.toNat ++ ")"

/-- Runs `main` from its start. It fails if `main` does not return within `limit` instructions. -/
def run (m : Machine) (limit : Int64) : Machine × Option Overrun :=
  let (steps, cpu) := stepsUpTo m.halt limit.toInt.toNat 0 { m.cpu with pc := codeStart }
  ({ m with cpu, steps }, if cpu.pc = m.halt then none else some ⟨limit, cpu.pc⟩)

/-- The address of a byte of a variable. -/
def addressOf (m : Machine) (name : String) (offset : Int64) : UInt16 :=
  (m.addresses.lookup name).getD 0 + Symbols.addressOf offset

/-- A byte of a variable. -/
def peek (m : Machine) (name : String) (offset : Int64) : UInt8 :=
  m.cpu.read (m.addressOf name offset)

/-- Writes a byte of a variable. -/
def poke (m : Machine) (name : String) (offset : Int64) (b : UInt8) : Machine :=
  { m with cpu := m.cpu.write (m.addressOf name offset) b }

/-- Bytes from an address on. The number of bytes must be one that some store could hold. -/
def bytesAt (m : Machine) (address : UInt16) (count : Int64) : Except Code.Defect (List UInt8) :=
  if count < 0 || 0x1000000000000 < count then .error .outOfBounds
  else .ok (m.cpu.memory.readBytes address count.toInt.toNat)

/-- Bytes of a variable, from the first one on. -/
def peekBytes (m : Machine) (name : String) (count : Nat) : List UInt8 :=
  m.cpu.memory.readBytes (m.addressOf name 0) count

end Machine

end Backend6502
