import Backend6502.Cpu.Memory

/-!
# The state of the processor

Registers, flags and memory, and the stack in the second page of the memory.
-/

namespace Backend6502.Cpu

structure State where
  a : UInt8 := 0
  x : UInt8 := 0
  y : UInt8 := 0
  sp : UInt8 := 0xFF
  pc : UInt16 := 0
  negative : Bool := false
  overflow : Bool := false
  decimal : Bool := false
  noInterrupt : Bool := false
  zero : Bool := false
  carry : Bool := false
  memory : Memory := {}
  deriving DecidableEq, Repr

def wordOf (low high : UInt8) : UInt16 :=
  low.toUInt16 ||| (high.toUInt16 <<< 8)

def isNegative (b : UInt8) : Bool :=
  0x80 ≤ b

/-- A byte with the bits of `mask` if the flag is set, else zero. -/
def flagBits (mask : UInt8) (flag : Bool) : UInt8 :=
  if flag then mask else 0

namespace State

def read (s : State) (address : UInt16) : UInt8 :=
  s.memory.read address

def write (s : State) (address : UInt16) (b : UInt8) : State :=
  { s with memory := s.memory.write address b }

/-- The word at an address; the high byte comes from the same page. -/
def readWord (s : State) (address : UInt16) : UInt16 :=
  let second := if address &&& 0xFF = 0xFF then address - 0xFF else address + 1
  wordOf (s.read address) (s.read second)

/-- Sets the sign and zero flags by a value. -/
def setNZ (s : State) (b : UInt8) : State :=
  { s with negative := isNegative b, zero := b == 0 }

def stackTop (s : State) : UInt16 :=
  0x100 ||| s.sp.toUInt16

def push (s : State) (b : UInt8) : State :=
  { s.write s.stackTop b with sp := s.sp - 1 }

/-- Moves the stack pointer to the byte that was pushed last. -/
def drop (s : State) : State :=
  { s with sp := s.sp + 1 }

/-- The byte that was pushed last, and the state without it. -/
def pull (s : State) : UInt8 × State :=
  (s.drop.read s.drop.stackTop, s.drop)

/-- A pull gives back what was pushed, which stays in memory. -/
theorem pull_push (s : State) (b : UInt8) : (s.push b).pull = (b, s.write s.stackTop b) := by
  have back : (s.push b).drop = s.write s.stackTop b := by
    simp [push, drop, write]
  rw [pull, back]
  exact congrArg (·, s.write s.stackTop b) (Memory.read_write_self s.memory s.stackTop b)

/-- Pushes a word, the high byte first. -/
def pushWord (s : State) (word : UInt16) : State :=
  (s.push (word >>> 8).toUInt8).push word.toUInt8

/-- The word that was pushed last, and the state without it. -/
def pullWord (s : State) : UInt16 × State :=
  let (low, s) := s.pull
  let (high, s) := s.pull
  (wordOf low high, s)

/-- The flags as a byte, with the bits that a push sets. -/
def status (s : State) : UInt8 :=
  flagBits 0x80 s.negative ||| flagBits 0x40 s.overflow ||| 0x30 ||| flagBits 0x08 s.decimal
    ||| flagBits 0x04 s.noInterrupt ||| flagBits 0x02 s.zero ||| flagBits 0x01 s.carry

def setStatus (s : State) (b : UInt8) : State :=
  { s with
    negative := b &&& 0x80 != 0
    overflow := b &&& 0x40 != 0
    decimal := b &&& 0x08 != 0
    noInterrupt := b &&& 0x04 != 0
    zero := b &&& 0x02 != 0
    carry := b &&& 0x01 != 0 }

end State

end Backend6502.Cpu
