import Backend6502.Cpu.Encoding
import Backend6502.Cpu.State

/-!
# Execution

What an instruction does once its operand is found (`execute`), how an addressing mode finds it
(`access`), and a whole step from the bytes in memory (`step`).
-/

namespace Backend6502.Cpu

/-- What an instruction works on. -/
inductive Access where
  | none
  | accumulator
  | value (b : UInt8)
  | address (a : UInt16)
  deriving DecidableEq, Repr

namespace State

def load (s : State) : Access → UInt8
  | .none => 0
  | .accumulator => s.a
  | .value b => b
  | .address a => s.read a

/-- Writes the byte back that an instruction has worked on. -/
def store (s : State) (place : Access) (b : UInt8) : State :=
  match place with
  | .accumulator => { s with a := b }
  | .address a => s.write a b
  | .none | .value _ => s

def goTo (s : State) : Access → State
  | .address a => { s with pc := a }
  | _ => s

def branch (s : State) (condition : Bool) (place : Access) : State :=
  if condition then s.goTo place else s

def setA (s : State) (b : UInt8) : State :=
  { s with a := b }.setNZ b

def setX (s : State) (b : UInt8) : State :=
  { s with x := b }.setNZ b

def setY (s : State) (b : UInt8) : State :=
  { s with y := b }.setNZ b

def addBinary (s : State) (m : UInt8) : State :=
  let sum := s.a.toNat + m.toNat + (flagBits 1 s.carry).toNat
  let result := UInt8.ofNat sum
  { s with
    carry := 0x100 ≤ sum
    overflow := isNegative s.a == isNegative m && isNegative s.a != isNegative result }.setA result

def addDecimal (s : State) (m : UInt8) : State :=
  let low := (s.a &&& 0x0F).toNat + (m &&& 0x0F).toNat + (flagBits 1 s.carry).toNat
  let (low, middle) := if 10 ≤ low then (low - 10, 0x10) else (low, 0)
  let high := (s.a &&& 0xF0).toNat + (m &&& 0xF0).toNat + middle
  let (high, carry) := if 0xA0 ≤ high then (high - 0xA0, true) else (high, false)
  let result := UInt8.ofNat (high ||| low)
  { s with
    carry
    overflow := isNegative s.a == isNegative m && isNegative s.a != isNegative result }.setA result

/-- Subtracts in binary; a clear carry takes one more away. -/
def subtractBinary (s : State) (m : UInt8) : State :=
  let difference := 0xFF + s.a.toNat + (flagBits 1 s.carry).toNat - m.toNat
  let result := UInt8.ofNat difference
  { s with
    carry := 0x100 ≤ difference
    overflow := isNegative s.a != isNegative m && isNegative s.a != isNegative result }.setA result

def subtractDecimal (s : State) (m : UInt8) : State :=
  let low : UInt32 :=
    0x0F + (s.a &&& 0x0F).toUInt32 - (m &&& 0x0F).toUInt32 + (flagBits 1 s.carry).toUInt32
  let (low, middle) : UInt32 × UInt32 := if low < 0x10 then (low - 6, 0) else (low - 0x10, 0x10)
  let high : UInt32 := 0xF0 + (s.a &&& 0xF0).toUInt32 - (m &&& 0xF0).toUInt32 + middle
  let (high, carry) : UInt32 × Bool :=
    if high < 0x100 then (high - 0x60, false) else (high - 0x100, true)
  let result := (high ||| low).toUInt8
  { s with
    carry
    overflow := isNegative s.a != isNegative m && isNegative s.a != isNegative result }.setA result

def compareWith (s : State) (register m : UInt8) : State :=
  { s with carry := m ≤ register }.setNZ (register - m)

/-- Writes back a shifted value together with the bit that fell out. -/
def shiftTo (s : State) (place : Access) (b : UInt8) (out : Bool) : State :=
  ({ s with carry := out }.store place b).setNZ b

def call (s : State) (place : Access) : State :=
  (s.pushWord (s.pc - 1)).goTo place

def ret (s : State) : State :=
  let (word, s) := s.pullWord
  { s with pc := word + 1 }

def retInterrupt (s : State) : State :=
  let (flags, s) := s.pull
  let (word, s) := (s.setStatus flags).pullWord
  { s with pc := word }

/-- Enters the interrupt handler. -/
def breakOut (s : State) : State :=
  let s := (s.pushWord (s.pc + 1)).push s.status
  { s with noInterrupt := true, pc := s.readWord 0xFFFE }

/-- What an instruction does; the program counter already stands behind it. -/
def execute (m : Mnemonic) (place : Access) (s : State) : State :=
  match m with
  | .adc => if s.decimal then s.addDecimal (s.load place) else s.addBinary (s.load place)
  | .and => s.setA (s.a &&& s.load place)
  | .asl => s.shiftTo place (s.load place <<< 1) (isNegative (s.load place))
  | .bcc => s.branch (!s.carry) place
  | .bcs => s.branch s.carry place
  | .beq => s.branch s.zero place
  | .bit =>
    let b := s.load place
    { s with zero := s.a &&& b == 0, negative := isNegative b, overflow := b &&& 0x40 != 0 }
  | .bmi => s.branch s.negative place
  | .bne => s.branch (!s.zero) place
  | .bpl => s.branch (!s.negative) place
  | .brk => s.breakOut
  | .bvc => s.branch (!s.overflow) place
  | .bvs => s.branch s.overflow place
  | .clc => { s with carry := false }
  | .cld => { s with decimal := false }
  | .cli => { s with noInterrupt := false }
  | .clv => { s with overflow := false }
  | .cmp => s.compareWith s.a (s.load place)
  | .cpx => s.compareWith s.x (s.load place)
  | .cpy => s.compareWith s.y (s.load place)
  | .dec => (s.store place (s.load place - 1)).setNZ (s.load place - 1)
  | .dex => s.setX (s.x - 1)
  | .dey => s.setY (s.y - 1)
  | .eor => s.setA (s.a ^^^ s.load place)
  | .inc => (s.store place (s.load place + 1)).setNZ (s.load place + 1)
  | .inx => s.setX (s.x + 1)
  | .iny => s.setY (s.y + 1)
  | .jmp => s.goTo place
  | .jsr => s.call place
  | .lda => s.setA (s.load place)
  | .ldx => s.setX (s.load place)
  | .ldy => s.setY (s.load place)
  | .lsr => s.shiftTo place (s.load place >>> 1) (s.load place &&& 1 != 0)
  | .nop => s
  | .ora => s.setA (s.a ||| s.load place)
  | .pha => s.push s.a
  | .php => s.push s.status
  | .pla => s.pull.2.setA s.pull.1
  | .plp => s.pull.2.setStatus s.pull.1
  | .rol => s.shiftTo place (s.load place <<< 1 ||| flagBits 1 s.carry) (isNegative (s.load place))
  | .ror => s.shiftTo place (s.load place >>> 1 ||| flagBits 0x80 s.carry) (s.load place &&& 1 != 0)
  | .rti => s.retInterrupt
  | .rts => s.ret
  | .sbc => if s.decimal then s.subtractDecimal (s.load place) else s.subtractBinary (s.load place)
  | .sec => { s with carry := true }
  | .sed => { s with decimal := true }
  | .sei => { s with noInterrupt := true }
  | .sta => s.store place s.a
  | .stx => s.store place s.x
  | .sty => s.store place s.y
  | .tax => s.setX s.a
  | .tay => s.setY s.a
  | .tsx => s.setX s.sp
  | .txa => s.setA s.x
  | .txs => { s with sp := s.x }
  | .tya => s.setA s.y

/-- A distance of one signed byte as a word. -/
def signExtend (b : UInt8) : UInt16 :=
  if isNegative b then 0xFF00 ||| b.toUInt16 else b.toUInt16

/-- What an instruction works on, given the two bytes after its opcode. -/
def access (s : State) (mode : Mode) (low high : UInt8) : Access :=
  match mode with
  | .implied => .none
  | .accumulator => .accumulator
  | .immediate => .value low
  | .relative => .address (s.pc + signExtend low)
  | .zeroPage => .address low.toUInt16
  | .zeroPageX => .address (low + s.x).toUInt16
  | .zeroPageY => .address (low + s.y).toUInt16
  | .absolute => .address (wordOf low high)
  | .absoluteX => .address (wordOf low high + s.x.toUInt16)
  | .absoluteY => .address (wordOf low high + s.y.toUInt16)
  | .indirect => .address (s.readWord (wordOf low high))
  | .indirectX => .address (s.readWord (low + s.x).toUInt16)
  | .indirectY => .address (s.readWord low.toUInt16 + s.y.toUInt16)

/-- The opcodes outside the table that take two bytes. -/
def skippedPairs : List UInt8 :=
  [0x02, 0x04, 0x12, 0x14, 0x22, 0x32, 0x34, 0x42, 0x44, 0x52, 0x54, 0x62, 0x64, 0x72, 0x74, 0x80,
   0x82, 0x89, 0x92, 0xb2, 0xc2, 0xd2, 0xd4, 0xe2, 0xf2, 0xf4]

/-- The opcodes outside the table that take three bytes. -/
def skippedTriples : List UInt8 :=
  [0x0c, 0x1c, 0x3c, 0x5c, 0x7c, 0x9c, 0x9e, 0xdc, 0xfc]

/-- The length of an opcode outside the table, which does nothing. -/
def skippedLength (opcode : UInt8) : UInt16 :=
  if skippedPairs.contains opcode then 2 else if skippedTriples.contains opcode then 3 else 1

/-- The second byte after the opcode; nothing is read past the end of the memory. -/
def secondOperandByte (s : State) : UInt8 :=
  if s.pc + 1 = 0xFFFF then 0 else s.read (s.pc + 2)

def step (s : State) : State :=
  match Encoding.ofOpcode? (s.read s.pc) with
  | some (m, row) =>
    let low := s.read (s.pc + 1)
    let high := s.secondOperandByte
    let s := { s with pc := s.pc + UInt16.ofNat row.length }
    s.execute m (s.access row.mode low high)
  | none => { s with pc := s.pc + skippedLength (s.read s.pc) }

end State

end Backend6502.Cpu
