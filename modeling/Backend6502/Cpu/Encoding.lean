import Backend6502.Cpu.Mnemonic
import Backend6502.Cpu.Mode

/-!
# The instruction table

For every mnemonic the addressing modes it has, each with its opcode, its length in bytes, its cycle
count and the cycles it may take on top. Opcodes are distinct, so a byte of memory names at most one
entry (`ofOpcode?_opcode`).
-/

namespace Backend6502.Cpu

structure Encoding where
  mode : Mode
  opcode : UInt8
  length : Nat
  cycles : Nat
  /-- Cycles added when a page is crossed. -/
  extra : Nat
  deriving DecidableEq, Repr

def Mnemonic.encodings : Mnemonic → List Encoding
  | .adc => [⟨.immediate, 0x69, 2, 2, 0⟩, ⟨.zeroPage, 0x65, 2, 3, 0⟩, ⟨.zeroPageX, 0x75, 2, 4, 0⟩,
      ⟨.absolute, 0x6d, 3, 4, 0⟩, ⟨.absoluteX, 0x7d, 3, 4, 1⟩, ⟨.absoluteY, 0x79, 3, 4, 1⟩,
      ⟨.indirectX, 0x61, 2, 6, 0⟩, ⟨.indirectY, 0x71, 2, 5, 1⟩]
  | .and => [⟨.immediate, 0x29, 2, 2, 0⟩, ⟨.zeroPage, 0x25, 2, 3, 0⟩, ⟨.zeroPageX, 0x35, 2, 4, 0⟩,
      ⟨.absolute, 0x2d, 3, 4, 0⟩, ⟨.absoluteX, 0x3d, 3, 4, 1⟩, ⟨.absoluteY, 0x39, 3, 4, 1⟩,
      ⟨.indirectX, 0x21, 2, 6, 0⟩, ⟨.indirectY, 0x31, 2, 5, 1⟩]
  | .asl => [⟨.accumulator, 0x0a, 1, 2, 0⟩, ⟨.zeroPage, 0x06, 2, 5, 0⟩,
      ⟨.zeroPageX, 0x16, 2, 6, 0⟩, ⟨.absolute, 0x0e, 3, 6, 0⟩, ⟨.absoluteX, 0x1e, 3, 7, 0⟩]
  | .bcc => [⟨.relative, 0x90, 2, 2, 1⟩]
  | .bcs => [⟨.relative, 0xb0, 2, 2, 1⟩]
  | .beq => [⟨.relative, 0xf0, 2, 2, 1⟩]
  | .bit => [⟨.zeroPage, 0x24, 2, 3, 0⟩, ⟨.absolute, 0x2c, 3, 4, 0⟩]
  | .bmi => [⟨.relative, 0x30, 2, 2, 1⟩]
  | .bne => [⟨.relative, 0xd0, 2, 2, 1⟩]
  | .bpl => [⟨.relative, 0x10, 2, 2, 1⟩]
  | .brk => [⟨.implied, 0x00, 1, 7, 0⟩]
  | .bvc => [⟨.relative, 0x50, 2, 2, 1⟩]
  | .bvs => [⟨.relative, 0x70, 2, 2, 1⟩]
  | .clc => [⟨.implied, 0x18, 1, 2, 0⟩]
  | .cld => [⟨.implied, 0xd8, 1, 2, 0⟩]
  | .cli => [⟨.implied, 0x58, 1, 2, 0⟩]
  | .clv => [⟨.implied, 0xb8, 1, 2, 0⟩]
  | .cmp => [⟨.immediate, 0xc9, 2, 2, 0⟩, ⟨.zeroPage, 0xc5, 2, 3, 0⟩, ⟨.zeroPageX, 0xd5, 2, 4, 0⟩,
      ⟨.absolute, 0xcd, 3, 4, 0⟩, ⟨.absoluteX, 0xdd, 3, 4, 1⟩, ⟨.absoluteY, 0xd9, 3, 4, 1⟩,
      ⟨.indirectX, 0xc1, 2, 6, 0⟩, ⟨.indirectY, 0xd1, 2, 5, 1⟩]
  | .cpx => [⟨.immediate, 0xe0, 2, 2, 0⟩, ⟨.zeroPage, 0xe4, 2, 3, 0⟩, ⟨.absolute, 0xec, 3, 4, 0⟩]
  | .cpy => [⟨.immediate, 0xc0, 2, 2, 0⟩, ⟨.zeroPage, 0xc4, 2, 3, 0⟩, ⟨.absolute, 0xcc, 3, 4, 0⟩]
  | .dec => [⟨.zeroPage, 0xc6, 2, 5, 0⟩, ⟨.zeroPageX, 0xd6, 2, 6, 0⟩, ⟨.absolute, 0xce, 3, 6, 0⟩,
      ⟨.absoluteX, 0xde, 3, 7, 0⟩]
  | .dex => [⟨.implied, 0xca, 1, 2, 0⟩]
  | .dey => [⟨.implied, 0x88, 1, 2, 0⟩]
  | .eor => [⟨.immediate, 0x49, 2, 2, 0⟩, ⟨.zeroPage, 0x45, 2, 3, 0⟩, ⟨.zeroPageX, 0x55, 2, 4, 0⟩,
      ⟨.absolute, 0x4d, 3, 4, 0⟩, ⟨.absoluteX, 0x5d, 3, 4, 1⟩, ⟨.absoluteY, 0x59, 3, 4, 1⟩,
      ⟨.indirectX, 0x41, 2, 6, 0⟩, ⟨.indirectY, 0x51, 2, 5, 1⟩]
  | .inc => [⟨.zeroPage, 0xe6, 2, 5, 0⟩, ⟨.zeroPageX, 0xf6, 2, 6, 0⟩, ⟨.absolute, 0xee, 3, 6, 0⟩,
      ⟨.absoluteX, 0xfe, 3, 7, 0⟩]
  | .inx => [⟨.implied, 0xe8, 1, 2, 0⟩]
  | .iny => [⟨.implied, 0xc8, 1, 2, 0⟩]
  | .jmp => [⟨.absolute, 0x4c, 3, 3, 0⟩, ⟨.indirect, 0x6c, 3, 5, 0⟩]
  | .jsr => [⟨.absolute, 0x20, 3, 6, 0⟩]
  | .lda => [⟨.immediate, 0xa9, 2, 2, 0⟩, ⟨.zeroPage, 0xa5, 2, 3, 0⟩, ⟨.zeroPageX, 0xb5, 2, 4, 0⟩,
      ⟨.absolute, 0xad, 3, 4, 0⟩, ⟨.absoluteX, 0xbd, 3, 4, 1⟩, ⟨.absoluteY, 0xb9, 3, 4, 1⟩,
      ⟨.indirectX, 0xa1, 2, 6, 0⟩, ⟨.indirectY, 0xb1, 2, 5, 1⟩]
  | .ldx => [⟨.immediate, 0xa2, 2, 2, 0⟩, ⟨.zeroPage, 0xa6, 2, 3, 0⟩, ⟨.zeroPageY, 0xb6, 2, 4, 0⟩,
      ⟨.absolute, 0xae, 3, 4, 0⟩, ⟨.absoluteY, 0xbe, 3, 4, 1⟩]
  | .ldy => [⟨.immediate, 0xa0, 2, 2, 0⟩, ⟨.zeroPage, 0xa4, 2, 3, 0⟩, ⟨.zeroPageX, 0xb4, 2, 4, 0⟩,
      ⟨.absolute, 0xac, 3, 4, 0⟩, ⟨.absoluteX, 0xbc, 3, 4, 1⟩]
  | .lsr => [⟨.accumulator, 0x4a, 1, 2, 0⟩, ⟨.zeroPage, 0x46, 2, 5, 0⟩,
      ⟨.zeroPageX, 0x56, 2, 6, 0⟩, ⟨.absolute, 0x4e, 3, 6, 0⟩, ⟨.absoluteX, 0x5e, 3, 7, 0⟩]
  | .nop => [⟨.implied, 0xea, 1, 2, 0⟩]
  | .ora => [⟨.immediate, 0x09, 2, 2, 0⟩, ⟨.zeroPage, 0x05, 2, 3, 0⟩, ⟨.zeroPageX, 0x15, 2, 4, 0⟩,
      ⟨.absolute, 0x0d, 3, 4, 0⟩, ⟨.absoluteX, 0x1d, 3, 4, 1⟩, ⟨.absoluteY, 0x19, 3, 4, 1⟩,
      ⟨.indirectX, 0x01, 2, 6, 0⟩, ⟨.indirectY, 0x11, 2, 5, 1⟩]
  | .pha => [⟨.implied, 0x48, 1, 3, 0⟩]
  | .php => [⟨.implied, 0x08, 1, 3, 0⟩]
  | .pla => [⟨.implied, 0x68, 1, 4, 0⟩]
  | .plp => [⟨.implied, 0x28, 1, 4, 0⟩]
  | .rol => [⟨.accumulator, 0x2a, 1, 2, 0⟩, ⟨.zeroPage, 0x26, 2, 5, 0⟩,
      ⟨.zeroPageX, 0x36, 2, 6, 0⟩, ⟨.absolute, 0x2e, 3, 6, 0⟩, ⟨.absoluteX, 0x3e, 3, 7, 0⟩]
  | .ror => [⟨.accumulator, 0x6a, 1, 2, 0⟩, ⟨.zeroPage, 0x66, 2, 5, 0⟩,
      ⟨.zeroPageX, 0x76, 2, 6, 0⟩, ⟨.absolute, 0x6e, 3, 6, 0⟩, ⟨.absoluteX, 0x7e, 3, 7, 0⟩]
  | .rti => [⟨.implied, 0x40, 1, 6, 0⟩]
  | .rts => [⟨.implied, 0x60, 1, 6, 0⟩]
  | .sbc => [⟨.immediate, 0xe9, 2, 2, 0⟩, ⟨.zeroPage, 0xe5, 2, 3, 0⟩, ⟨.zeroPageX, 0xf5, 2, 4, 0⟩,
      ⟨.absolute, 0xed, 3, 4, 0⟩, ⟨.absoluteX, 0xfd, 3, 4, 1⟩, ⟨.absoluteY, 0xf9, 3, 4, 1⟩,
      ⟨.indirectX, 0xe1, 2, 6, 0⟩, ⟨.indirectY, 0xf1, 2, 5, 1⟩]
  | .sec => [⟨.implied, 0x38, 1, 2, 0⟩]
  | .sed => [⟨.implied, 0xf8, 1, 2, 0⟩]
  | .sei => [⟨.implied, 0x78, 1, 2, 0⟩]
  | .sta => [⟨.zeroPage, 0x85, 2, 3, 0⟩, ⟨.zeroPageX, 0x95, 2, 4, 0⟩, ⟨.absolute, 0x8d, 3, 4, 0⟩,
      ⟨.absoluteX, 0x9d, 3, 5, 0⟩, ⟨.absoluteY, 0x99, 3, 5, 0⟩, ⟨.indirectX, 0x81, 2, 6, 0⟩,
      ⟨.indirectY, 0x91, 2, 6, 0⟩]
  | .stx => [⟨.zeroPage, 0x86, 2, 3, 0⟩, ⟨.zeroPageY, 0x96, 2, 4, 0⟩, ⟨.absolute, 0x8e, 3, 4, 0⟩]
  | .sty => [⟨.zeroPage, 0x84, 2, 3, 0⟩, ⟨.zeroPageX, 0x94, 2, 4, 0⟩, ⟨.absolute, 0x8c, 3, 4, 0⟩]
  | .tax => [⟨.implied, 0xaa, 1, 2, 0⟩]
  | .tay => [⟨.implied, 0xa8, 1, 2, 0⟩]
  | .tsx => [⟨.implied, 0xba, 1, 2, 0⟩]
  | .txa => [⟨.implied, 0x8a, 1, 2, 0⟩]
  | .txs => [⟨.implied, 0x9a, 1, 2, 0⟩]
  | .tya => [⟨.implied, 0x98, 1, 2, 0⟩]

namespace Encoding

def inMode? (m : Mnemonic) (mode : Mode) : Option Encoding :=
  m.encodings.find? (·.mode == mode)

/--
The row of a mnemonic for a mode. A zero page mode that the mnemonic lacks is taken as its absolute
counterpart.
-/
def find? (m : Mnemonic) (mode : Mode) : Option Encoding :=
  match inMode? m mode with
  | some row => some row
  | none => mode.wide?.bind (inMode? m)

def all : List (Mnemonic × Encoding) :=
  Mnemonic.all.flatMap fun m => m.encodings.map (m, ·)

def ofOpcode? (opcode : UInt8) : Option (Mnemonic × Encoding) :=
  all.find? (·.2.opcode == opcode)

end Encoding

end Backend6502.Cpu
