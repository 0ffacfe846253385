import Backend6502.Code.Instruction

/-!
# Jumps and branches

The instructions that name a label of their own stream. All relative branches share one shape in the
table, so they are built without a look-up (`find?_branch`, `find?_jump`).
-/

namespace Backend6502.Code.Instruction

open Cpu (Mnemonic)

def branch (m : Mnemonic) (target : String) : Instruction where
  op := .known m
  mode := .relative
  operand := target
  cycles := 2
  cyclesTaken := 3
  size := 2
  isProtected := false

def jump (target : String) : Instruction where
  op := .known .jmp
  mode := .absolute
  operand := target
  cycles := 3
  cyclesTaken := 0
  size := 3
  isProtected := false

theorem find?_branch (m : Mnemonic) (target : String) (h : m.isBranch = true) :
    find? (.known m) .relative target = some (branch m target) := by
  cases m <;> first | rfl | cases h

theorem find?_jump (target : String) :
    find? (.known .jmp) .absolute target = some (jump target) := rfl

end Backend6502.Code.Instruction
