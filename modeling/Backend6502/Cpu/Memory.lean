/-!
# Memory

A memory of 64 KiB that is zero at first. It is a binary tree over the bits of the address in which
a part that was never written takes no room. `read_write` says all there is to know: a write changes
one byte and no other.
-/

namespace Backend6502.Cpu

/-- A part of the memory; its size is a power of two that is given with it. -/
inductive Cells where
  | zero
  | byte (b : UInt8)
  | halves (low high : Cells)
  deriving DecidableEq, Repr

namespace Cells

def low : Cells → Cells
  | .halves low _ => low
  | _ => .zero

def high : Cells → Cells
  | .halves _ high => high
  | _ => .zero

def value : Cells → UInt8
  | .byte b => b
  | _ => 0

def read : (bits : Nat) → Cells → (address : Nat) → UInt8
  | 0, cells, _ => cells.value
  | bits + 1, cells, address =>
    if address.testBit bits then read bits cells.high address else read bits cells.low address

def write : (bits : Nat) → Cells → (address : Nat) → UInt8 → Cells
  | 0, _, _, b => .byte b
  | bits + 1, cells, address, b =>
    if address.testBit bits then .halves cells.low (write bits cells.high address b)
    else .halves (write bits cells.low address b) cells.high

theorem read_zero (bits address : Nat) : read bits .zero address = 0 := by
  induction bits with
  | zero => rfl
  | succ bits ih => simp [read, low, high, ih]

theorem read_write_self (bits : Nat) (cells : Cells) (address : Nat) (b : UInt8) :
    read bits (write bits cells address b) address = b := by
  induction bits generalizing cells with
  | zero => rfl
  | succ bits ih =>
    by_cases h : address.testBit bits = true <;> simp [read, write, h, low, high, ih]

theorem read_write_of_testBit_ne (bits : Nat) (cells : Cells) (address other : Nat) (b : UInt8)
    (h : ∃ i < bits, address.testBit i ≠ other.testBit i) :
    read bits (write bits cells address b) other = read bits cells other := by
  induction bits generalizing cells with
  | zero =>
    obtain ⟨i, hi, _⟩ := h
    exact absurd hi (Nat.not_lt_zero i)
  | succ bits ih =>
    by_cases same : address.testBit bits = other.testBit bits
    · have below : ∃ i < bits, address.testBit i ≠ other.testBit i := by
        obtain ⟨i, hi, ne⟩ := h
        refine ⟨i, ?_, ne⟩
        rcases Nat.lt_succ_iff_lt_or_eq.mp hi with lt | rfl
        · exact lt
        · exact absurd same ne
      by_cases set : other.testBit bits = true <;>
        simp [read, write, same, set, low, high, ih _ below]
    · by_cases set : other.testBit bits = true
      · have : address.testBit bits = false := by
          cases value : address.testBit bits <;> simp_all
        simp [read, write, this, set, high]
      · have : address.testBit bits = true := by
          cases value : address.testBit bits <;> simp_all
        simp [read, write, this, set, low]

end Cells

structure Memory where
  cells : Cells := .zero
  deriving DecidableEq, Repr

namespace Memory

def read (m : Memory) (address : UInt16) : UInt8 :=
  m.cells.read 16 address.toNat

def write (m : Memory) (address : UInt16) (b : UInt8) : Memory :=
  ⟨m.cells.write 16 address.toNat b⟩

def readBytes (m : Memory) (address : UInt16) : (count : Nat) → List UInt8
  | 0 => []
  | count + 1 => m.read address :: m.readBytes (address + 1) count

def writeBytes (m : Memory) (address : UInt16) : List UInt8 → Memory
  | [] => m
  | b :: rest => (m.write address b).writeBytes (address + 1) rest

theorem length_readBytes (m : Memory) (address : UInt16) (count : Nat) :
    (m.readBytes address count).length = count := by
  induction count generalizing address with
  | zero => rfl
  | succ count ih => rw [readBytes, List.length_cons, ih]

theorem read_empty (address : UInt16) : ({} : Memory).read address = 0 :=
  Cells.read_zero 16 address.toNat

theorem read_write_self (m : Memory) (address : UInt16) (b : UInt8) :
    (m.write address b).read address = b :=
  Cells.read_write_self 16 m.cells address.toNat b

theorem read_write_of_ne (m : Memory) (address other : UInt16) (b : UInt8) (h : address ≠ other) :
    (m.write address b).read other = m.read other := by
  refine Cells.read_write_of_testBit_ne 16 m.cells address.toNat other.toNat b ?_
  apply Classical.byContradiction
  intro none
  apply h
  apply UInt16.toNat_inj.mp
  apply Nat.eq_of_testBit_eq
  intro i
  by_cases hi : i < 16
  · apply Classical.byContradiction
    intro ne
    exact none ⟨i, hi, ne⟩
  · have big : 2 ^ 16 ≤ 2 ^ i := Nat.pow_le_pow_right (by decide) (Nat.le_of_not_lt hi)
    rw [Nat.testBit_lt_two_pow (Nat.lt_of_lt_of_le address.toNat_lt big),
      Nat.testBit_lt_two_pow (Nat.lt_of_lt_of_le other.toNat_lt big)]

/-- A write changes one byte and no other. -/
theorem read_write (m : Memory) (address other : UInt16) (b : UInt8) :
    (m.write address b).read other = if address = other then b else m.read other := by
  split
  · next same => rw [← same, read_write_self]
  · next ne => exact read_write_of_ne m address other b ne

end Memory

end Backend6502.Cpu
