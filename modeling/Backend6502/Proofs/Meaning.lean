import Backend6502.Lowering.Stmt
import Backend6502.Proofs.ByteAccess

/-!
# The meaning of structured programs

What a statement means that assigns bytes, chooses and repeats, said without any code. Variables
hold bytes, arithmetic wraps around, and the index registers are variables like others. A loop runs
as long as the fuel lasts; the fuel counts the rounds of each loop and nothing else.

A term is made of bytes and constants, and stands for a number of 64 bits; a byte that is signed is
extended by its sign. A word has two bytes, and an operation on two words is one on their low bytes
and one on their high bytes, with the carry of the first handed on to the second.
-/

namespace Backend6502.Source

open Lowering (isOmitted isRegisterName lowByte)
open Symbols (Table Variable)

/-- The bytes that a program works on. -/
structure Store where
  cell : String → UInt8
  x : UInt8
  y : UInt8

instance : Inhabited Store := ⟨⟨fun _ => 0, 0, 0⟩⟩

namespace Store

def read (table : Table) (σ : Store) (name : String) : UInt8 :=
  if name = "X" then σ.x
  else if name = "Y" then σ.y
  else match table.getVariable? name with
    | some v => if v.isConst then lowByte v.value else σ.cell name
    | none => 0

def write (σ : Store) (name : String) (b : UInt8) : Store :=
  if name = "X" then { σ with x := b }
  else if name = "Y" then { σ with y := b }
  else { σ with cell := fun other => if other = name then b else σ.cell other }

end Store

namespace Op

/-- Is it an operation on two bytes? -/
def isByteOp : Op → Bool
  | .add | .sub | .and | .or | .xor => true
  | _ => false

def onBytes : Op → UInt8 → UInt8 → UInt8
  | .add, a, b => a + b
  | .sub, a, b => a - b
  | .and, a, b => a &&& b
  | .or, a, b => a ||| b
  | .xor, a, b => a ^^^ b
  | _, _, _ => 0

def compares : Op → UInt8 → UInt8 → Bool
  | .lt, a, b => a < b
  | .gt, a, b => b < a
  | .le, a, b => a ≤ b
  | .ge, a, b => b ≤ a
  | .eq, a, b => a == b
  | .ne, a, b => a != b
  | _, _, _ => false

end Op

namespace Expr

/-- The byte that an expression stands for. -/
def byte (table : Table) (σ : Store) : Expr → UInt8
  | .int n => lowByte n
  | .var name _ => σ.read table name
  | .binary op l r => op.onBytes (l.byte table σ) (r.byte table σ)
  | .unary .neg e => -e.byte table σ
  | .unary _ e => ~~~ e.byte table σ
  | _ => 0

def holds (table : Table) (σ : Store) : Expr → Bool
  | .binary .logAnd l r => l.holds table σ && r.holds table σ
  | .binary .logOr l r => l.holds table σ || r.holds table σ
  | .binary op l r => op.compares (l.byte table σ) (r.byte table σ)
  | .unary _ e => !e.holds table σ
  | _ => false

/-- Does a loop with this condition go on? It does if there is no condition. -/
def goesOn (table : Table) (σ : Store) (cond : Expr) : Bool :=
  isOmitted cond || cond.holds table σ

/-- The store after an assignment; any other expression changes nothing. -/
def perform (table : Table) (σ : Store) : Expr → Store
  | .binary .assign (.var name _) e => σ.write name (e.byte table σ)
  | _ => σ

end Expr

/-- How a statement ends: past its end, or by leaving a loop or a round of it. -/
inductive Outcome where
  | past
  | leave
  | next
  deriving DecidableEq, Repr

/-- Rounds of a loop: the body, then the update, and another round if the condition holds then. -/
def rounds (table : Table) (cond update : Expr) (body : Store → Option (Outcome × Store)) :
    (fuel : Nat) → Store → Option (Outcome × Store)
  | 0, _ => none
  | fuel + 1, σ =>
    match body σ with
    | none => none
    | some (.leave, σ) => some (.past, σ)
    | some (_, σ) =>
      if cond.goesOn table (update.perform table σ) then
        rounds table cond update body fuel (update.perform table σ)
      else some (.past, update.perform table σ)

/-- A loop that tests its condition before the first round. -/
def loop (table : Table) (fuel : Nat) (cond update : Expr)
    (body : Store → Option (Outcome × Store)) (σ : Store) : Option (Outcome × Store) :=
  if cond.goesOn table σ then rounds table cond update body fuel σ else some (.past, σ)

namespace Stmt

mutual

/-- How a statement ends and the store it leaves; none if the fuel does not last. -/
def exec (table : Table) (fuel : Nat) : Stmt → Store → Option (Outcome × Store)
  | .block _ body, σ => execAll table fuel body σ
  | .expr _ e, σ => some (.past, e.perform table σ)
  | .forLoop _ init cond update body, σ =>
    loop table fuel cond update (body.exec table fuel) (init.perform table σ)
  | .whileLoop _ cond body, σ => loop table fuel cond .absent (body.exec table fuel) σ
  | .doWhile _ body cond, σ => rounds table cond .absent (body.exec table fuel) fuel σ
  | .ifElse _ cond thenBody none, σ =>
    if cond.holds table σ then thenBody.exec table fuel σ else some (.past, σ)
  | .ifElse _ cond thenBody (some elseBody), σ =>
    if cond.holds table σ then thenBody.exec table fuel σ else elseBody.exec table fuel σ
  | .leave _, σ => some (.leave, σ)
  | .next _, σ => some (.next, σ)
  | _, _ => none

/-- How statements end one after another. -/
def execAll (table : Table) (fuel : Nat) : List Stmt → Store → Option (Outcome × Store)
  | [], σ => some (.past, σ)
  | s :: rest, σ =>
    match s.exec table fuel σ with
    | some (.past, σ) => execAll table fuel rest σ
    | other => other

end

end Stmt

/-- Is it a single byte that can be read and written? -/
def isByteCell (v : Variable) : Bool :=
  v.size == 1 && v.length == 0 && !v.isConst

def isCell (table : Table) (name : String) : Bool :=
  (table.getVariable? name).any isByteCell

def fitsByte (n : Int64) : Bool :=
  0 ≤ n && n < 256

namespace Expr

/-- Does the name stand for a byte: a register, a byte variable or a constant? -/
def isByteName (table : Table) (name : String) : Bool :=
  isRegisterName name || isCell table name ||
    (table.getVariable? name).any fun v => v.isConst && v.length == 0

def isByteTarget (table : Table) (name : String) : Bool :=
  isRegisterName name || isCell table name

/-- Is it an expression of byte arithmetic? -/
def isByteExpr (table : Table) : Expr → Bool
  | .int _ => true
  | .var name .absent => isByteName table name
  | .binary op l r => op.isByteOp && l.isByteExpr table && r.isByteExpr table
  | .unary op e => (op == .neg || op == .bitNot) && e.isByteExpr table
  | _ => false

/-- Can it be compared: a register, an unsigned byte or a constant that fits a byte? -/
def isComparand (table : Table) : Expr → Bool
  | .int n => fitsByte n
  | .var name .absent =>
    isRegisterName name || (table.getVariable? name).any fun v =>
      isByteCell v && !v.signed || v.isConst && v.length == 0 && fitsByte v.value
  | _ => false

def isCondition (table : Table) : Expr → Bool
  | .binary op l r =>
    if op.isCompare then l.isComparand table && r.isComparand table
    else (op == .logAnd || op == .logOr) && l.isCondition table && r.isCondition table
  | .unary op e => op == .not && e.isCondition table
  | _ => false

def isByteStep (table : Table) : Expr → Bool
  | .absent | .nothing => true
  | .binary .assign (.var name .absent) e =>
    isByteTarget table name && e.isByteExpr table
  | _ => false

end Expr

namespace Stmt

mutual

/-- Is the statement made of byte assignments, choices and loops, without labels? -/
def isStructured (table : Table) : Stmt → Bool
  | .block loc body => loc.label.isEmpty && areStructured table body
  | .expr loc e => loc.label.isEmpty && e.isByteStep table
  | .forLoop loc init cond update body =>
    loc.label.isEmpty && init.isByteStep table && (isOmitted cond || cond.isCondition table)
      && update.isByteStep table && body.isStructured table
  | .whileLoop loc cond body | .doWhile loc body cond =>
    loc.label.isEmpty && cond.isCondition table && body.isStructured table
  | .ifElse loc cond thenBody none =>
    loc.label.isEmpty && cond.isCondition table && thenBody.isStructured table
  | .ifElse loc cond thenBody (some elseBody) =>
    loc.label.isEmpty && cond.isCondition table && thenBody.isStructured table
      && elseBody.isStructured table
  | .leave loc | .next loc => loc.label.isEmpty
  | _ => false

def areStructured (table : Table) : List Stmt → Bool
  | [] => true
  | s :: rest => s.isStructured table && areStructured table rest

end

end Stmt

open Lowering (constant?)

/-- The bytes that terms are made of: those of variables, by name and offset, and the registers. -/
structure Bytes where
  cell : String → Int64 → UInt8
  x : UInt8
  y : UInt8

def extended (signed : Bool) (b : UInt8) : Int64 :=
  if signed then b.toInt8.toInt64 else b.toUInt64.toInt64

theorem lowByte_extended (signed : Bool) (b : UInt8) : lowByte (extended signed b) = b := by
  unfold extended
  split
  · apply UInt8.eq_of_toBitVec_eq
    apply BitVec.eq_of_getLsbD_eq
    intro i small
    have wide : i < 64 := Nat.lt_trans small (by decide)
    simp [lowByte, BitVec.getElem_signExtend, small, wide]
  · simp [lowByte]

namespace Op

def onNumbers : Op → Int64 → Int64 → Int64
  | .add, a, b => a + b
  | .sub, a, b => a - b
  | .and, a, b => a &&& b
  | .or, a, b => a ||| b
  | .xor, a, b => a ^^^ b
  | _, _, _ => 0

def orders : Op → Int64 → Int64 → Bool
  | .lt, a, b => a < b
  | .gt, a, b => b < a
  | .le, a, b => a ≤ b
  | .ge, a, b => b ≤ a
  | .eq, a, b => a == b
  | .ne, a, b => a != b
  | _, _, _ => false

theorem lowByte_onNumbers {op : Op} (isOp : op.isByteOp = true) (a b : Int64) :
    lowByte (op.onNumbers a b) = op.onBytes (lowByte a) (lowByte b) := by
  cases op with
  | add | sub | and | or | xor => simp [lowByte, onNumbers, onBytes]
  | _ => cases isOp

end Op

namespace Bytes

def scalar (table : Table) (β : Bytes) (name : String) : Int64 :=
  if name = "X" then extended false β.x
  else if name = "Y" then extended false β.y
  else match table.getVariable? name with
    | some v => if v.isConst then v.value else extended v.signed (β.cell name 0)
    | none => 0

def element (table : Table) (β : Bytes) (name : String) (index : Int64) : Int64 :=
  match table.getVariable? name with
  | some v => extended v.signed (β.cell name index)
  | none => 0

end Bytes

namespace Expr

def fixed (table : Table) (e : Expr) : Int64 :=
  (constant? table e).getD 0

/-- The number that a term stands for. -/
def asNumber (table : Table) (β : Bytes) : Expr → Int64
  | .int n => n
  | .var name .absent => β.scalar table name
  | .var name index => β.element table name (index.fixed table)
  | .binary .shl l r => l.asNumber table β <<< r.fixed table
  | .binary op l r => op.onNumbers (l.asNumber table β) (r.asNumber table β)
  | .unary .neg e => -e.asNumber table β
  | .unary _ e => ~~~ e.asNumber table β
  | _ => 0

theorem asNumber_binary {op : Op} (isOp : op.isByteOp = true) (table : Table) (β : Bytes)
    (l r : Expr) :
    (binary op l r).asNumber table β = op.onNumbers (l.asNumber table β) (r.asNumber table β) := by
  cases op with
  | add | sub | and | or | xor => rfl
  | _ => cases isOp

/-- Is it an element of an array of bytes, at an index that is known and in range? -/
def isElement (table : Table) (name : String) (index : Expr) : Bool :=
  (table.getVariable? name).any fun v => v.size == 1 && !v.pointer &&
    (constant? table index).any fun k => 0 ≤ k && k < v.length

def isTerm (table : Table) : Expr → Bool
  | .int _ => true
  | .var name .absent => isByteName table name
  | .var name index => isElement table name index
  | .binary .shl l r => l.isTerm table && (constant? table r).any fun k => 0 ≤ k && k ≤ 8
  | .binary op l r => op.isByteOp && l.isTerm table && r.isTerm table
  | .unary op e => (op == .neg || op == .bitNot) && e.isTerm table
  | _ => false

/-- The bytes of variables that a term reads. -/
def cells (table : Table) : Expr → List (String × Int64)
  | .var name .absent => if isCell table name then [(name, 0)] else []
  | .var name index => [(name, index.fixed table)]
  | .binary .shl l _ => l.cells table
  | .binary _ l r => l.cells table ++ r.cells table
  | .unary _ e => e.cells table
  | _ => []

theorem cells_binary {table : Table} {op : Op} (other : op ≠ .shl) (l r : Expr) :
    (binary op l r).cells table = l.cells table ++ r.cells table := by
  cases op with
  | shl => exact absurd rfl other
  | _ => rfl

def isUnsignedByte (table : Table) : Expr → Bool
  | .var name .absent =>
    isRegisterName name || (table.getVariable? name).any fun v => isByteCell v && !v.signed
  | _ => false

/-- Can it be compared: a register, an unsigned byte or a constant? -/
def isOperand (table : Table) (e : Expr) : Bool :=
  e.isUnsignedByte table || (constant? table e).isSome && e.isTerm table

def isTest (table : Table) : Expr → Bool
  | .binary op l r =>
    if op.isCompare then l.isOperand table && r.isOperand table
    else (op == .logAnd || op == .logOr) && l.isTest table && r.isTest table
  | .unary op e => op == .not && e.isTest table
  | _ => false

/-- Is a test true? Two constants are compared as numbers, and all else as bytes. -/
def isTrue (table : Table) (β : Bytes) : Expr → Bool
  | .binary .logAnd l r => l.isTrue table β && r.isTrue table β
  | .binary .logOr l r => l.isTrue table β || r.isTrue table β
  | .binary op l r =>
    match constant? table l, constant? table r with
    | some a, some b => op.orders a b
    | _, _ => op.compares (lowByte (l.asNumber table β)) (lowByte (r.asNumber table β))
  | .unary _ e => !e.isTrue table β
  | _ => false

end Expr

end Backend6502.Source

namespace Backend6502.Cpu

def byteOf (high : Bool) (word : UInt16) : UInt8 :=
  (if high then word >>> 8 else word).toUInt8

theorem toNat_byteOf_false (word : UInt16) : (byteOf false word).toNat = word.toNat % 256 := by
  simp [byteOf]

theorem toNat_byteOf_true (word : UInt16) : (byteOf true word).toNat = word.toNat / 256 := by
  have small := word.toNat_lt
  simp [byteOf, Nat.shiftRight_eq_div_pow]
  omega

/-- A word is made of its bytes. -/
theorem eq_of_byteOf {a b : UInt16} (same : ∀ high, byteOf high a = byteOf high b) : a = b := by
  rw [← wordOf_bytes a, ← wordOf_bytes b]
  exact congr (congrArg wordOf (same false)) (same true)

theorem toNat_wordOf (low high : UInt8) :
    (wordOf low high).toNat = low.toNat + 256 * high.toNat := by
  have small := low.toNat_lt
  have fits : high.toNat * 256 < 65536 := by
    have := high.toNat_lt
    omega
  have shifted : (high.toUInt16 <<< 8).toNat = high.toNat <<< 8 := by
    simp [Nat.shiftLeft_eq, Nat.mod_eq_of_lt fits]
  rw [wordOf, UInt16.toNat_or, shifted, UInt8.toNat_toUInt16, Nat.or_comm,
    ← Nat.shiftLeft_add_eq_or_of_lt small, Nat.shiftLeft_eq]
  omega

theorem byteOf_wordOf (low high : UInt8) (second : Bool) :
    byteOf second (wordOf low high) = if second then high else low := by
  have smallLow := low.toNat_lt
  apply UInt8.toNat_inj.mp
  cases second with
  | false =>
    rw [toNat_byteOf_false, toNat_wordOf, if_neg Bool.false_ne_true]
    omega
  | true =>
    rw [toNat_byteOf_true, toNat_wordOf, if_pos rfl]
    omega

end Backend6502.Cpu

namespace Backend6502.Source.Op

open Cpu (byteOf toNat_byteOf_false toNat_byteOf_true)

variable {op : Op}

def onWords : Op → UInt16 → UInt16 → UInt16
  | .add, a, b => a + b
  | .sub, a, b => a - b
  | .and, a, b => a &&& b
  | .or, a, b => a ||| b
  | .xor, a, b => a ^^^ b
  | _, _, _ => 0

/-- The carry that an operation starts with. A bitwise operation leaves it as it is. -/
def startCarry : Op → Bool → Bool
  | .add, _ => false
  | .sub, _ => true
  | _, carry => carry

/-- The outcome of an operation on two bytes with a carry, and the carry that it leaves. -/
def withCarry : Op → Bool → UInt8 → UInt8 → UInt8 × Bool
  | .add, carry, a, b =>
    let sum := a.toNat + b.toNat + carry.toNat
    (UInt8.ofNat sum, 0x100 ≤ sum)
  | .sub, carry, a, b =>
    let difference := 0xFF + a.toNat + carry.toNat - b.toNat
    (UInt8.ofNat difference, 0x100 ≤ difference)
  | op, carry, a, b => (op.onBytes a b, carry)

theorem byteOf_onWords_low (isOp : op.isByteOp = true) (carry : Bool) (a b : UInt16) :
    byteOf false (op.onWords a b) =
      (op.withCarry (op.startCarry carry) (byteOf false a) (byteOf false b)).1 := by
  have smallA := a.toNat_lt
  have smallB := b.toNat_lt
  cases op with
  | add =>
    apply UInt8.toNat_inj.mp
    simp only [onWords, withCarry, startCarry, toNat_byteOf_false, UInt16.toNat_add,
      UInt8.toNat_ofNat', Bool.toNat_false]
    omega
  | sub =>
    apply UInt8.toNat_inj.mp
    simp only [onWords, withCarry, startCarry, toNat_byteOf_false, UInt16.toNat_sub,
      UInt8.toNat_ofNat', Bool.toNat_true]
    omega
  | and | or | xor => simp [byteOf, onWords, withCarry, onBytes]
  | _ => cases isOp

/-- The high byte of an outcome is that of the high bytes, with the carry of the low ones. -/
theorem byteOf_onWords_high (isOp : op.isByteOp = true) (carry : Bool) (a b : UInt16) :
    byteOf true (op.onWords a b) =
      (op.withCarry (op.withCarry (op.startCarry carry) (byteOf false a) (byteOf false b)).2
        (byteOf true a) (byteOf true b)).1 := by
  have smallA := a.toNat_lt
  have smallB := b.toNat_lt
  cases op with
  | add =>
    apply UInt8.toNat_inj.mp
    simp only [onWords, withCarry, startCarry, toNat_byteOf_false, toNat_byteOf_true,
      UInt16.toNat_add, UInt8.toNat_ofNat', Bool.toNat_false]
    by_cases carries : 0x100 ≤ a.toNat % 256 + b.toNat % 256 + 0
    · simp only [carries, decide_true, Bool.toNat_true]
      omega
    · simp only [carries, decide_false, Bool.toNat_false]
      omega
  | sub =>
    apply UInt8.toNat_inj.mp
    simp only [onWords, withCarry, startCarry, toNat_byteOf_false, toNat_byteOf_true,
      UInt16.toNat_sub, UInt8.toNat_ofNat', Bool.toNat_true]
    by_cases carries : 0x100 ≤ 0xFF + a.toNat % 256 + 1 - b.toNat % 256
    · simp only [carries, decide_true, Bool.toNat_true]
      omega
    · simp only [carries, decide_false, Bool.toNat_false]
      omega
  | and | or | xor =>
    apply UInt8.eq_of_toBitVec_eq
    simp [byteOf, onWords, withCarry, onBytes, BitVec.ushiftRight_and_distrib,
      BitVec.ushiftRight_or_distrib, BitVec.ushiftRight_xor_distrib]
  | _ => cases isOp

end Backend6502.Source.Op

namespace Backend6502.Source

open Cpu (byteOf wordOf)
open Lowering (constant? foldUnary? constantVariable? fold isRegisterName lowByte wideVariable?)
open Symbols (Table Variable)

def lowWord (n : Int64) : UInt16 :=
  n.toUInt64.toUInt16

theorem byteOf_lowWord (high : Bool) (n : Int64) :
    byteOf high (lowWord n) = lowByte (if high then n >>> 8 else n) := by
  apply UInt8.eq_of_toBitVec_eq
  apply BitVec.eq_of_getLsbD_eq
  intro i small
  cases high with
  | false => simp [byteOf, lowWord, lowByte]
  | true =>
    have inside : 8 + i < 16 := by omega
    have shifted : (n.toBitVec.sshiftRight 8).getLsbD i = n.toBitVec.getLsbD (8 + i) := by
      rw [BitVec.getLsbD_sshiftRight, if_pos (by omega), decide_eq_false (by omega)]
      rfl
    simp [byteOf, lowWord, lowByte, small, shifted, inside]

theorem lowWord_onNumbers {op : Op} (isOp : op.isByteOp = true) (a b : Int64) :
    lowWord (op.onNumbers a b) = op.onWords (lowWord a) (lowWord b) := by
  cases op with
  | add | sub | and | or | xor => simp [lowWord, Op.onNumbers, Op.onWords]
  | _ => cases isOp

theorem byteOf_lowWord_extended (high : Bool) (b : UInt8) :
    byteOf high (lowWord (extended false b)) = if high then 0 else b := by
  have small := b.toNat_lt
  apply UInt8.toNat_inj.mp
  cases high with
  | false => simp [byteOf, lowWord, extended]
  | true =>
    rw [Cpu.toNat_byteOf_true]
    simp [lowWord, extended]
    omega

namespace Expr

variable {table : Table} {e : Expr} {op : Op}

/-- Is it a constant: a literal or a constant variable, or made of such without a shift? -/
def isFixed (table : Table) : Expr → Bool
  | .int _ => true
  | .var name .absent => (table.getVariable? name).any fun v => v.isConst && v.length == 0
  | .binary op l r => op.isByteOp && l.isFixed table && r.isFixed table
  | .unary op e => (op == .neg || op == .bitNot) && e.isFixed table
  | _ => false

/-- Is it a register, an unsigned byte or a constant? -/
def isNarrow (table : Table) (e : Expr) : Bool :=
  e.isUnsignedByte table || e.isFixed table

/-- Is it a variable of 16 bits, without an index? -/
def isWord (table : Table) (e : Expr) : Bool :=
  (wideVariable? table e).isSome

def isWordOperand (table : Table) (e : Expr) : Bool :=
  e.isWord table || e.isNarrow table

/-- The word that an operand stands for. -/
def asWord (table : Table) (β : Bytes) (e : Expr) : UInt16 :=
  match wideVariable? table e with
  | some v => wordOf (β.cell v.name 0) (β.cell v.name 1)
  | none => lowWord (e.asNumber table β)

/-- The bytes of variables that an operand of words is made of. -/
def wordCells (table : Table) (e : Expr) : List (String × Int64) :=
  match wideVariable? table e with
  | some v => [(v.name, 0), (v.name, 1)]
  | none => e.cells table

section Unfolding

variable {v : Variable}

theorem asWord_of_wide (found : wideVariable? table e = some v) (β : Bytes) :
    e.asWord table β = wordOf (β.cell v.name 0) (β.cell v.name 1) := by
  rw [asWord, found]

theorem asWord_of_narrow (narrow : wideVariable? table e = none) (β : Bytes) :
    e.asWord table β = lowWord (e.asNumber table β) := by
  rw [asWord, narrow]

theorem wordCells_of_wide (found : wideVariable? table e = some v) :
    e.wordCells table = [(v.name, 0), (v.name, 1)] := by
  rw [wordCells, found]

theorem wordCells_of_narrow (narrow : wideVariable? table e = none) :
    e.wordCells table = e.cells table := by
  rw [wordCells, narrow]

end Unfolding

theorem fold_eq_onNumbers (isOp : op.isByteOp = true) (a b : Int64) :
    fold op a b = .ok (op.onNumbers a b) := by
  cases op with
  | add | sub | and | or | xor => rfl
  | _ => cases isOp

theorem isFixed_binary {l r : Expr}
    (isFixed : (binary op l r).isFixed table = true) :
    op.isByteOp = true ∧ l.isFixed table = true ∧ r.isFixed table = true := by
  obtain ⟨both, right⟩ := Bool.and_eq_true_iff.mp isFixed
  obtain ⟨isOp, left⟩ := Bool.and_eq_true_iff.mp both
  exact ⟨isOp, left, right⟩

theorem isFixed_unary
    (isFixed : (unary op e).isFixed table = true) :
    (op = .neg ∨ op = .bitNot) ∧ e.isFixed table = true := by
  obtain ⟨isOp, operand⟩ := Bool.and_eq_true_iff.mp isFixed
  exact ⟨by simpa using isOp, operand⟩

/-- A constant is known in advance; no byte matters to it. -/
theorem constant?_of_isFixed
    (free : ∀ name, isRegisterName name = true → table.getVariable? name = none) (β : Bytes) :
    ∀ {e : Expr}, e.isFixed table = true → constant? table e = some (e.asNumber table β)
  | .int _, _ => rfl
  | .var name .absent, isFixed => by
      cases found : table.getVariable? name with
      | none => simp [Expr.isFixed, found] at isFixed
      | some v =>
        have both : v.isConst = true ∧ v.length = 0 := by
          simpa [Expr.isFixed, found] using isFixed
        have plain : name ≠ "X" ∧ name ≠ "Y" := by
          constructor
          · rintro rfl
            cases found.symm.trans (free "X" rfl)
          · rintro rfl
            cases found.symm.trans (free "Y" rfl)
        simp [constant?, constantVariable?, asNumber, Bytes.scalar, plain, found, both]
  | .binary op l r, isFixed => by
      obtain ⟨isOp, left, right⟩ := isFixed_binary isFixed
      have first := constant?_of_isFixed free β left
      have second := constant?_of_isFixed free β right
      cases op with
      | add | sub | and | or | xor =>
        simp [constant?, first, second, Op.isAssign, Op.compound?, fold, Except.toOption,
          asNumber, Op.onNumbers]
      | _ => cases isOp
  | .unary op e, isFixed => by
      obtain ⟨isOp, operand⟩ := isFixed_unary isFixed
      have inner := constant?_of_isFixed free β operand
      rcases isOp with rfl | rfl
      · simp [constant?, inner, foldUnary?, asNumber]
      · simp [constant?, inner, foldUnary?, asNumber]

end Expr

end Backend6502.Source
