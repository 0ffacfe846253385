import Backend6502.Proofs.Conditions
import Backend6502.Proofs.FoldedConstants

/-!
# Comparisons with a step behind an operand

A step behind an operand of a comparison is put off until one side of the comparison is in the
accumulator. The other side is read after that. So if it is a variable in memory, it is compared as
the steps leave it: with 5 in both of them, `b < a++` holds. Constants, registers and the side that
is loaded are compared as they were.
-/

namespace Backend6502.Source.Expr

open Lowering (Deferred constant? isRegisterName lowByte)
open Symbols (Table)

/-- An operand without the step behind it. -/
def unstepped : Expr → Expr
  | .incDec _ e => e
  | e => e

def stepsBehind : Expr → List Deferred
  | .incDec op e => [⟨e, op.increments⟩]
  | _ => []

/-- Is it a register or an unsigned byte with a step behind it? -/
def isStepped (table : Table) : Expr → Bool
  | .incDec op e => op.isPostfix && e.isUnsignedByte table
  | _ => false

def isByteConstant (table : Table) (e : Expr) : Bool :=
  (constant? table e).any fun n => lowByte (e.folded table false) == lowByte n

/-- Is it an operand of a comparison, with or without a step behind it? -/
def isStepOperand (table : Table) (e : Expr) : Bool :=
  e.isStepped table || e.isUnsignedByte table || e.isByteConstant table

def inRegister : Expr → Bool
  | .var name .absent => isRegisterName name
  | _ => false

def inMemory (table : Table) : Expr → Bool
  | .var name .absent => isCell table name
  | _ => false

def comparedByte (table : Table) (β : Bytes) (e : Expr) : UInt8 :=
  lowByte ((constant? table e).getD (e.asNumber table β))

/--
Is the left side of a comparison read after the steps? It is if it is swapped with a register.
-/
def isLateLeft (table : Table) (lhs rhs : Expr) : Bool :=
  lhs.inMemory table && rhs.inRegister

/--
Is the right side of a comparison read after the steps? A constant on the left is compared last.
-/
def isLateRight (table : Table) (lhs rhs : Expr) : Bool :=
  rhs.inMemory table && (lhs.inMemory table || lhs.inRegister)

end Backend6502.Source.Expr

namespace Backend6502.Lowering

open Code (Surroundings Steps Point labelNames)
open Cpu (Memory State)
open Source (Op Expr isCell isByteCell)
open Symbols (Table)

section Memory

variable {w : Surroundings} {table : Table} {s t : State}

/-- Does the step leave an address in memory alone? -/
def Deferred.Avoids (w : Surroundings) (table : Table) (address : UInt16) (step : Deferred) :
    Prop :=
  step.target.inRegister = true ∨
    ∀ name, step.target = .var name .absent → cellAddress w table name 0 ≠ address

theorem Deferred.read_perform {step : Deferred} {address : UInt16}
    (known : step.isByteStep table = true) (avoids : step.Avoids w table address) :
    (step.perform w table s).read address = s.read address := by
  obtain ⟨target, increments⟩ := step
  unfold isByteStep at known
  split at known
  · next name same =>
    cases same
    rcases avoids with register | apart
    · rcases Bool.or_eq_true_iff.mp register with isX | isY
      · cases beq_iff_eq.mp isX
        rfl
      · cases beq_iff_eq.mp isY
        rfl
    · have apart := apart name rfl
      change (stepByte w table name increments s).read address = s.read address
      unfold stepByte Place.ofName
      split
      · rfl
      · split
        · rfl
        · change (s.write (cellAddress w table name 0) _).read address = _
          rw [State.read_write, if_neg apart]
  · cases known

theorem Deferred.read_performAll {steps : List Deferred} {address : UInt16}
    (known : ∀ step ∈ steps, step.isByteStep table = true)
    (avoids : ∀ step ∈ steps, step.Avoids w table address) :
    (performAll w table steps s).read address = s.read address := by
  induction steps generalizing s with
  | nil => rfl
  | cons step rest ih =>
    have others := ih (s := step.perform w table s)
      (fun step inside => known step (List.mem_cons_of_mem _ inside))
      fun step inside => avoids step (List.mem_cons_of_mem _ inside)
    have first := read_perform (s := s) (known step List.mem_cons_self)
      (avoids step List.mem_cons_self)
    exact others.trans first

end Memory

section Operands

variable {w : Surroundings} {scope : Scope} {e : Expr} {place : Place} {c d : Context}
variable {name : String}

/-- What is known of an operand is known of its place. -/
structure Located (w : Surroundings) (table : Table) (e : Expr) (place : Place) : Prop where
  operand : place.isOperandIn false = true
  unsigned : place.signed = false
  register : place.isRegister = e.inRegister
  memory : place.isMemory = e.inMemory table
  value : ∀ s, place.byte w table s = e.comparedByte table (bytesOf w table s)

theorem Located.readable {table : Table} (located : Located w table e place) :
    place.isReadable table = true ∧
      ∀ s, place.seen w table s = e.comparedByte table (bytesOf w table s) := by
  have operand := located.operand
  have kind : place.isReadable table = true ∧ place.isIndexed = false := by
    cases place <;> first | exact ⟨rfl, rfl⟩ | cases operand
  refine ⟨kind.1, fun s => ?_⟩
  rw [Place.seen_eq_byte kind.2, located.value]

theorem Names.comparedByte {table : Table} (names : Names table name place)
    (unknown : constantVariable? table name = none) (s : State) :
    place.byte w table s = (Expr.var name .absent).comparedByte table (bytesOf w table s) := by
  rw [Expr.comparedByte, constant?, unknown]
  exact names.byte_eq w s

theorem Names.located_register {table : Table} (names : Names table name place)
    (index : place.isIndexRegister = true) (register : isRegisterName name = true)
    (free : table.getVariable? name = none) : Located w table (.var name .absent) place := by
  have kind : place.isOperandIn false = true ∧ place.signed = false ∧ place.isRegister = true ∧
      place.isMemory = false := by
    cases place <;> first | exact ⟨rfl, rfl, rfl, rfl⟩ | cases index
  obtain ⟨operand, unsigned, inside, outside⟩ := kind
  refine ⟨operand, unsigned, inside.trans register.symm, outside.trans ?_,
    names.comparedByte (by rw [constantVariable?, free])⟩
  rw [Expr.inMemory, isCell, free]
  rfl

theorem Names.located (names : Names scope.symbols name place) (defined : scope.symbols.Defined)
    (unsigned : (Expr.var name .absent).isUnsignedByte scope.symbols = true) :
    Located w scope.symbols (.var name .absent) place := by
  cases names with
  | x => exact Names.x.located_register rfl rfl (Scope.registers_free defined "X" rfl)
  | y => exact Names.y.located_register rfl rfl (Scope.registers_free defined "Y" rfl)
  | constant plain found fixed =>
    have target := isByteTarget_of_isUnsignedByte unsigned
    rw [Expr.isByteTarget, plain, isCell, found] at target
    simp [isByteCell, fixed] at target
  | cell plain found isByte =>
    rw [Expr.isUnsignedByte, plain, found, Option.any_some, Bool.false_or] at unsigned
    obtain ⟨-, unsigned⟩ := Bool.and_eq_true_iff.mp unsigned
    refine ⟨rfl, by simpa [Place.signed] using unsigned, plain.symm, ?_, ?_⟩
    · rw [Expr.inMemory, isCell, found, Option.any_some, isByte]
      rfl
    · exact (Names.cell plain found isByte).comparedByte
        (constantVariable?_eq_none found (isConst_of_isByteCell isByte))

/-- A constant is in no register and in no variable. -/
theorem Located.constant {n k : Int64} (defined : scope.symbols.Defined)
    (known : constant? scope.symbols e = some n) (lowest : lowByte k = lowByte n) :
    Located w scope.symbols e (.immediate k) := by
  have elsewhere : e.inRegister = false ∧ e.inMemory scope.symbols = false := by
    cases e with
    | var name index =>
      cases index with
      | absent =>
        obtain ⟨plain, v, found, fixed, -⟩ :=
          constantVariable?_eq_some (G := testGround w defined) known
        have found : scope.symbols.getVariable? name = some v := found
        exact ⟨plain, by simp [Expr.inMemory, isCell, found, isByteCell, fixed]⟩
      | _ => exact ⟨rfl, rfl⟩
    | _ => exact ⟨rfl, rfl⟩
  refine ⟨rfl, rfl, elsewhere.1.symm, elsewhere.2.symm, fun s => ?_⟩
  rw [Expr.comparedByte, known]
  exact lowest

/-- An operand needs no code, but the step behind it is put off. -/
theorem located_of_ok (defined : scope.symbols.Defined)
    (lengths : ∀ v ∈ scope.symbols.vars, 0 ≤ v.length)
    (operand : e.isStepOperand scope.symbols = true) (low : c.high = false)
    (ok : (lower e).value scope c = .ok place d) :
    d = { c with deferred := c.deferred ++ e.stepsBehind } ∧
      Located w scope.symbols e.unstepped place := by
  have none (same : e.stepsBehind = []) :
      c = { c with deferred := c.deferred ++ e.stepsBehind } := by
    rw [same, List.append_nil]
  rcases Bool.or_eq_true_iff.mp operand with named | constant
  · rcases Bool.or_eq_true_iff.mp named with stepped | unsigned
    · cases e with
      | incDec op inner =>
        obtain ⟨postfixed, unsigned⟩ := Bool.and_eq_true_iff.mp stepped
        obtain ⟨name, rfl⟩ := exists_name_of_isUnsignedByte unsigned
        have target := isByteTarget_of_isUnsignedByte unsigned
        obtain ⟨place, _, found, rest⟩ := bind_inv ok
        obtain ⟨_, -, -, rfl, -, names⟩ := emits_target (w := w) target low _ _ found
        obtain ⟨high, _, ⟨⟩, rest⟩ := bind_inv rest
        rw [low, if_neg Bool.false_ne_true, if_pos postfixed] at rest
        cases rest
        exact ⟨rfl, names.located defined unsigned⟩
      | _ => cases stepped
    · obtain ⟨name, rfl⟩ := exists_name_of_isUnsignedByte unsigned
      obtain ⟨_, -, -, rfl, -, names⟩ :=
        emits_readVariable (w := w) (isByteName_of_isUnsignedByte unsigned) low _ _ ok
      exact ⟨none rfl, names.located defined unsigned⟩
  · obtain ⟨n, known, lowest⟩ := (Option.any_eq_true _ _).mp constant
    obtain ⟨rfl, rfl⟩ := (Folds.of_constant known).rests defined lengths c place d ok
    have lowest : lowByte (e.folded scope.symbols d.high) = lowByte n := by
      rw [low]
      exact beq_iff_eq.mp lowest
    cases e with
    | incDec => cases known
    | _ => exact ⟨none rfl, .constant defined known lowest⟩

end Operands

section Fragments

variable {w : Surroundings} {scope : Scope} {op : Op} {lhs rhs : Expr} {label : String}
  {negate : Bool} {c d : Context} {u : Unit}
variable {step : Deferred} {steps : List Deferred}

theorem located_of_bothValues {values : Place × Place} (defined : scope.symbols.Defined)
    (lengths : ∀ v ∈ scope.symbols.vars, 0 ≤ v.length)
    (left : lhs.isStepOperand scope.symbols = true) (right : rhs.isStepOperand scope.symbols = true)
    (none : c.deferred = []) (low : c.high = false)
    (ok : bothValues (lower lhs).toOperand (lower rhs).toOperand scope c = .ok values d) :
    d = { c with deferred := lhs.stepsBehind ++ rhs.stepsBehind } ∧
      Located w scope.symbols lhs.unstepped values.1 ∧
        Located w scope.symbols rhs.unstepped values.2 := by
  have first (place : Place) (d : Context) (ok : (lower lhs).value scope c = .ok place d) :
      d = { c with deferred := lhs.stepsBehind } ∧ place.isAccumulator = false ∧
        Located w scope.symbols lhs.unstepped place := by
    obtain ⟨rfl, located⟩ := located_of_ok (w := w) defined lengths left low ok
    rw [none, List.nil_append]
    exact ⟨rfl, Place.notAcc_of_isOperandIn located.operand, located⟩
  exact bothValues_deferring first
    (fun _ _ ok => located_of_ok (c := { c with deferred := lhs.stepsBehind }) defined lengths right
      low ok) ok

section

variable {table : Table} {e : Expr}
variable (operand : e.isStepOperand table = true) (inside : step ∈ e.stepsBehind)

include operand inside

theorem isStepped_of_stepsBehind : e.isStepped table = true := by
  cases e with
  | incDec op inner =>
    simpa [Expr.isStepOperand, Expr.isUnsignedByte, Expr.isByteConstant, constant?] using operand
  | _ => cases inside

theorem isByteStep_of_mem : step.target = e.unstepped ∧ step.isByteStep table = true := by
  have stepped := isStepped_of_stepsBehind operand inside
  cases e with
  | incDec op inner =>
    cases List.mem_singleton.mp inside
    obtain ⟨-, unsigned⟩ := Bool.and_eq_true_iff.mp stepped
    obtain ⟨name, rfl⟩ := exists_name_of_isUnsignedByte unsigned
    exact ⟨rfl, isByteTarget_of_isUnsignedByte unsigned⟩
  | _ => cases inside

end

theorem comparedByte_performAll {e : Expr} (s : State) (defined : scope.symbols.Defined)
    (memory : e.inMemory scope.symbols = true)
    (known : ∀ step ∈ steps, step.isByteStep scope.symbols = true)
    (avoids : ∀ name, e = .var name .absent → ∀ step ∈ steps,
      step.Avoids w scope.symbols (cellAddress w scope.symbols name 0)) :
    e.comparedByte scope.symbols
        (bytesOf w scope.symbols (Deferred.performAll w scope.symbols steps s)) =
      e.comparedByte scope.symbols (bytesOf w scope.symbols s) := by
  cases e with
  | var name index =>
    cases index with
    | absent =>
      have same := Deferred.read_performAll (s := s) known (avoids name rfl)
      obtain ⟨v, found, -⟩ := (Option.any_eq_true _ _).mp memory
      obtain ⟨notX, notY⟩ := Names.ne_of_plain (Scope.plain_of_found defined found)
      simp only [Expr.comparedByte, Expr.asNumber, Source.Bytes.scalar, notX, notY, if_false,
        bytesOf, same]
    | _ => cases memory
  | _ => cases memory

/-- A comparison of operands in their places, with steps put off. -/
theorem departs_of_stepped {l r : Place} (defined : scope.symbols.Defined)
    (left : Located w scope.symbols lhs l) (right : Located w scope.symbols rhs r)
    (some : c.deferred.isEmpty = false)
    (known : ∀ step ∈ c.deferred, step.isByteStep scope.symbols = true)
    (registers : lhs.inRegister = true → rhs.inRegister = true →
      ∀ step ∈ c.deferred, step.target.inRegister = true)
    (compares : op.isCompare = true) (low : c.high = false)
    (ok : Comparison.emit ⟨op, l, r⟩ label negate scope c = .ok u d) :
    ∃ code, d.code = c.code ++ code ∧ (label ∉ labelNames code → ∀ s,
      let after := Deferred.performAll w scope.symbols c.deferred s
      Departs w label (op.compares (lhs.comparedByte scope.symbols (bytesOf w scope.symbols
            (if lhs.inMemory scope.symbols && rhs.inRegister then after else s)))
          (rhs.comparedByte scope.symbols (bytesOf w scope.symbols
            (if rhs.inMemory scope.symbols then after else s))) != negate)
        (Untouched w after) code s) := by
  have unsigned : (l.signed || r.signed) = false := by rw [left.unsigned, right.unsigned]; rfl
  rw [← left.register, ← right.register] at registers
  refine (departs_of_answers (w := w) (fun s => op.compares _ _) (fun _ => True)
    (fun s => Untouched w (Deferred.performAll w scope.symbols c.deferred s)) ?_ ok).imp
    fun code ⟨added, departs⟩ => ⟨added, fun outside s => departs outside s trivial⟩
  dsimp only
  rw [unsigned]
  refine (emits_answer (G := testGround w defined) known (fun first second s =>
    Deferred.read_performAll known fun step inside => .inl (registers first second step inside))
    compares low left.readable.1 right.readable.1).mono ?_
  rintro op' e g answered
  refine ⟨answered.compares, fun s _ => ?_⟩
  obtain ⟨answer, untouched⟩ := answered.answers s fun empty => by
    rw [empty] at some
    cases some
  refine ⟨?_, untouched⟩
  rw [← left.readable.2, ← right.readable.2, ← left.memory, ← right.memory, ← right.register]
  exact answer

theorem varies_of_isStepped {table : Table} {e : Expr} (stepped : e.isStepped table = true) :
    constant? table e = none ∧ e.stepsBehind.isEmpty = false ∧
      (e.unstepped.inRegister || e.unstepped.inMemory table) = true := by
  cases e with
  | incDec op inner =>
    obtain ⟨-, unsigned⟩ := Bool.and_eq_true_iff.mp stepped
    obtain ⟨name, rfl⟩ := exists_name_of_isUnsignedByte unsigned
    exact ⟨rfl, rfl, isByteTarget_of_isUnsignedByte unsigned⟩
  | _ => cases stepped

/-- The sides are put in their places and compared; a constant on the left is swapped first. -/
theorem departs_of_test (defined : scope.symbols.Defined)
    (lengths : ∀ v ∈ scope.symbols.vars, 0 ≤ v.length) (compares : op.isCompare = true)
    (left : lhs.isStepOperand scope.symbols = true) (right : rhs.isStepOperand scope.symbols = true)
    (stepped : (lhs.isStepped scope.symbols || rhs.isStepped scope.symbols) = true)
    (none : c.deferred = [])
    (ok : (lower (.binary op lhs rhs)).test label negate scope c = .ok u d) :
    ∃ code, d.code = c.code ++ code ∧ (label ∉ labelNames code → ∀ s,
      let a := lhs.unstepped
      let b := rhs.unstepped
      let after := Deferred.performAll w scope.symbols (lhs.stepsBehind ++ rhs.stepsBehind) s
      Departs w label (op.compares (a.comparedByte scope.symbols (bytesOf w scope.symbols
            (if Expr.isLateLeft scope.symbols a b then after else s)))
          (b.comparedByte scope.symbols (bytesOf w scope.symbols
            (if Expr.isLateRight scope.symbols a b then after else s))) != negate)
        (Untouched w after) code s) := by
  have unknown : constant? scope.symbols (.binary op lhs rhs) = .none :=
    constant?_compare compares ((Bool.or_eq_true_iff.mp stepped).imp
      (fun stepped => (varies_of_isStepped stepped).1)
      fun stepped => (varies_of_isStepped stepped).1)
  obtain ⟨⟨l, r⟩, between, e, values, compared, rfl⟩ :=
    compare_eq_ok (compare_of_test compares unknown ok)
  obtain ⟨rfl, atLeft, atRight⟩ := located_of_bothValues (c := { c with high := false }) (w := w)
    defined lengths left right none rfl values
  have behind {step : Deferred} (inside : step ∈ lhs.stepsBehind ++ rhs.stepsBehind) :
      (step.target = lhs.unstepped ∨ step.target = rhs.unstepped) ∧
        step.isByteStep scope.symbols = true := by
    rcases List.mem_append.mp inside with own | others
    · exact (isByteStep_of_mem left own).imp .inl id
    · exact (isByteStep_of_mem right others).imp .inr id
  have known (step : Deferred) (inside : step ∈ lhs.stepsBehind ++ rhs.stepsBehind) :=
    (behind inside).2
  have registers (first : lhs.unstepped.inRegister = true)
      (second : rhs.unstepped.inRegister = true)
      (step : Deferred) (inside : step ∈ lhs.stepsBehind ++ rhs.stepsBehind) :
      step.target.inRegister = true := by
    rcases (behind inside).1 with same | same
    · rw [same, first]
    · rw [same, second]
  have some : (lhs.stepsBehind ++ rhs.stepsBehind).isEmpty = false := by
    rcases Bool.or_eq_true_iff.mp stepped with stepped | stepped
    · simp [List.isEmpty_eq_false_iff.mp (varies_of_isStepped stepped).2.1]
    · simp [List.isEmpty_eq_false_iff.mp (varies_of_isStepped stepped).2.1]
  have fixed {e : Expr} {n : Int64} (located : Located w scope.symbols e (.immediate n)) :
      e.inRegister = false ∧ e.inMemory scope.symbols = false :=
    ⟨located.register.symm, located.memory.symm⟩
  unfold compareValues at compared
  replace compared := check_eq_ok compared
  dsimp only at atLeft atRight compared
  split at compared
  · exfalso
    rcases Bool.or_eq_true_iff.mp stepped with stepped | stepped
    · have varies := (varies_of_isStepped stepped).2.2
      rw [(fixed atLeft).1, (fixed atLeft).2] at varies
      cases varies
    · have varies := (varies_of_isStepped stepped).2.2
      rw [(fixed atRight).1, (fixed atRight).2] at varies
      cases varies
  · obtain ⟨noRegister, noMemory⟩ := fixed atLeft
    obtain ⟨code, added, departs⟩ := departs_of_stepped
      (c := { c with high := false, deferred := lhs.stepsBehind ++ rhs.stepsBehind }) defined
      atRight
      atLeft some known (fun first second => registers second first) (isCompare_swapped compares)
      rfl
      compared
    refine ⟨code, added, fun outside s => ?_⟩
    have departs := departs outside s
    dsimp only at departs ⊢
    rw [Expr.isLateLeft, Expr.isLateRight]
    rw [compares_swapped] at departs
    rw [noRegister, noMemory] at departs ⊢
    simp only [Bool.and_false, Bool.false_and, Bool.or_false] at departs ⊢
    exact departs
  · next noConstant _ =>
    have varies : (lhs.unstepped.inMemory scope.symbols || lhs.unstepped.inRegister) = true := by
      have operand := atLeft.operand
      rw [← atLeft.memory, ← atLeft.register]
      cases l with
      | x | y | cell => rfl
      | immediate n => exact (noConstant n rfl).elim
      | _ => cases operand
    obtain ⟨code, added, departs⟩ := departs_of_stepped
      (c := { c with high := false, deferred := lhs.stepsBehind ++ rhs.stepsBehind }) defined
      atLeft atRight some known registers compares rfl compared
    refine ⟨code, added, fun outside s => ?_⟩
    have departs := departs outside s
    dsimp only at departs ⊢
    rw [Expr.isLateLeft, Expr.isLateRight, varies, Bool.and_true]
    exact departs

/-- Do two operands that are variables in memory lie apart? -/
def OperandsApart (w : Surroundings) (table : Table) (a b : Expr) : Prop :=
  ∀ name other, a = .var name .absent → b = .var other .absent → isCell table name = true →
    isCell table other = true → cellAddress w table name 0 ≠ cellAddress w table other 0

/-- A side without a step of its own is the same before and after the step of the other side. -/
theorem comparedByte_unmoved {e other : Expr} {late : Bool} (s : State)
    (defined : scope.symbols.Defined) (operand : e.isStepOperand scope.symbols = true)
    (another : other.isStepOperand scope.symbols = true)
    (sides : ∀ step ∈ steps, step ∈ e.stepsBehind ∨ step ∈ other.stepsBehind)
    (unmoved : (late && e.isStepped scope.symbols) = false)
    (memory : late = true → e.unstepped.inMemory scope.symbols = true)
    (apart : OperandsApart w scope.symbols other.unstepped e.unstepped) :
    e.unstepped.comparedByte scope.symbols (bytesOf w scope.symbols
        (if late then Deferred.performAll w scope.symbols steps s else s)) =
      e.unstepped.comparedByte scope.symbols (bytesOf w scope.symbols s) := by
  cases late with
  | false => rfl
  | true =>
    have memory := memory rfl
    have outside (step : Deferred) (inside : step ∈ steps) :
        step.target = other.unstepped ∧ step.isByteStep scope.symbols = true := by
      rcases sides step inside with own | others
      · cases unmoved.symm.trans (isStepped_of_stepsBehind operand own)
      · exact isByteStep_of_mem another others
    refine comparedByte_performAll s defined memory (fun step inside => (outside step inside).2)
      fun name same step inside => ?_
    obtain ⟨target, known⟩ := outside step inside
    unfold Deferred.isByteStep at known
    split at known
    · next place isPlace =>
      rcases Bool.or_eq_true_iff.mp known with register | cell
      · exact .inl (by rw [isPlace]; exact register)
      · refine .inr fun again isAgain => ?_
        cases isPlace.symm.trans isAgain
        rw [same] at memory
        exact apart place name (target.symm.trans isPlace) same cell memory
    · cases known

/--
The code of a comparison with a step behind a side does each step once, on both of its ways. It goes
by the bytes that both sides had at its start, except for a side in memory that is read late: that
one is taken as the steps leave it. So the old bytes decide, unless the side that is read late is
the one that is stepped.
-/
theorem comparison_departs_stepped (defined : scope.symbols.Defined)
    (lengths : ∀ v ∈ scope.symbols.vars, 0 ≤ v.length) (compares : op.isCompare = true)
    (left : lhs.isStepOperand scope.symbols = true) (right : rhs.isStepOperand scope.symbols = true)
    (stepped : (lhs.isStepped scope.symbols || rhs.isStepped scope.symbols) = true)
    (none : c.deferred = []) :
    Ensures ((lower (.binary op lhs rhs)).test label negate) scope c fun _ d =>
      ∃ code, d.code = c.code ++ code ∧ (label ∉ labelNames code → ∀ s,
        let a := lhs.unstepped
        let b := rhs.unstepped
        let lateA := Expr.isLateLeft scope.symbols a b
        let lateB := Expr.isLateRight scope.symbols a b
        let after := Deferred.performAll w scope.symbols (lhs.stepsBehind ++ rhs.stepsBehind) s
        let byteAt (e : Expr) (s : State) :=
          e.comparedByte scope.symbols (bytesOf w scope.symbols s)
        Departs w label
          (op.compares (byteAt a (if lateA then after else s))
            (byteAt b (if lateB then after else s)) != negate) (Untouched w after) code s ∧
        (OperandsApart w scope.symbols a b → (lateA && lhs.isStepped scope.symbols) = false →
          (lateB && rhs.isStepped scope.symbols) = false →
          Departs w label (op.compares (byteAt a s) (byteAt b s) != negate) (Untouched w after)
            code s)) := by
  refine ensures_test fun _ d ok => ?_
  obtain ⟨code, added, departs⟩ := departs_of_test (w := w) defined lengths compares left right
    stepped none ok
  refine ⟨code, added, fun outside s => ⟨departs outside s, fun apart early early' => ?_⟩⟩
  have departs := departs outside s
  have first := comparedByte_unmoved (w := w) s defined left right
    (fun step inside => List.mem_append.mp inside) early
    (fun late => (Bool.and_eq_true_iff.mp late).1)
    fun name other isName isOther cell cell' =>
      (apart other name isOther isName cell' cell).symm
  have second := comparedByte_unmoved (w := w) s defined right left
    (fun step inside => (List.mem_append.mp inside).symm) early'
    (fun late => (Bool.and_eq_true_iff.mp late).1) apart
  dsimp only at departs
  rw [first, second] at departs
  exact departs

end Fragments

def stepScope : Scope where
  symbols := { vars := [{ name := "a", size := 1 }, { name := "b", size := 1 }] }
  function := { name := "main" }

def stepPlaces : Surroundings where
  address
    | "a" => 0x200
    | "b" => 0x201
    | _ => 0x80
  verbatim _ _ := none
  call _ _ := none

/-- In both variables is 5, and in X is 4. -/
def stepStart : State where
  x := 4
  memory := (({} : Memory).write 0x200 5).write 0x201 5

theorem stepScope_defined : stepScope.symbols.Defined :=
  .of_entries rfl

/-- The comparison `X++ < b`. -/
def registerComparison : Expr :=
  .binary .lt (.incDec .postInc (.var "X" .absent)) (.var "b" .absent)

/-- The 4 that was in X decides, though it is 5 when `b` is read. -/
theorem steppedRegister_departs :
    ∃ d line rest t, (lower registerComparison).test "out" false stepScope {} = .ok () d ∧
      Steps stepPlaces d.code ⟨d.code, stepStart⟩ ⟨line :: rest, t⟩ ∧
        line.flow stepPlaces t = .jump "out" ∧ t.x = 5 ∧ t.read 0x201 = 5 := by
  have ensures := @comparison_departs_stepped stepPlaces stepScope .lt
    (.incDec .postInc (.var "X" .absent)) (.var "b" .absent) "out" false {}
    stepScope_defined (by decide +kernel) rfl (by decide +kernel) (by decide +kernel)
    (by decide +kernel) rfl
  have goes : goesThrough ((lower registerComparison).test "out" false) stepScope {}
      (fun d => !(labelNames d.code).contains "out") = true := by
    decide +kernel
  obtain ⟨d, ran, outside, departs⟩ := ensures.exists_code rfl goes
  obtain ⟨-, departs⟩ := departs (by simpa using outside) stepStart
  have apart : OperandsApart stepPlaces stepScope.symbols (.var "X" .absent)
      (.var "b" .absent) := by
    rintro _ _ ⟨⟩ ⟨⟩ isCell
    exact absurd isCell (by decide +kernel)
  have departs := departs apart (by decide +kernel) (by decide +kernel)
  obtain ⟨line, rest, t, steps, leaves, -, untouched⟩ := departs.jumps (by decide +kernel)
  refine ⟨d, line, rest, t, ran, steps, leaves, untouched.x.trans (by decide +kernel), ?_⟩
  exact (untouched.memory 0x201 (by decide +kernel)).trans (by decide +kernel)

def lateComparison : Expr :=
  .binary .lt (.var "b" .absent) (.incDec .postInc (.var "a" .absent))

/-- With 5 in both, `a` is 6 when it is read: the code that is left if `b < a++` fails goes on. -/
theorem steppedMemory_read_late :
    ∃ d t, (lower lateComparison).test "out" true stepScope {} = .ok () d ∧
      Steps stepPlaces d.code ⟨d.code, stepStart⟩ ⟨[], t⟩ ∧
        Op.lt.compares (stepStart.read 0x201) (stepStart.read 0x200) = false := by
  obtain ⟨_, d, t, ran, steps, -⟩ := @exists_run_of_goesThrough _
    ((lower lateComparison).test "out" true) stepPlaces stepScope {} stepStart (fun _ => true) 9
    (by decide +kernel)
  exact ⟨d, t, ran, steps, by decide +kernel⟩

end Backend6502.Lowering
