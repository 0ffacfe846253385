import Backend6502.Proofs.ByteValues

/-!
# Code of terms

By induction on the term, its code computes the lowest byte of the number that the term stands for.
Names and elements are read where they stand; shifts are made in the accumulator, bit by bit.
-/

namespace Backend6502.Lowering

open Code (Surroundings)
open Cpu (State)
open Source (Op Expr Bytes isCell isByteCell lowByte_extended)
open Symbols (Table Variable)

variable {G : Ground} {b : State → UInt8} {c : Context} {w : Surroundings} {scope : Scope}
  {name : String} {k : Int64} {index : Expr} {op : Op}

def bytesOf (w : Surroundings) (table : Table) (s : State) : Bytes where
  cell name offset := s.read (cellAddress w table name offset)
  x := s.x
  y := s.y

/-- The place that a name of a byte stands for. -/
inductive Names (table : Table) : String → Place → Prop where
  | x : Names table "X" .x
  | y : Names table "Y" .y
  | constant {name : String} {v : Variable} (plain : isRegisterName name = false)
      (found : table.getVariable? name = some v) (fixed : v.isConst = true) :
      Names table name (.immediate v.value)
  | cell {name : String} {v : Variable} (plain : isRegisterName name = false)
      (found : table.getVariable? name = some v) (isByte : isByteCell v = true) :
      Names table name (.cell name true 0 v.signed)

namespace Names

variable {table : Table} {name : String} {place : Place}

section

variable (names : Names table name place)

include names

theorem isByte {G : Ground} (reads : isCell table name = true → G.cells name 0) :
    place.IsByte G := by
  cases names with
  | cell plain found isByte =>
    refine reads ?_
    rw [isCell, found]
    exact isByte
  | _ => trivial

theorem notAcc : place.isAccumulator = false := by
  cases names <;> rfl

theorem notScratch : place.isScratch = false := by
  cases names <;> rfl

end

theorem ne_of_plain (plain : isRegisterName name = false) : name ≠ "X" ∧ name ≠ "Y" := by
  unfold isRegisterName at plain
  simpa using plain

theorem byte_eq (names : Names table name place) (w : Surroundings) (s : State) :
    place.byte w table s = lowByte ((bytesOf w table s).scalar table name) := by
  cases names with
  | x => exact (lowByte_extended false s.x).symm
  | y => exact (lowByte_extended false s.y).symm
  | constant plain found fixed =>
    obtain ⟨notX, notY⟩ := ne_of_plain plain
    simp [Bytes.scalar, notX, notY, found, fixed, Place.byte, Place.access, State.load]
  | @cell name v plain found isByte =>
    obtain ⟨notX, notY⟩ := ne_of_plain plain
    have varies : v.isConst = false := by simpa using (Bool.and_eq_true_iff.mp isByte).2
    simp only [Bytes.scalar, notX, notY, found, varies, if_false, Bool.false_eq_true]
    exact (lowByte_extended v.signed _).symm

end Names

section Reading

theorem emits_readVariable (known : Expr.isByteName scope.symbols name = true)
    (low : c.high = false) : Emits w scope c (readVariable name .absent) fun place d g =>
      d = c ∧ g = id ∧ Names scope.symbols name place := by
  refine .ite (fun register => ?_) fun plain => .symbols ?_
  · unfold readRegister
    refine .check fun _ => .inHigh ?_
    rw [low, if_neg Bool.false_ne_true]
    refine .pure ⟨rfl, rfl, ?_⟩
    by_cases isX : name = "X"
    · rw [isX]
      exact .x
    · have isY : name = "Y" := by
        unfold isRegisterName at register
        simpa [isX] using register
      rw [isY]
      exact .y
  · have plain : isRegisterName name = false := eq_false_of_ne_true plain
    cases found : scope.symbols.getVariable? name with
    | none => exact .fail
    | some v =>
      have named : v.name = name := (Table.of_getVariable? found).2
      rw [Expr.isByteName, plain, isCell, found] at known
      refine .ite (fun _ => .ite (fun fixed => ?_) fun varies => ?_) fun index => absurd rfl index
      · exact .pure ⟨rfl, rfl, .constant plain found (Bool.and_eq_true_iff.mp fixed).1⟩
      · have isByte : isByteCell v = true := by
          simpa [varies] using known
        have narrow : v.size ≠ 2 := by
          unfold isByteCell at isByte
          intro wide
          simp [wide] at isByte
        refine .ite (fun wide => absurd wide narrow) fun _ => .inHigh ?_
        rw [low, if_neg Bool.false_ne_true, named]
        exact .pure ⟨rfl, rfl, .cell plain found isByte⟩

theorem computes_readVariable (known : Expr.isByteName G.table name = true)
    (reads : isCell G.table name = true → G.cells name 0) :
    Computes G (readVariable name .absent) fun s =>
      lowByte ((bytesOf G.w G.table s).scalar G.table name) := by
  intro c low
  refine (emits_readVariable known low).mono fun place d g ⟨same, nothing, names⟩ => ?_
  cases same
  cases nothing
  exact .unmoved (names.isByte reads) names.notAcc names.notScratch fun s _ => names.byte_eq G.w s

/-- The step that reads an element finds it at its offset, if the index is a number in range. -/
theorem emits_readConstantElement {v : Variable} (plain : v.pointer = false)
    (least : 0 ≤ k) (most : k < v.length) (low : c.high = false) :
    Emits w scope c (readConstantElement v k) fun place d g =>
      d = c ∧ g = id ∧ place = .cell v.name true k v.signed := by
  have inRange : ¬(0 < v.length ∧ (k < 0 ∨ v.length ≤ k)) := by
    rintro ⟨-, below | above⟩
    · exact Int64.lt_irrefl (Int64.lt_of_le_of_lt least below)
    · exact Int64.lt_irrefl (Int64.lt_of_le_of_lt above most)
  unfold readConstantElement
  rw [plain, if_neg Bool.false_ne_true, if_neg inRange]
  refine .inHigh ?_
  rw [low, if_neg Bool.false_ne_true]
  exact .pure ⟨rfl, rfl, rfl⟩

/-- An element is read where it stands; an index that is known but no number is an error. -/
theorem computes_readElement (given : index.isAbsent = false)
    (isElement : Expr.isElement G.table name index = true)
    (reads : G.cells name (index.fixed G.table)) :
    Computes G (readVariable name index) fun s =>
      lowByte ((bytesOf G.w G.table s).element G.table name (index.fixed G.table)) := by
  intro c low
  obtain ⟨v, found, holds⟩ := (Option.any_eq_true _ _).mp isElement
  simp only [Bool.and_eq_true, beq_iff_eq, Bool.not_eq_true', Option.any_eq_true,
    decide_eq_true_eq] at holds
  obtain ⟨⟨narrow, plainCells⟩, k, known, least, most⟩ := holds
  have named : v.name = name := (Table.of_getVariable? found).2
  have fixed : index.fixed G.table = k := by rw [Expr.fixed, known, Option.getD_some]
  rw [fixed] at reads ⊢
  unfold readVariable
  rw [G.plain_of_found found, if_neg Bool.false_ne_true]
  refine .symbols ?_
  rw [found]
  refine .ite (fun absent => absurd (given.symm.trans absent) (by decide)) fun _ => ?_
  unfold readElement
  refine .check fun _ => ?_
  refine .check fun _ => ?_
  cases index with
  | int n =>
    cases known
    refine (emits_readConstantElement plainCells least most low).mono ?_
    rintro _ d _ ⟨same, rfl, rfl⟩
    cases same
    rw [named]
    refine .unmoved reads rfl rfl fun s _ => ?_
    rw [Bytes.element, found]
    exact (lowByte_extended v.signed _).symm
  | var other further =>
    -- A register has no value that is known, and no other name is allowed here.
    have notRegister : isRegisterName other = false := by
      refine eq_false_of_ne_true fun register => ?_
      cases further with
      | absent =>
        change constantVariable? G.table other = some k at known
        rw [constantVariable?, G.registers_free other register] at known
        cases known
      | _ => cases known
    obtain ⟨notX, notY⟩ := Names.ne_of_plain notRegister
    refine .ite (fun isX => absurd (beq_iff_eq.mp isX) notX) fun _ => ?_
    exact .ite (fun isY => absurd (beq_iff_eq.mp isY) notY) fun _ => .fail
  | _ => exact .fail

end Reading

/-- A byte that has been shifted to the left, bit by bit. -/
def doubled : Nat → UInt8 → UInt8
  | 0, b => b
  | n + 1, b => doubled n (b <<< 1)

theorem toNat_doubled (n : Nat) (b : UInt8) : (doubled n b).toNat = b.toNat <<< n % 256 := by
  induction n generalizing b with
  | zero =>
    have small := b.toNat_lt
    rw [doubled, Nat.shiftLeft_zero]
    omega
  | succ n ih =>
    have once : (b <<< 1).toNat = b.toNat * 2 % 256 := by
      simp [UInt8.toNat_shiftLeft, Nat.shiftLeft_eq]
    rw [doubled, ih, once, Nat.shiftLeft_eq, Nat.shiftLeft_eq, Nat.mod_mul_mod, Nat.mul_assoc,
      Nat.pow_succ']

theorem doubled_byte (b : UInt8) : doubled 8 b = 0 := by
  apply UInt8.toNat_inj.mp
  rw [toNat_doubled, Nat.shiftLeft_eq]
  exact Nat.mul_mod_left _ _

theorem lowByte_shiftLeft (n : Int64) (least : 0 ≤ k) (most : k ≤ 8) :
    lowByte (n <<< k) = doubled k.toInt.toNat (lowByte n) := by
  rw [Int64.le_iff_toInt_le] at least most
  have zero : (0 : Int64).toInt = 0 := rfl
  have byte : (8 : Int64).toInt = 8 := rfl
  obtain ⟨i, small, same⟩ : ∃ i : Nat, i ≤ 8 ∧ k.toInt = i := ⟨k.toInt.toNat, by omega, by omega⟩
  have literal : k = Int64.ofNat i := by
    apply Int64.toInt_inj.mp
    rw [same, Int64.toInt_ofNat_of_lt (Nat.lt_of_le_of_lt small (by decide))]
  have amount : ∀ i ≤ 8, (Int64.ofNat i).toBitVec.smod 64 = BitVec.ofNat 64 i := by decide
  have shifted : (n <<< k).toBitVec = n.toBitVec <<< i := by
    rw [Int64.toBitVec_shiftLeft, literal, amount i small, BitVec.shiftLeft_eq', BitVec.toNat_ofNat,
      Nat.mod_eq_of_lt (Nat.lt_of_le_of_lt small (by decide))]
  apply UInt8.toNat_inj.mp
  have low (n : Int64) : (lowByte n).toNat = n.toBitVec.toNat % 256 := UInt64.toNat_toUInt8 _
  rw [toNat_doubled, same, Int.toNat_natCast, low, low, shifted, BitVec.toNat_shiftLeft,
    Nat.shiftLeft_eq, Nat.shiftLeft_eq, Nat.mod_mod_of_dvd _ (by decide), Nat.mod_mul_mod]

section Shifting

variable {lhs : Operand} {amount : Expr}

theorem emits_shiftOnce (signed : Bool) (low : c.high = false) :
    Emits G.w G.scope c (shiftOnce .shl signed) fun _ =>
      Operated G (fun _ => True) (fun a _ => a <<< 1) (.immediate 0) c := by
  have shifts : Emits G.w G.scope c (emit .asl (.accumulator signed)) fun _ =>
      Operated G (fun _ => True) (fun a _ => a <<< 1) (.accumulator signed) c :=
    .operateBy rfl low rfl rfl rfl fun s _ _ => ⟨⟨rfl, rfl, rfl, rfl, rfl⟩, rfl, rfl, rfl⟩
  exact shifts.mono fun _ d g operated => ⟨operated.context, operated.run⟩

theorem works_shiftTimes (signed : Bool) (n : Nat) :
    Works G (fun a _ => doubled (n + 1) a) (.immediate 0) (shiftTimes .shl signed (n + 1)) := by
  induction n with
  | zero =>
    intro c low
    exact .bind (emits_shiftOnce signed low) fun _ d g operated => .pure operated
  | succ n ih =>
    intro c low
    refine .bind (emits_shiftOnce signed low) fun _ d g once => ?_
    obtain ⟨code, same⟩ := once.context
    have lowHere : d.high = false := by
      rw [same]
      exact low
    refine (ih d lowHere).mono fun _ e h further => ⟨?_, fun s binary _ => ?_⟩
    · obtain ⟨others, rfl⟩ := further.context
      exact ⟨others, by rw [same]; simp⟩
    · obtain ⟨alike, a, -⟩ := once.run s binary trivial
      obtain ⟨more, value, shows⟩ := further.run (g s) (alike.decimal.trans binary) trivial
      refine ⟨alike.trans more, ?_, shows⟩
      rw [Function.comp_apply, value, a]
      rfl

/-- A constant on the right is in nobody's way. -/
theorem Leaves.withConstant {place : Place} {d : Context} {g : State → State}
    (leaves : Leaves G b c place d g) :
    LeavesBoth G b (fun _ => 0) c place (.immediate 0) d g where
  toUndisturbed := leaves.toUndisturbed
  isByteL := leaves.isByte
  isByteR := trivial
  notAcc inUse := ⟨leaves.notAcc inUse, rfl⟩
  oneAcc := .inr rfl
  scratch := leaves.scratch.trans (by simp [Place.isScratch])
  notScratch inUse := ⟨leaves.notScratch inUse, rfl⟩
  oneScratch := .inr rfl
  valueL := leaves.value
  valueR _ _ _ := rfl

theorem computes_shiftBits (arithmetic : G.arithmetic) (least : 0 ≤ k) (most : k ≤ 8)
    (computes : Computes G lhs.value b) :
    Computes G (shiftBits .shl lhs k) fun s => doubled k.toInt.toNat (b s) := by
  intro c low
  unfold shiftBits
  refine .check fun _ => ?_
  refine .accInUse (.bind (computes c low) fun l d g leaves => ?_)
  have lowHere : d.high = false := leaves.kept.high.trans low
  split
  · next n =>
    refine .pure ⟨leaves.toUndisturbed, trivial, fun _ => rfl, leaves.scratch, fun _ => rfl,
      fun s t near => ?_⟩
    have narrow : 0 ≤ k ∧ k < 64 := ⟨least, Int64.lt_of_le_of_lt most (by decide)⟩
    rw [← leaves.value s t near]
    change lowByte (shiftLeft n k) = _
    rw [shiftLeft, if_pos narrow, lowByte_shiftLeft n least most]
    rfl
  · refine .inHigh ?_
    rw [lowHere, if_neg Bool.false_ne_true]
    refine .ite (fun none => .pure ?_) fun some => ?_
    · rw [none]
      exact leaves
    · obtain ⟨n, times⟩ : ∃ n, k.toInt.toNat = n + 1 := by
        have above : 0 < k := Int64.lt_of_le_of_ne least (Ne.symm some)
        rw [Int64.lt_iff_toInt_lt] at above
        have zero : (0 : Int64).toInt = 0 := rfl
        exact Nat.exists_eq_succ_of_ne_zero (by omega)
      have emits := leaves.withConstant.inAccumulator (works_shiftTimes l.signed n) arithmetic rfl
        low l.signed
      rw [times]
      cases inside : l.isAccumulator with
      | true =>
        rw [if_pos inside] at emits
        rw [Bool.not_true, Bool.and_false, if_neg Bool.false_ne_true]
        exact emits
      | false =>
        rw [if_neg (by rw [inside]; exact Bool.false_ne_true)] at emits
        rw [Bool.not_false, if_pos rfl, Bool.and_true]
        exact emits

/-- A shift by a number of bits that is known; one by a whole byte is another matter. -/
theorem emits_shift
    {Q : Report Place} (known : constant? scope.symbols amount = some k)
    (whole : k = 8 →
      Emits w scope c (if op = .shl then shiftByteLeft lhs else shiftByteRight lhs) Q)
    (part : k ≠ 8 → Emits w scope c (shiftBits op lhs k) Q) :
    Emits w scope c (shift op lhs amount) Q := by
  have reads (read : Option Int64) (d : Context)
      (ok : Lowering.constant amount scope c = .ok read d) : d = c ∧ read = some k := by
    cases ok
    exact ⟨rfl, known⟩
  refine .reading reads fun read same => ?_
  cases same
  exact .ite whole part

/-- A shift by a whole byte leaves nothing, and needs no code. -/
theorem computes_shift (arithmetic : G.arithmetic) (known : constant? G.table amount = some k)
    (least : 0 ≤ k) (most : k ≤ 8) (computes : Computes G lhs.value b) :
    Computes G (shift .shl lhs amount) fun s => doubled k.toInt.toNat (b s) := by
  intro c low
  refine emits_shift known (fun whole => .inHigh ?_) fun _ =>
    computes_shiftBits arithmetic least most computes c low
  rw [low, if_neg Bool.false_ne_true]
  refine .pure (.unmoved trivial rfl rfl fun s _ => ?_)
  rw [whole]
  exact (doubled_byte (b s)).symm

end Shifting

theorem xor_lowByte_neg_one (b : UInt8) : b ^^^ lowByte (-1) = ~~~ b := by
  have ones : lowByte (-1) = -1 := by decide
  rw [ones]
  simp

section Terms

theorem expr_lowerBinary (op : Op) (lhs rhs : Lowered) :
    (lowerBinary op lhs rhs).expr = .binary op lhs.expr rhs.expr := by
  cases op <;> rfl

theorem expr_lowerUnary (op : Op) (operand : Lowered) :
    (lowerUnary op operand).expr = .unary op operand.expr := by
  cases op <;> rfl

theorem expr_lower : ∀ e : Expr, (lower e).expr = e
  | .absent | .nothing | .int _ | .var _ _ | .incDec _ _ | .call _ _ => rfl
  | .binary op l r => by rw [lower, expr_lowerBinary, expr_lower l, expr_lower r]
  | .unary op e => by rw [lower, expr_lowerUnary, expr_lower e]

/-- A term shifts another one, or is made of two by another operation. -/
theorem isTerm_binary {table : Table} {l r : Expr}
    (isTerm : (Expr.binary op l r).isTerm table = true) :
    (op = .shl ∧ l.isTerm table = true ∧
      ∃ k, constant? table r = some k ∧ 0 ≤ k ∧ k ≤ 8) ∨
    (op.isByteOp = true ∧ l.isTerm table = true ∧ r.isTerm table = true) := by
  cases op with
  | shl =>
    simp only [Expr.isTerm, Bool.and_eq_true, Option.any_eq_true, decide_eq_true_eq] at isTerm
    exact .inl ⟨rfl, isTerm⟩
  | add | sub | and | or | xor =>
    simp only [Expr.isTerm, Bool.and_eq_true] at isTerm
    exact .inr ⟨isTerm.1.1, isTerm.1.2, isTerm.2⟩
  | _ => cases isTerm

theorem term_element (table : Table) (name : String)
    (given : index.isAbsent = false) :
    (Expr.var name index).isTerm table = Expr.isElement table name index ∧
      (Expr.var name index).cells table = [(name, index.fixed table)] ∧
      ∀ β, (Expr.var name index).asNumber table β = β.element table name (index.fixed table) := by
  cases index <;> first | exact ⟨rfl, rfl, fun _ => rfl⟩ | cases given

theorem computes_lower (arithmetic : G.arithmetic) : ∀ {e : Expr}, e.isTerm G.table = true →
    (∀ p ∈ e.cells G.table, G.cells p.1 p.2) →
    Computes G (lower e).value fun s => lowByte (e.asNumber G.table (bytesOf G.w G.table s))
  | .int n, _, _ => computes_int n
  | .var name index, isTerm, reads => by
      cases given : index.isAbsent with
      | true =>
        cases index with
        | absent =>
          refine computes_readVariable isTerm fun cell => reads (name, 0) ?_
          rw [Expr.cells, cell]
          exact List.mem_singleton_self _
        | _ => cases given
      | false =>
        obtain ⟨same, cells, number⟩ := term_element G.table name given
        rw [same] at isTerm
        rw [cells] at reads
        simp only [number]
        exact computes_readElement given isTerm (reads _ (List.mem_singleton_self _))
  | .binary op l r, isTerm, reads => by
      rcases isTerm_binary isTerm with
        ⟨rfl, isLeft, k, known, least, most⟩ | ⟨isOp, isLeft, isRight⟩
      · have computes : Computes G (shift .shl (lower l).toOperand (lower r).expr) _ :=
          computes_shift arithmetic (by rw [expr_lower]; exact known) least most
            (computes_lower arithmetic isLeft reads)
        simp only [← lowByte_shiftLeft _ least most] at computes
        simp only [Expr.asNumber, Expr.fixed, known, Option.getD_some]
        exact computes
      · have noShift : op ≠ .shl := by
          rintro rfl
          cases isOp
        rw [Expr.cells_binary noShift] at reads
        have computes := computes_arith arithmetic isOp
          (computes_lower arithmetic isLeft fun p inside => reads p (List.mem_append_left _ inside))
          (computes_lower arithmetic isRight fun p inside =>
            reads p (List.mem_append_right _ inside))
        simp only [Expr.asNumber_binary isOp, Op.lowByte_onNumbers isOp]
        cases op with
        | add | sub | and | or | xor => exact computes
        | _ => cases isOp
  | .unary op e, isTerm, reads => by
      obtain ⟨isOp, isOperand⟩ := Bool.and_eq_true_iff.mp isTerm
      have inner := computes_lower arithmetic isOperand reads
      cases op with
      | neg =>
        have computes : Computes G (arith .sub (.int 0) (lower e).toOperand) _ :=
          computes_arith arithmetic rfl (computes_int 0) inner
        have value (n : Int64) : Op.sub.onBytes (lowByte 0) (lowByte n) = lowByte (-n) := by
          have zero : lowByte 0 = 0 := rfl
          rw [Op.onBytes, zero, UInt8.zero_sub]
          simp [lowByte]
        simp only [value] at computes
        exact computes
      | bitNot =>
        have computes : Computes G (arith .xor (lower e).toOperand (.int (-1))) _ :=
          computes_arith arithmetic rfl inner (computes_int (-1))
        have value (n : Int64) : Op.xor.onBytes (lowByte n) (lowByte (-1)) = lowByte (~~~ n) := by
          rw [Op.onBytes, xor_lowByte_neg_one]
          simp [lowByte]
        simp only [value] at computes
        exact computes
      | _ => cases isOp

end Terms

end Backend6502.Lowering
