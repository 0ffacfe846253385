import Backend6502.Proofs.Conditions
import Backend6502.Proofs.FoldedConstants

/-!
# Comparisons of signed bytes

The order of two signed bytes is read from the sign of their difference, which is computed as a
byte. If a byte can hold the difference, the order is right. If it cannot, the sign is the wrong
one, and the comparison comes out the other way round; so `-100 < 100` is found to be false. Whether
two bytes are equal is always found right.
-/

namespace Backend6502.Source

open Lowering (constant? lowByte swapped)
open Symbols (Table)

namespace Op

def isOrder : Op → Bool
  | .lt | .gt | .le | .ge => true
  | _ => false

/-- Can a signed byte hold the difference of two numbers? -/
def fitsDifference (a b : Int64) : Bool :=
  -128 ≤ a.toInt - b.toInt && a.toInt - b.toInt ≤ 127

theorem fitsDifference_iff (a b : Int64) :
    fitsDifference a b = true ↔ -128 ≤ a.toInt - b.toInt ∧ a.toInt - b.toInt ≤ 127 := by
  rw [fitsDifference, Bool.and_eq_true_iff, decide_eq_true_eq, decide_eq_true_eq]

/-- What the sign of a difference that is computed as a byte answers to a comparison. -/
def ordersBySign (op : Op) (a b : Int64) : Bool :=
  op.orders a b != (op.isOrder && !fitsDifference a b)

theorem orders_swapped (op : Op) (a b : Int64) : (swapped op).orders a b = op.orders b a := by
  cases op with
  | eq => exact Bool.beq_comm
  | ne => exact bne_comm
  | _ => rfl

theorem isOrder_swapped (op : Op) : (swapped op).isOrder = op.isOrder := by
  cases op <;> rfl

/-- All comparisons come down to two of them. -/
theorem orders_eq (a b : Int64) :
    Op.ne.orders a b = (!Op.eq.orders a b) ∧ Op.ge.orders a b = (!Op.lt.orders a b) ∧
      Op.le.orders a b = (Op.lt.orders a b || Op.eq.orders a b) ∧
        Op.gt.orders a b = (!Op.eq.orders a b && !Op.lt.orders a b) := by
  simp only [orders]
  refine ⟨rfl, ?_, ?_, ?_⟩
  · rw [← decide_not]
    exact decide_eq_decide.mpr Int64.not_lt.symm
  · rw [Bool.eq_iff_iff, Bool.or_eq_true, decide_eq_true_eq, decide_eq_true_eq, beq_iff_eq]
    exact Int64.le_iff_lt_or_eq
  · rw [Bool.eq_iff_iff, Bool.and_eq_true, Bool.not_eq_true', Bool.not_eq_true',
      beq_eq_false_iff_ne, decide_eq_false_iff_not, decide_eq_true_eq]
    rw [Int64.not_lt, Int64.lt_iff_le_and_ne, and_comm, ne_comm]

theorem of_orders_eq {a b : Int64} (equal : Op.eq.orders a b = true) :
    Op.lt.orders a b = false ∧ fitsDifference a b = true := by
  rw [orders, beq_iff_eq] at equal
  rw [equal, fitsDifference, Int.sub_self]
  exact ⟨decide_eq_false Int64.lt_irrefl, rfl⟩

end Op

/-- A signed byte stands for what it is without a sign, or for 256 less. -/
theorem toInt_extended_cases (b : UInt8) : b.toNat < 128 ∧ (extended true b).toInt = b.toNat ∨
      128 ≤ b.toNat ∧ (extended true b).toInt = b.toNat - 256 := by
  have value : (extended true b).toInt = b.toBitVec.toInt := by
    change b.toInt8.toInt64.toInt = _
    rw [Int8.toInt_toInt64]
    rfl
  have halves := BitVec.toInt_eq_toNat_cond b.toBitVec
  have unsigned : b.toBitVec.toNat = b.toNat := rfl
  rw [value]
  split at halves <;> omega

/-- The sign of the difference of two bytes says which is less, unless a byte cannot hold it. -/
theorem isNegative_sub (l r : UInt8) : Cpu.isNegative (l - r) =
      (Op.lt.orders (extended true l) (extended true r) !=
        !Op.fitsDifference (extended true l) (extended true r)) := by
  have left := toInt_extended_cases l
  have right := toInt_extended_cases r
  have smallL := l.toNat_lt
  have smallR := r.toNat_lt
  have negative : Cpu.isNegative (l - r) = decide (128 ≤ (l - r).toNat) := rfl
  have difference : (l - r).toNat = (256 - r.toNat + l.toNat) % 256 := UInt8.toNat_sub _ _
  have order : Op.lt.orders (extended true l) (extended true r) =
      decide ((extended true l).toInt < (extended true r).toInt) := by
    rw [Op.orders]
    exact decide_eq_decide.mpr Int64.lt_iff_toInt_lt
  have fits := Op.fitsDifference_iff (extended true l) (extended true r)
  rw [negative, order]
  cases held : Op.fitsDifference (extended true l) (extended true r) with
  | true =>
    have fits := fits.mp held
    rw [Bool.not_true, Bool.bne_false, decide_eq_decide]
    omega
  | false =>
    have fits := mt fits.mpr (by rw [held]; exact Bool.false_ne_true)
    rw [Bool.not_false, Bool.bne_true, ← decide_not, decide_eq_decide]
    omega

theorem sub_beq_zero (l r : UInt8) :
    (l - r == 0) = Op.eq.orders (extended true l) (extended true r) := by
  have same : l = r ↔ extended true l = extended true r := by
    constructor
    · exact congrArg _
    · intro equal
      rw [← lowByte_extended true l, equal, lowByte_extended]
  rw [Cpu.sub_beq_zero, Op.orders, Bool.eq_iff_iff, beq_iff_eq, beq_iff_eq, ← same]

namespace Expr

def isSignedScalar (table : Table) : Expr → Bool
  | .var name .absent => (table.getVariable? name).any fun v => isByteCell v && v.signed
  | _ => false

/-- Is it a constant that a signed byte can hold, and is it folded to that byte? -/
def isSmallConstant (table : Table) (e : Expr) : Bool :=
  (constant? table e).any fun n =>
    -128 ≤ n.toInt && n.toInt ≤ 127 && lowByte (e.folded table false) == lowByte n

/-- The number that an operand of a signed comparison stands for. -/
def signedNumber (table : Table) (β : Bytes) (e : Expr) : Int64 :=
  (constant? table e).getD (e.asNumber table β)

end Expr

end Backend6502.Source

namespace Backend6502.Cpu.State

open Source (Op extended)

/-- Flags that show the difference of two bytes answer a comparison by its sign. -/
theorem Shows.answersBy_sign {s : State} {op : Op} {l r : UInt8} (shows : s.Shows (l - r))
    (compares : op.isCompare = true) :
    s.answersBy true op = op.ordersBySign (extended true l) (extended true r) := by
  obtain ⟨zero, negative⟩ := shows
  rw [Source.sub_beq_zero] at zero
  rw [Source.isNegative_sub] at negative
  obtain ⟨isNe, isGe, isLe, isGt⟩ := Op.orders_eq (extended true l) (extended true r)
  have equal := Op.of_orders_eq (a := extended true l) (b := extended true r)
  cases op with
  | eq | ne | lt | ge | le | gt =>
    simp only [answersBy, Op.ordersBySign, zero, negative, isNe, isGe, isLe, isGt, Op.isOrder]
    cases less : Op.lt.orders (extended true l) (extended true r) <;>
      cases same : Op.eq.orders (extended true l) (extended true r) <;> simp_all
  | _ => cases compares

end Backend6502.Cpu.State

namespace Backend6502.Lowering

open Code (Surroundings Steps Point labelNames)
open Cpu (Memory State)
open Source (Op Expr extended isByteCell)
open Symbols (Table Variable)

/-- The place that an operand of a signed comparison stands for. -/
inductive SignedStands (table : Table) : Expr → Place → Prop where
  | scalar {name : String} {v : Variable} (found : table.getVariable? name = some v)
      (isByte : isByteCell v = true) (signed : v.signed = true) :
      SignedStands table (.var name .absent) (.cell name true 0 true)
  | constant {e : Expr} {n k : Int64} (known : constant? table e = some n)
      (least : -128 ≤ n.toInt) (most : n.toInt ≤ 127) (lowest : lowByte k = lowByte n) :
      SignedStands table e (.immediate k)

theorem extended_lowByte {n : Int64} (least : -128 ≤ n.toInt) (most : n.toInt ≤ 127) :
    extended true (lowByte n) = n := by
  have low := toNat_lowByte_eq_emod n
  have halves := Source.toInt_extended_cases (lowByte n)
  apply Int64.toInt_inj.mp
  omega

section Operands

variable {w : Surroundings} {scope : Scope} {e : Expr} {place : Place} {c d : Context}

theorem SignedStands.value (stands : SignedStands scope.symbols e place)
    (defined : scope.symbols.Defined) (s : State) :
    e.signedNumber scope.symbols (bytesOf w scope.symbols s) =
      extended true (place.byte w scope.symbols s) := by
  cases stands with
  | @scalar name v found isByte signed =>
    have varies := isConst_of_isByteCell isByte
    have unknown : constant? scope.symbols (.var name .absent) = none :=
      constantVariable?_eq_none found varies
    obtain ⟨notX, notY⟩ := Names.ne_of_plain (Scope.plain_of_found defined found)
    rw [Expr.signedNumber, unknown]
    change (bytesOf w scope.symbols s).scalar scope.symbols name = _
    simp only [Source.Bytes.scalar, notX, notY, found, varies, signed, if_false,
      Bool.false_eq_true]
    rfl
  | @constant _ n k known least most lowest =>
    rw [Expr.signedNumber, known]
    change n = extended true (lowByte k)
    rw [lowest, extended_lowByte least most]

theorem stands_of_isSignedScalar (defined : scope.symbols.Defined) (low : c.high = false)
    (scalar : e.isSignedScalar scope.symbols = true)
    (ok : (lower e).value scope c = .ok place d) : d = c ∧ SignedStands scope.symbols e place := by
  cases e with
  | var name index =>
    cases index with
    | absent =>
      obtain ⟨v, found, both⟩ := (Option.any_eq_true _ _).mp scalar
      obtain ⟨isByte, signed⟩ := Bool.and_eq_true_iff.mp both
      have narrow : v.size ≠ 2 := by
        intro wide
        simp [isByteCell, wide] at isByte
      have ok := readVariable_same (Scope.plain_of_found defined found) found ok
      rw [isConst_of_isByteCell isByte, Bool.false_and, if_neg Bool.false_ne_true, readScalar,
        if_neg narrow, (Table.of_getVariable? found).2, signed] at ok
      obtain ⟨high, _, ⟨⟩, ok⟩ := bind_inv ok
      rw [low] at ok
      cases ok
      exact ⟨rfl, .scalar found isByte signed⟩
    | _ => cases scalar
  | _ => cases scalar

theorem stands_of_isSmallConstant (defined : scope.symbols.Defined)
    (lengths : ∀ v ∈ scope.symbols.vars, 0 ≤ v.length) (low : c.high = false)
    (small : e.isSmallConstant scope.symbols = true)
    (ok : (lower e).value scope c = .ok place d) : d = c ∧ SignedStands scope.symbols e place := by
  obtain ⟨n, known, fits⟩ := (Option.any_eq_true _ _).mp small
  obtain ⟨range, lowest⟩ := Bool.and_eq_true_iff.mp fits
  obtain ⟨least, most⟩ := Bool.and_eq_true_iff.mp range
  obtain ⟨same, rfl⟩ := (Folds.of_constant known).rests defined lengths c place d ok
  refine ⟨same, .constant known (of_decide_eq_true least) (of_decide_eq_true most) ?_⟩
  rw [low]
  exact beq_iff_eq.mp lowest

end Operands

section Fragments

variable {w : Surroundings} {scope : Scope} {op : Op} {lhs rhs : Expr} {label : String}
  {negate : Bool} {c d : Context} {u : Unit}

theorem departs_of_signed (defined : scope.symbols.Defined) {name : String} {r : Place}
    (left : SignedStands scope.symbols lhs (.cell name true 0 true))
    (right : SignedStands scope.symbols rhs r) (compares : op.isCompare = true)
    (none : c.deferred = []) (low : c.high = false)
    (ok : Comparison.emit ⟨op, .cell name true 0 true, r⟩ label negate scope c = .ok u d) :
    ∃ code, d.code = c.code ++ code ∧ (label ∉ labelNames code →
      ∀ s, c.flags.Shown (testGround w defined) s → Departs w label
        (op.ordersBySign (lhs.signedNumber scope.symbols (bytesOf w scope.symbols s))
          (rhs.signedNumber scope.symbols (bytesOf w scope.symbols s)) != negate)
        s.Alike code s) := by
  have side : r.isRegister = false ∧ r.isReached scope.symbols = true ∧
      ∀ s, r.seen w scope.symbols s = r.byte w scope.symbols s := by
    cases right <;> exact ⟨rfl, rfl, fun _ => rfl⟩
  refine departs_of_answers (fun s => op.ordersBySign _ _)
    (fun s => c.flags.Shown (testGround w defined) s) (fun s => s.Alike) ?_ ok
  change Emits w scope c (Comparison.answer _ true) _
  have nothing (step : Deferred) (inside : step ∈ c.deferred) :
      step.isByteStep scope.symbols = true := by
    rw [none] at inside
    cases inside
  refine (emits_answerInOrder (G := testGround w defined) nothing low rfl side.2.1 side.1).mono ?_
  rintro op' d g ⟨rfl, -, tells, -⟩
  refine ⟨compares, fun s believed => ?_⟩
  obtain ⟨told, alike⟩ := tells s fun _ _ => believed
  rw [none] at told alike
  refine ⟨?_, alike⟩
  rw [left.value (w := w) defined s, right.value (w := w) defined s, ← side.2.2]
  exact told.shows.answersBy_sign compares

theorem constant?_of_isSignedScalar {table : Table} {e : Expr}
    (scalar : e.isSignedScalar table = true) : constant? table e = none := by
  cases e with
  | var name index =>
    cases index with
    | absent =>
      obtain ⟨v, found, both⟩ := (Option.any_eq_true _ _).mp scalar
      exact constantVariable?_eq_none found (isConst_of_isByteCell (Bool.and_eq_true_iff.mp both).1)
    | _ => cases scalar
  | _ => cases scalar

/--
The code of a comparison with a signed byte goes by the signed order of both sides, except that an
order comes out the other way round if a byte cannot hold the difference of the sides. The byte is
on the left of the difference if the other side is a constant.
-/
theorem comparison_departs_signed (defined : scope.symbols.Defined)
    (lengths : ∀ v ∈ scope.symbols.vars, 0 ≤ v.length) (compares : op.isCompare = true)
    (operands : lhs.isSignedScalar scope.symbols = true ∧
        (rhs.isSignedScalar scope.symbols || rhs.isSmallConstant scope.symbols) = true ∨
      lhs.isSmallConstant scope.symbols = true ∧ rhs.isSignedScalar scope.symbols = true)
    (none : c.deferred = []) :
    Ensures ((lower (.binary op lhs rhs)).test label negate) scope c fun _ d =>
      ∃ code, d.code = c.code ++ code ∧ (label ∉ labelNames code →
        ∀ s, c.flags.Shown (testGround w defined) s →
          let a := lhs.signedNumber scope.symbols (bytesOf w scope.symbols s)
          let b := rhs.signedNumber scope.symbols (bytesOf w scope.symbols s)
          let fits := if lhs.isSmallConstant scope.symbols then Op.fitsDifference b a
            else Op.fitsDifference a b
          Departs w label ((op.orders a b != (op.isOrder && !fits)) != negate) s.Alike code s) := by
  refine ensures_test fun _ d ok => ?_
  have unknown : constant? scope.symbols (.binary op lhs rhs) = .none := by
    refine constant?_compare compares ?_
    rcases operands with ⟨scalar, -⟩ | ⟨-, scalar⟩
    · exact .inl (constant?_of_isSignedScalar scalar)
    · exact .inr (constant?_of_isSignedScalar scalar)
  obtain ⟨⟨l, r⟩, between, e, values, compared, rfl⟩ :=
    compare_eq_ok (compare_of_test compares unknown ok)
  unfold compareValues at compared
  replace compared := check_eq_ok compared
  have stands {e : Expr} {place : Place} {d : Context}
      (operand : (e.isSignedScalar scope.symbols || e.isSmallConstant scope.symbols) = true)
      (ok : (lower e).value scope { c with high := false } = .ok place d) :
      d = { c with high := false } ∧ SignedStands scope.symbols e place := by
    rcases Bool.or_eq_true_iff.mp operand with scalar | small
    · exact stands_of_isSignedScalar defined rfl scalar ok
    · exact stands_of_isSmallConstant defined lengths rfl small ok
  have notAcc {e : Expr} {place : Place} (stands : SignedStands scope.symbols e place) :
      place.isAccumulator = false := by
    cases stands <;> rfl
  rcases operands with ⟨scalar, operand⟩ | ⟨small, scalar⟩
  · obtain ⟨rfl, left, right⟩ := bothValues_same (fun place d ok => by
        obtain ⟨same, stands⟩ := stands (by rw [scalar]; rfl) ok
        exact ⟨same, notAcc stands, stands⟩)
      (fun place d ok => stands operand ok) values
    have large : lhs.isSmallConstant scope.symbols = false := by
      rw [Expr.isSmallConstant, constant?_of_isSignedScalar scalar]
      rfl
    rw [large]
    cases left with
    | constant known => cases known.symm.trans (constant?_of_isSignedScalar scalar)
    | scalar found isByte signed =>
      obtain ⟨code, added, departs⟩ := departs_of_signed (w := w)
        (c := { c with high := false }) defined (.scalar found isByte signed) right
        compares none rfl compared
      exact ⟨code, added, departs⟩
  · obtain ⟨rfl, left, right⟩ := bothValues_same (fun place d ok => by
        obtain ⟨same, stands⟩ := stands (by rw [small, Bool.or_true]) ok
        exact ⟨same, notAcc stands, stands⟩)
      (fun place d ok => stands (by rw [scalar]; rfl) ok) values
    rw [small]
    cases right with
    | constant known => cases known.symm.trans (constant?_of_isSignedScalar scalar)
    | scalar found isByte signed =>
      cases left with
      | scalar found isByte =>
        have unknown := constantVariable?_eq_none found (isConst_of_isByteCell isByte)
        rw [Expr.isSmallConstant, constant?, unknown] at small
        cases small
      | constant known least most lowest =>
        obtain ⟨code, added, departs⟩ := departs_of_signed (w := w)
          (c := { c with high := false }) defined (.scalar found isByte signed)
          (.constant known least most lowest) (isCompare_swapped compares) none rfl compared
        refine ⟨code, added, fun outside s shown => ?_⟩
        have departs := departs outside s shown
        rw [Op.ordersBySign, Op.orders_swapped, Op.isOrder_swapped] at departs
        exact departs

end Fragments

def signedScope : Scope where
  symbols := { vars := [{ name := "k", size := 1, signed := true, isConst := true, value := -5 },
    { name := "s", size := 1, signed := true }, { name := "t", size := 1, signed := true }] }
  function := { name := "main" }

def signedPlaces : Surroundings where
  address
    | "s" => 0x200
    | "t" => 0x201
    | _ => 0x80
  verbatim _ _ := none
  call _ _ := none

/-- In `s` is -100 and in `t` is 100. -/
def signedStart : State where
  memory := (({} : Memory).write 0x200 156).write 0x201 100

theorem signedScope_defined : signedScope.symbols.Defined :=
  .of_entries rfl

/-- The comparison `k * 4 < t`, of -20 and 100. -/
def constantComparison : Expr :=
  .binary .lt (.binary .mul (.var "k" .absent) (.int 4)) (.var "t" .absent)

/-- The difference of 100 and -20 fits, and the code is left by a jump. -/
theorem constantComparison_departs :
    ∃ d line rest t, (lower constantComparison).test "out" false signedScope {} = .ok () d ∧
      Steps signedPlaces d.code ⟨d.code, signedStart⟩ ⟨line :: rest, t⟩ ∧
        line.flow signedPlaces t = .jump "out" ∧ signedStart.Alike t := by
  have ensures := @comparison_departs_signed signedPlaces signedScope .lt
    (.binary .mul (.var "k" .absent) (.int 4)) (.var "t" .absent) "out" false {}
    signedScope_defined (by decide +kernel) rfl (.inr (by decide +kernel)) rfl
  have goes : goesThrough ((lower constantComparison).test "out" false) signedScope {}
      (fun d => !(labelNames d.code).contains "out") = true := by
    decide +kernel
  obtain ⟨d, ran, outside, departs⟩ := ensures.exists_code rfl goes
  have departs := departs (by simpa using outside) signedStart trivial
  obtain ⟨line, rest, t, steps, leaves, -, alike⟩ := departs.jumps (by decide +kernel)
  exact ⟨d, line, rest, t, ran, steps, leaves, alike⟩

/-- The difference of -100 and 100 does not fit: the code of `s < t` is left past its end. -/
theorem overflowing_order_missed :
    ∃ d t, (lower (.binary .lt (.var "s" .absent) (.var "t" .absent))).test "out" false
        signedScope {} = .ok () d ∧
      Steps signedPlaces d.code ⟨d.code, signedStart⟩ ⟨[], t⟩ ∧
        Op.lt.orders ((Expr.var "s" .absent).signedNumber signedScope.symbols
            (bytesOf signedPlaces signedScope.symbols signedStart))
          ((Expr.var "t" .absent).signedNumber signedScope.symbols
            (bytesOf signedPlaces signedScope.symbols signedStart)) = true := by
  obtain ⟨_, d, t, ran, steps, -⟩ := @exists_run_of_goesThrough _
    ((lower (.binary .lt (.var "s" .absent) (.var "t" .absent))).test "out" false) signedPlaces
    signedScope {} signedStart (fun _ => true) 9 (by decide +kernel)
  refine ⟨d, t, ran, steps, ?_⟩
  decide +kernel

end Backend6502.Lowering
