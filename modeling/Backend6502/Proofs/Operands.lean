import Backend6502.Proofs.ByteExpressions

/-!
# Operands of comparisons

A register, an unsigned byte or a constant is compared where it stands. The code of a constant is
empty: its parts are combined while the code is made. What is left is an immediate value with the
same lowest byte, though not always the same number, since a shift by a whole byte drops the rest.
-/

namespace Backend6502.Lowering

open Code (Surroundings)
open Source (Op Expr Bytes isCell isByteCell)
open Symbols (Table Variable)

variable {op : Op} {n a b : Int64} {name : String} {c : Context} {G : Ground}
variable {table : Table} {v : Variable} {e : Expr}

section Constants

variable {w : Surroundings} {scope : Scope}
variable {lhs left right : Operand} {P Q : Place → Prop} {values : Place × Place} {d : Context}

/-- The step adds no code and leaves a constant with this lowest byte. -/
def Fixes (w : Surroundings) (scope : Scope) (m : Gen Place) (n : Int64) : Prop :=
  ∀ c, c.high = false → Emits w scope c m fun place d g =>
    d = c ∧ g = id ∧ ∃ k, place = .immediate k ∧ lowByte k = lowByte n

theorem fixes_int (n : Int64) : Fixes w scope (Operand.int n).value n :=
  fun _ _ => .pure ⟨rfl, rfl, n, rfl, rfl⟩

theorem fixes_arith {rhs : Operand} (isOp : op.isByteOp = true)
    (first : Fixes w scope lhs.value a) (second : Fixes w scope rhs.value b)
    (folded : fold op a b = .ok n) : Fixes w scope (arith op lhs rhs) n := by
  intro c low
  have values : Emits w scope c (bothValues lhs rhs) fun p d g => d = c ∧ g = id ∧
      ∃ k l, p = (.immediate k, .immediate l) ∧ lowByte k = lowByte a ∧ lowByte l = lowByte b := by
    refine .accInUse (.bind (first c low) ?_)
    rintro _ d _ ⟨same, rfl, k, rfl, sameA⟩
    cases same
    refine .ite nofun fun _ => .bind (second c low) ?_
    rintro _ d _ ⟨same, rfl, l, rfl, sameB⟩
    cases same
    exact .modify rfl (.pure ⟨rfl, rfl, k, l, rfl, sameA, sameB⟩)
  have checks (u : Unit) (d : Context)
      (ok : checkHighArith op lhs.expr rhs.expr scope c = .ok u d) : d = c ∧ True := by
    obtain ⟨high, _, ⟨⟩, ok⟩ := bind_inv ok
    rw [low] at ok
    cases ok
    exact ⟨rfl, trivial⟩
  refine .reading checks fun _ _ => .bind values ?_
  rintro _ d _ ⟨same, rfl, k, l, rfl, sameA, sameB⟩
  cases same
  dsimp only
  cases combined : fold op k l with
  | error => exact .fail
  | ok m =>
    refine .pure ⟨rfl, rfl, m, rfl, ?_⟩
    rw [lowByte_fold isOp combined, lowByte_fold isOp folded, sameA, sameB]

theorem fixes_shift {amount : Expr} {k : Int64} (known : constant? scope.symbols amount = some k)
    (least : 0 ≤ k) (most : k ≤ 8) (computes : Fixes w scope lhs.value a) :
    Fixes w scope (shift .shl lhs amount) (shiftLeft a k) := by
  intro c low
  have narrow : 0 ≤ k ∧ k < 64 := ⟨least, Int64.lt_of_le_of_lt most (by decide)⟩
  have reads (read : Option Int64) (d : Context)
      (ok : Lowering.constant amount scope c = .ok read d) : d = c ∧ read = some k := by
    cases ok
    exact ⟨rfl, known⟩
  refine .reading reads fun read same => ?_
  cases same
  rw [shiftLeft, if_pos narrow]
  refine .ite (fun whole => .ite (fun _ => .inHigh ?_) fun other => absurd rfl other) fun _ => ?_
  · rw [low, if_neg Bool.false_ne_true]
    refine .pure ⟨rfl, rfl, 0, rfl, ?_⟩
    rw [lowByte_shiftLeft a least most, whole]
    exact (doubled_byte (lowByte a)).symm
  · unfold shiftBits
    refine .check fun _ => ?_
    refine .accInUse (.bind (computes c low) ?_)
    rintro _ d _ ⟨same, rfl, m, rfl, lowest⟩
    cases same
    refine .pure ⟨rfl, rfl, _, rfl, ?_⟩
    change lowByte (shiftLeft m k) = _
    rw [shiftLeft, if_pos narrow, lowByte_shiftLeft m least most, lowByte_shiftLeft a least most,
      lowest]

/-- Two operands that need no code are found one after the other; each may put off steps. -/
theorem bothValues_deferring {between after : List Deferred}
    (first : ∀ place d, left.value scope c = .ok place d →
      d = { c with deferred := between } ∧ place.isAccumulator = false ∧ P place)
    (second : ∀ place d, right.value scope { c with deferred := between } = .ok place d →
      d = { c with deferred := after } ∧ Q place)
    (ok : bothValues left right scope c = .ok values d) :
    d = { c with deferred := after } ∧ P values.1 ∧ Q values.2 := by
  obtain ⟨outer, _, ⟨⟩, ok⟩ := bind_inv ok
  obtain ⟨l, _, begins, ok⟩ := bind_inv ok
  obtain ⟨rfl, notAcc, isLeft⟩ := first _ _ begins
  rw [notAcc, if_neg Bool.false_ne_true] at ok
  obtain ⟨r, _, ends, ok⟩ := bind_inv ok
  obtain ⟨rfl, isRight⟩ := second _ _ ends
  cases ok
  exact ⟨rfl, isLeft, isRight⟩

theorem bothValues_same (first : ∀ place d, left.value scope c = .ok place d →
      d = c ∧ place.isAccumulator = false ∧ P place)
    (second : ∀ place d, right.value scope c = .ok place d → d = c ∧ Q place)
    (ok : bothValues left right scope c = .ok values d) : d = c ∧ P values.1 ∧ Q values.2 :=
  bothValues_deferring first second ok

end Constants

/-- A constant that is made of two by an operation. -/
theorem constant?_binary {l r : Expr} (plain : op ≠ .choice)
    (fixed : constant? table (.binary op l r) = some n) :
    ∃ a b, constant? table l = some a ∧ constant? table r = some b ∧
      (fold op a b).toOption = some n := by
  rw [constant?] at fixed
  · split at fixed
    · cases fixed
    · split at fixed
      · next a b left right => exact ⟨a, b, left, right, fixed⟩
      · cases fixed
  · exact fun _ _ _ isChoice => absurd isChoice plain

theorem fold_eq_ok (folded : (fold op a b).toOption = some n) :
    fold op a b = .ok n := by
  cases combined : fold op a b with
  | error =>
    rw [combined] at folded
    cases folded
  | ok m =>
    rw [combined] at folded
    cases folded
    rfl

section Terms

theorem constantVariable?_eq_some
    (fixed : constantVariable? G.table name = some n) :
    isRegisterName name = false ∧ ∃ v, G.table.getVariable? name = some v ∧ v.isConst = true ∧
      v.value = n := by
  unfold constantVariable? at fixed
  cases found : G.table.getVariable? name with
  | none =>
    rw [found] at fixed
    cases fixed
  | some v =>
    rw [found] at fixed
    dsimp only at fixed
    split at fixed
    · next both =>
      cases fixed
      exact ⟨G.plain_of_found found, v, rfl, (Bool.and_eq_true_iff.mp both).1, rfl⟩
    · cases fixed

/-- The code of a constant leaves a number with the lowest byte of what the constant counts as. -/
theorem fixes_lower : ∀ {e : Expr} {n : Int64}, e.isTerm G.table = true →
    constant? G.table e = some n →
      Fixes G.w G.scope (lower e).value n ∧ ∀ β, e.asNumber G.table β = n
  | .int _, _, _, fixed => by
      cases fixed
      exact ⟨fixes_int _, fun _ => rfl⟩
  | .var name .absent, n, isTerm, fixed => by
      obtain ⟨plain, v, found, isConst, rfl⟩ := constantVariable?_eq_some fixed
      obtain ⟨notX, notY⟩ := Names.ne_of_plain plain
      refine ⟨fun c low => ?_, fun β => ?_⟩
      · refine (emits_readVariable isTerm low).mono fun place d g ⟨same, nothing, names⟩ => ?_
        refine ⟨same, nothing, ?_⟩
        cases names with
        | x | y => cases plain
        | constant _ again _ =>
          cases found.symm.trans again
          exact ⟨v.value, rfl, rfl⟩
        | cell _ again isByte =>
          cases found.symm.trans again
          simp [isByteCell, isConst] at isByte
      · simp [Expr.asNumber, Bytes.scalar, notX, notY, found, isConst]
  | .binary op l r, n, isTerm, fixed => by
      have plain : op ≠ .choice := by
        rintro rfl
        cases isTerm
      obtain ⟨a, b, left, right, folded⟩ := constant?_binary plain fixed
      rcases isTerm_binary isTerm with
        ⟨rfl, isLeft, k, known, least, most⟩ | ⟨isOp, isLeft, isRight⟩
      · obtain rfl := Option.some.inj (known.symm.trans right)
        cases folded
        obtain ⟨computes, same⟩ := fixes_lower isLeft left
        have shifts : Fixes G.w G.scope (shift .shl (lower l).toOperand (lower r).expr) _ :=
          fixes_shift (by rw [expr_lower]; exact known) least most computes
        refine ⟨shifts, fun β => ?_⟩
        rw [Expr.asNumber, same, Expr.fixed, known, shiftLeft,
          if_pos ⟨least, Int64.lt_of_le_of_lt most (by decide)⟩]
        rfl
      · obtain ⟨first, sameFirst⟩ := fixes_lower isLeft left
        obtain ⟨second, sameSecond⟩ := fixes_lower isRight right
        have combines := fixes_arith isOp first second (fold_eq_ok folded)
        cases op with
        | add | sub | and | or | xor =>
          cases folded
          exact ⟨combines, fun β => by simp [Expr.asNumber, sameFirst, sameSecond, Op.onNumbers]⟩
        | _ => cases isOp
  | .unary op e, n, isTerm, fixed => by
      obtain ⟨isOp, isOperand⟩ := Bool.and_eq_true_iff.mp isTerm
      cases inner : constant? G.table e with
      | none =>
        rw [constant?, inner] at fixed
        cases fixed
      | some a =>
        rw [constant?, inner] at fixed
        obtain ⟨computes, same⟩ := fixes_lower isOperand inner
        cases op with
        | neg =>
          cases fixed
          have combines : Fixes G.w G.scope (arith .sub (.int 0) (lower e).toOperand) _ :=
            fixes_arith rfl (fixes_int 0) computes rfl
          rw [Int64.zero_sub] at combines
          exact ⟨combines, fun β => congrArg (- ·) (same β)⟩
        | bitNot =>
          cases fixed
          have combines : Fixes G.w G.scope (arith .xor (lower e).toOperand (.int (-1))) _ :=
            fixes_arith rfl computes (fixes_int (-1)) rfl
          rw [Int64.xor_neg_one] at combines
          exact ⟨combines, fun β => congrArg (~~~ ·) (same β)⟩
        | _ => cases isOp

end Terms

/-- The place that an operand of a comparison stands for. -/
structure Stands (G : Ground) (e : Expr) (place : Place) : Prop where
  isByte : place.IsByte G
  notAcc : place.isAccumulator = false
  notScratch : place.isScratch = false
  unsigned : place.signed = false
  value : ∀ s, place.byte G.w G.table s = lowByte (e.asNumber G.table (bytesOf G.w G.table s))
  fixed : ∀ n, place = .immediate n → ∃ k, constant? G.table e = some k

theorem constantVariable?_eq_none (found : table.getVariable? name = some v)
    (varies : v.isConst = false) : constantVariable? table name = none := by
  simp [constantVariable?, found, varies]

theorem isConst_of_isByteCell (byte : isByteCell v = true) : v.isConst = false := by
  unfold isByteCell at byte
  simpa using (Bool.and_eq_true_iff.mp byte).2

/-- A name that is read as an unsigned byte stands for a register or for a byte variable. -/
theorem Names.stands {place : Place} (names : Names G.table name place)
    (known : (Expr.var name .absent).isUnsignedByte G.table = true)
    (reads : isCell G.table name = true → G.cells name 0) : Stands G (.var name .absent) place := by
  rw [Expr.isUnsignedByte] at known
  have kind : place.signed = false ∧ ∀ n, place ≠ .immediate n := by
    cases names with
    | x | y => exact ⟨rfl, nofun⟩
    | constant plain found fixed =>
      rw [plain, found, Option.any_some, Bool.false_or] at known
      obtain ⟨byte, -⟩ := Bool.and_eq_true_iff.mp known
      cases (isConst_of_isByteCell byte).symm.trans fixed
    | cell plain found isByte =>
      rw [plain, found, Option.any_some, Bool.false_or] at known
      obtain ⟨-, unsigned⟩ := Bool.and_eq_true_iff.mp known
      exact ⟨by simpa [Place.signed] using unsigned, nofun⟩
  exact ⟨names.isByte reads, names.notAcc, names.notScratch, kind.1, names.byte_eq G.w,
    fun n same => absurd same (kind.2 n)⟩

theorem exists_name_of_isUnsignedByte (known : e.isUnsignedByte table = true) :
    ∃ name, e = .var name .absent := by
  cases e with
  | var name index =>
    cases index with
    | absent => exact ⟨name, rfl⟩
    | _ => cases known
  | _ => cases known

section

variable (known : (Expr.var name .absent).isUnsignedByte table = true)

include known

theorem isByteTarget_of_isUnsignedByte : Expr.isByteTarget table name = true := by
  rw [Expr.isUnsignedByte] at known
  rw [Expr.isByteTarget, isCell]
  rcases Bool.or_eq_true_iff.mp known with register | unsigned
  · rw [register]
    rfl
  · obtain ⟨v, found, holds⟩ := (Option.any_eq_true _ _).mp unsigned
    have isByte : (table.getVariable? name).any isByteCell = true :=
      (Option.any_eq_true _ _).mpr ⟨v, found, (Bool.and_eq_true_iff.mp holds).1⟩
    rw [isByte, Bool.or_true]

theorem isByteName_of_isUnsignedByte : Expr.isByteName table name = true := by
  have target := isByteTarget_of_isUnsignedByte known
  rw [Expr.isByteTarget] at target
  rw [Expr.isByteName, target]
  rfl

end

/-- Operands of comparisons are found where they are. -/
theorem emits_operand (known : e.isOperand G.table = true)
    (reads : ∀ p ∈ e.cells G.table, G.cells p.1 p.2) (low : c.high = false) :
    Emits G.w G.scope c (lower e).value fun place d g => d = c ∧ g = id ∧ Stands G e place := by
  rcases Bool.or_eq_true_iff.mp known with byte | both
  · obtain ⟨name, rfl⟩ := exists_name_of_isUnsignedByte byte
    refine (emits_readVariable (isByteName_of_isUnsignedByte byte) low).mono ?_
    rintro place d g ⟨same, nothing, names⟩
    refine ⟨same, nothing, names.stands byte fun cell => reads (name, 0) ?_⟩
    rw [Expr.cells, cell]
    exact List.mem_singleton_self _
  · obtain ⟨isSome, isTerm⟩ := Bool.and_eq_true_iff.mp both
    obtain ⟨n, fixed⟩ := Option.isSome_iff_exists.mp isSome
    obtain ⟨fixes, counts⟩ := fixes_lower isTerm fixed
    refine (fixes c low).mono ?_
    rintro _ d g ⟨same, nothing, k, rfl, lowest⟩
    refine ⟨same, nothing, trivial, rfl, rfl, rfl, fun s => ?_, fun _ _ => ⟨n, fixed⟩⟩
    rw [counts]
    exact lowest

end Backend6502.Lowering
