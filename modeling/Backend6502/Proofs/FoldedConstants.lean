import Backend6502.Proofs.Comparisons
import Backend6502.Proofs.WordUpdates

/-!
# Constants that are stored

An expression of constants has one value where it is a condition, the amount of a shift or the
length of a pause. Where it is stored it is folded once more, in each pass over the bytes of the
variable. The passes fold as the value is found, but for a shift by a whole byte: it leaves zero in
the pass for low bytes and its operand, unshifted, in the pass for high bytes. So the value is
stored if no byte moves up, and need not be if one does.
-/

namespace Backend6502.Source

open Cpu (byteOf wordOf)
open Lowering (constant? fold foldUnary? lowByte shiftLeft shiftRight truth)
open Symbols (Table)

/-- Is the outcome of the operator a truth value, which is found by a test? -/
def Op.isTested (op : Op) : Bool :=
  op.isCompare || op == .logAnd || op == .logOr

namespace Expr

/-- The number that a constant is folded to in a pass. -/
def folded (table : Table) (high : Bool) : Expr → Int64
  | .unary .neg e => -e.folded table high
  | .unary .bitNot e => ~~~ e.folded table high
  | .binary .choice cond (.binary _ a b) =>
    if cond.fixed table ≠ 0 then a.folded table high else b.folded table high
  | .binary .shl l amount =>
    if amount.fixed table ≠ 8 then shiftLeft (l.folded table high) (amount.fixed table)
    else if high then l.folded table false
    else 0
  | .binary .shr l amount => shiftRight (l.folded table high) (amount.fixed table)
  | .binary op l r =>
    if op.isTested then (binary op l r).fixed table
    else (fold op (l.folded table high) (r.folded table high)).toOption.getD 0
  | e => e.fixed table

/-- The word that the passes store for a constant. -/
def foldedWord (table : Table) (e : Expr) : UInt16 :=
  wordOf (byteOf false (lowWord (e.folded table false)))
    (byteOf true (lowWord (e.folded table true)))

/-- Does no shift by a whole byte stand where the passes fold? -/
def isLevel (table : Table) : Expr → Bool
  | .unary .neg e | .unary .bitNot e => e.isLevel table
  | .binary .choice cond (.binary _ a b) =>
    if cond.fixed table ≠ 0 then a.isLevel table else b.isLevel table
  | .binary .shl l amount => amount.fixed table != 8 && l.isLevel table
  | .binary .shr l _ => l.isLevel table
  | .binary op l r => op.isTested || (l.isLevel table && r.isLevel table)
  | _ => true

theorem fixed_of_constant {table : Table} {e : Expr} {n : Int64}
    (known : constant? table e = some n) : e.fixed table = n := by
  rw [fixed, known]
  rfl

end Expr

end Backend6502.Source

namespace Backend6502.Lowering

open Code (Surroundings Steps)
open Cpu (State byteOf)
open Source (Op Expr Loc)
open Symbols (Table Variable)

/-- Is it an operator whose operands are folded both, and then combined? -/
def isCombined (op : Op) : Bool :=
  (fold op 1 1).isOk && !op.isTested && op != .shl && op != .shr

/-- How an expression comes to be constant. -/
inductive Folds (table : Table) : Expr → Int64 → Prop where
  | int (n : Int64) : Folds table (.int n) n
  | named {name : String} {n : Int64} (known : constantVariable? table name = some n) :
      Folds table (.var name .absent) n
  | neg {e : Expr} {m : Int64} (inner : Folds table e m) : Folds table (.unary .neg e) (-m)
  | bitNot {e : Expr} {m : Int64} (inner : Folds table e m) : Folds table (.unary .bitNot e) (~~~ m)
  | not {e : Expr} {m : Int64} (known : constant? table e = some m) :
      Folds table (.unary .not e) (truth (m == 0))
  | test {op : Op} {l r : Expr} {b : Bool} (tested : op.isTested = true)
      (known : constant? table (.binary op l r) = some (truth b)) :
      Folds table (.binary op l r) (truth b)
  | choose {o : Op} {cond a b : Expr} {k n : Int64} (known : constant? table cond = some k)
      (arm : Folds table (if k ≠ 0 then a else b) n) :
      Folds table (.binary .choice cond (.binary o a b)) n
  | shl {l amount : Expr} {a k : Int64} (left : Folds table l a)
      (known : constant? table amount = some k) :
      Folds table (.binary .shl l amount) (shiftLeft a k)
  | shr {l amount : Expr} {a k : Int64} (left : Folds table l a)
      (known : constant? table amount = some k) :
      Folds table (.binary .shr l amount) (shiftRight a k)
  | combine {op : Op} {l r : Expr} {a b n : Int64} (combined : isCombined op = true)
      (left : Folds table l a) (right : Folds table r b) (outcome : fold op a b = .ok n) :
      Folds table (.binary op l r) n

section Values

variable {table : Table} {op : Op} {e cond l r : Expr} {n : Int64}

theorem constant?_unary (known : constant? table (.unary op e) = some n) :
    ∃ m, constant? table e = some m ∧ foldUnary? op m = some n := by
  rw [constant?] at known
  cases inner : constant? table e with
  | none =>
    rw [inner] at known
    cases known
  | some m =>
    rw [inner] at known
    exact ⟨m, rfl, known⟩

theorem constant?_choice (known : constant? table (.binary .choice cond r) = some n) :
    ∃ o a b k, r = .binary o a b ∧ constant? table cond = some k ∧
      constant? table (if k ≠ 0 then a else b) = some n := by
  cases r with
  | binary o a b =>
    rw [constant?] at known
    cases inner : constant? table cond with
    | none =>
      rw [inner] at known
      cases known
    | some k =>
      rw [inner] at known
      refine ⟨o, a, b, k, rfl, rfl, ?_⟩
      rw [apply_ite (constant? table)]
      exact known
  | _ => cases known

theorem Folds.of_constant : ∀ {e : Expr} {n : Int64}, constant? table e = some n → Folds table e n
  | .int n, _, known => by
      cases known
      exact .int n
  | .var name .absent, _, known => .named known
  | .unary op e, n, known => by
      obtain ⟨m, inner, unary⟩ := constant?_unary known
      cases op with
      | neg =>
        cases unary
        exact .neg (.of_constant inner)
      | bitNot =>
        cases unary
        exact .bitNot (.of_constant inner)
      | not =>
        cases unary
        exact .not inner
      | _ => cases unary
  | .binary op l r, n, known => by
      by_cases isChoice : op = .choice
      · cases isChoice
        cases r with
        | binary o a b =>
          obtain ⟨o, a, b, k, same, decides, arm⟩ := constant?_choice known
          cases same
          refine .choose decides ?_
          split at arm
          · next holds =>
            rw [if_pos holds]
            exact .of_constant arm
          · next fails =>
            rw [if_neg fails]
            exact .of_constant arm
        | _ => cases known
      · obtain ⟨a, b, left, right, outcome⟩ := constant?_binary isChoice known
        have outcome := fold_eq_ok outcome
        cases op with
        | choice => exact absurd rfl isChoice
        | shl =>
          cases outcome
          exact .shl (.of_constant left) right
        | shr =>
          cases outcome
          exact .shr (.of_constant left) right
        | lt | gt | le | ge | eq | ne | logAnd | logOr =>
          cases outcome
          exact .test rfl known
        | add | sub | mul | div | mod | and | or | xor =>
          exact .combine rfl (.of_constant left) (.of_constant right) outcome
        | _ => cases outcome

theorem folded_combined {high : Bool} (combined : isCombined op = true) :
    (Expr.binary op l r).folded table high =
      (fold op (l.folded table high) (r.folded table high)).toOption.getD 0 := by
  cases op <;> first | rfl | cases combined

theorem isLevel_combined (combined : isCombined op = true)
    (level : (Expr.binary op l r).isLevel table = true) :
    l.isLevel table = true ∧ r.isLevel table = true := by
  cases op <;> first | exact Bool.and_eq_true_iff.mp level | cases combined

theorem folded_tested {high : Bool} (tested : op.isTested = true) :
    (Expr.binary op l r).folded table high = (Expr.binary op l r).fixed table := by
  cases op <;> first | rfl | cases tested

/-- If no byte moves up, a constant is folded to its value in both passes. -/
theorem Folds.folded_of_isLevel (folds : Folds table e n) (level : e.isLevel table = true)
    (high : Bool) : e.folded table high = n := by
  induction folds with
  | int => rfl
  | named known => exact Expr.fixed_of_constant known
  | neg inner ih => exact congrArg (- ·) (ih level)
  | bitNot inner ih => exact congrArg (~~~ ·) (ih level)
  | not known =>
    refine Expr.fixed_of_constant ?_
    rw [constant?, known]
    rfl
  | test tested known =>
    rw [folded_tested tested]
    exact Expr.fixed_of_constant known
  | choose known arm ih =>
    rw [Expr.isLevel, Expr.fixed_of_constant known, ← apply_ite (Expr.isLevel table)] at level
    rw [Expr.folded, Expr.fixed_of_constant known, ← apply_ite (Expr.folded table high)]
    exact ih level
  | shl left known ih =>
    obtain ⟨stays, level⟩ := Bool.and_eq_true_iff.mp level
    rw [Expr.fixed_of_constant known, bne_iff_ne] at stays
    rw [Expr.folded, Expr.fixed_of_constant known, if_pos stays, ih level]
  | shr left known ih =>
    rw [Expr.folded, Expr.fixed_of_constant known, ih level]
  | combine combined left right outcome ihl ihr =>
    obtain ⟨levelL, levelR⟩ := isLevel_combined combined level
    rw [folded_combined combined, ihl levelL, ihr levelR, outcome]
    rfl

/-- A constant is no variable of 16 bits. -/
theorem Folds.narrow (folds : Folds table e n) : wideVariable? table e = none := by
  cases folds with
  | @named name n known =>
    unfold constantVariable? at known
    cases found : table.getVariable? name with
    | none => simp [wideVariable?, found]
    | some v =>
      rw [found] at known
      dsimp only at known
      split at known
      · next both => simp [wideVariable?, found, (Bool.and_eq_true_iff.mp both).1]
      · cases known
  | _ => rfl

end Values

section Passes

variable {scope : Scope} {op : Op} {e : Expr} {n k : Int64} {lhs rhs : Operand} {a b : Bool → Int64}

theorem rests_int (n : Int64) : Rests scope (Operand.int n).value fun _ => .immediate n := by
  intro c place d ok
  cases ok
  exact ⟨rfl, rfl⟩

/-- Two constants are combined as the pass finds them. -/
theorem rests_arith (first : Rests scope lhs.value fun high => .immediate (a high))
    (second : Rests scope rhs.value fun high => .immediate (b high)) :
    Rests scope (arith op lhs rhs) fun high =>
      .immediate ((fold op (a high) (b high)).toOption.getD 0) := by
  intro c place d ok
  obtain ⟨_, _, checks, ok⟩ := bind_inv ok
  cases checkHighArith_same checks
  obtain ⟨p, _, values, ok⟩ := bind_inv ok
  obtain ⟨same, rfl⟩ := bothValues_rests first second rfl values
  cases same
  dsimp only at ok ⊢
  cases outcome : fold op (a c.high) (b c.high) with
  | error =>
    rw [outcome] at ok
    cases ok
  | ok m =>
    rw [outcome] at ok
    cases ok
    exact ⟨rfl, rfl⟩

theorem rests_truthValue {cond : Expr} (test : Test) (negate : Bool)
    (known : constant? scope.symbols cond = some k) :
    Rests scope (truthValue cond test negate) fun _ => .immediate (truth ((k != 0) != negate)) := by
  intro c place d ok
  obtain ⟨read, _, ⟨⟩, ok⟩ := bind_inv ok
  rw [known] at ok
  cases ok
  exact ⟨rfl, rfl⟩

section

variable (left : Rests scope lhs.value fun high => .immediate (a high))

include left

theorem rests_shiftBits : Rests scope (shiftBits op lhs k) fun high =>
      .immediate ((fold op (a high) k).toOption.getD 0) := by
  intro c place d ok
  unfold shiftBits at ok
  have ok := check_eq_ok ok
  obtain ⟨outer, _, ⟨⟩, ok⟩ := bind_inv ok
  obtain ⟨l, _, value, ok⟩ := bind_inv ok
  obtain ⟨same, rfl⟩ := left _ _ _ value
  cases same
  cases ok
  exact ⟨rfl, rfl⟩

/-- A byte that moves up leaves zero behind, and is not shifted where it arrives. -/
theorem rests_shiftByteLeft :
    Rests scope (shiftByteLeft lhs) fun high => .immediate (if high then a false else 0) := by
  intro c place d ok
  obtain ⟨high, _, ⟨⟩, ok⟩ := bind_inv ok
  cases isHigh : c.high with
  | false =>
    rw [isHigh] at ok
    cases ok
    exact ⟨rfl, rfl⟩
  | true =>
    rw [isHigh] at ok
    obtain ⟨e, value, rfl⟩ := withHigh_eq_ok ok
    obtain ⟨same, rfl⟩ := left _ _ _ value
    cases same
    exact ⟨rfl, rfl⟩

theorem rests_shl {amount : Expr} (known : constant? scope.symbols amount = some k) :
    Rests scope (shift .shl lhs amount) fun high =>
      .immediate (if k ≠ 8 then shiftLeft (a high) k else if high then a false else 0) := by
  intro c place d ok
  obtain ⟨read, _, ⟨⟩, ok⟩ := bind_inv ok
  rw [known] at ok
  dsimp only at ok ⊢
  by_cases whole : k = 8
  · rw [if_neg (not_not_intro whole)]
    rw [if_pos whole] at ok
    exact rests_shiftByteLeft left c place d ok
  · rw [if_pos whole]
    rw [if_neg whole] at ok
    exact rests_shiftBits left c place d ok

theorem rests_shr {amount : Expr} (narrow : wideVariable? scope.symbols lhs.expr = none)
    (known : constant? scope.symbols amount = some k) :
    Rests scope (shift .shr lhs amount) fun high => .immediate (shiftRight (a high) k) := by
  intro c place d ok
  obtain ⟨read, _, ⟨⟩, ok⟩ := bind_inv ok
  rw [known] at ok
  have shifts : shiftBits .shr lhs k scope c = .ok place d := by
    dsimp only at ok
    split at ok
    · next whole =>
      obtain ⟨table, _, ⟨⟩, ok⟩ := bind_inv ok
      rw [narrow] at ok
      rw [whole]
      exact ok
    · exact ok
  exact rests_shiftBits left c place d shifts

end

theorem rests_constantVariable {name : String} (defined : scope.symbols.Defined)
    (lengths : ∀ v ∈ scope.symbols.vars, 0 ≤ v.length)
    (known : constantVariable? scope.symbols name = some n) :
    Rests scope (readVariable name .absent) fun _ => .immediate n := by
  intro c place d ok
  unfold constantVariable? at known
  cases found : scope.symbols.getVariable? name with
  | none =>
    rw [found] at known
    cases known
  | some v =>
    rw [found] at known
    dsimp only at known
    split at known
    · next both =>
      obtain ⟨isConst, short⟩ := Bool.and_eq_true_iff.mp both
      have least := lengths v (Table.of_getVariable? found).1
      have short : ¬0 < v.length := by simpa using short
      have single : v.length = 0 := Int64.le_antisymm (Int64.not_lt.mp short) least
      have ok := readVariable_same (Scope.plain_of_found defined found) found ok
      rw [isConst, single] at ok
      cases known
      cases ok
      exact ⟨rfl, rfl⟩
    · cases known

theorem arms_lowerBinary (op : Op) (l r : Lowered) :
    (lowerBinary op l r).arms = if op = .arms then some (l.value, r.value) else none := by
  cases op <;> rfl

/-- The code of a constant is empty in both passes. -/
theorem Folds.rests (defined : scope.symbols.Defined)
    (lengths : ∀ v ∈ scope.symbols.vars, 0 ≤ v.length) (folds : Folds scope.symbols e n) :
    Rests scope (lower e).value fun high => .immediate (e.folded scope.symbols high) := by
  induction folds with
  | int n => exact rests_int n
  | named known =>
    have rests := rests_constantVariable defined lengths known
    rw [← Expr.fixed_of_constant (e := .var _ .absent) known] at rests
    exact rests
  | @neg e m inner ih =>
    intro c place d ok
    obtain ⟨same, rfl⟩ := rests_arith (rests_int 0) ih c place d ok
    exact ⟨same, congrArg Place.immediate (Int64.zero_sub _)⟩
  | bitNot inner ih =>
    intro c place d ok
    obtain ⟨same, rfl⟩ := rests_arith ih (rests_int (-1)) c place d ok
    exact ⟨same, congrArg Place.immediate Int64.xor_neg_one⟩
  | @not e m known =>
    intro c place d ok
    have known' : constant? scope.symbols (lower e).expr = some m := by
      rw [expr_lower]
      exact known
    obtain ⟨same, rfl⟩ := rests_truthValue (lower e).test true known' c place d ok
    refine ⟨same, congrArg Place.immediate ?_⟩
    have value : (Expr.unary .not e).fixed scope.symbols = truth (m == 0) :=
      Expr.fixed_of_constant (by rw [constant?, known]; rfl)
    change truth ((!(m == 0)) != true) = (Expr.unary .not e).fixed scope.symbols
    rw [value]
    cases m == 0 <;> rfl
  | @test op l r b tested known =>
    intro c place d ok
    have known' : constant? scope.symbols (.binary op (lower l).expr (lower r).expr) =
        some (truth b) := by
      rw [expr_lower, expr_lower]
      exact known
    have value : ∃ test, (lower (.binary op l r)).value =
        truthValue (.binary op (lower l).expr (lower r).expr) test false := by
      cases op <;> first | exact ⟨_, rfl⟩ | cases tested
    obtain ⟨test, value⟩ := value
    rw [value] at ok
    obtain ⟨same, rfl⟩ := rests_truthValue test false known' c place d ok
    refine ⟨same, congrArg Place.immediate ?_⟩
    rw [folded_tested tested, Expr.fixed_of_constant known]
    cases b <;> rfl
  | @choose o cond a b k n known arm ih =>
    intro c place d ok
    have ok : chooseArms (lower cond) (lowerBinary o (lower a) (lower b)).arms scope c =
      .ok place d := ok
    rw [arms_lowerBinary] at ok
    split at ok
    · obtain ⟨read, _, reads, ok⟩ := bind_inv ok
      cases reads
      rw [expr_lower, known] at ok
      dsimp only
      rw [Expr.folded, Expr.fixed_of_constant known, ← apply_ite (Expr.folded _ c.high)]
      refine ih c place d ?_
      by_cases holds : k = 0
      · cases holds
        exact ok
      · dsimp only at ok
        rw [if_pos (by simpa using holds)] at ok
        rw [if_pos holds]
        exact ok
    · cases ok
  | @shl l amount a k left known ih =>
    have rests : Rests scope (shift .shl (lower l).toOperand (lower amount).expr) _ :=
      rests_shl ih (by rw [expr_lower]; exact known)
    rw [← Expr.fixed_of_constant known] at rests
    exact rests
  | @shr l amount a k left known ih =>
    have rests : Rests scope (shift .shr (lower l).toOperand (lower amount).expr) _ :=
      rests_shr ih (by rw [expr_lower]; exact left.narrow) (by rw [expr_lower]; exact known)
    rw [← Expr.fixed_of_constant known] at rests
    exact rests
  | @combine op l r a b n combined left right outcome ihl ihr =>
    intro c place d ok
    have value : (lower (.binary op l r)).value =
        arith op (lower l).toOperand (lower r).toOperand := by
      cases op <;> first | rfl | cases combined
    rw [value] at ok
    dsimp only
    rw [folded_combined combined]
    exact rests_arith ihl ihr c place d ok

end Passes

section Storing

variable {w : Surroundings} {scope : Scope} {c : Context} {name : String} {v : Variable}
  {m : Gen Place} {n : Bool → Int64}

variable (defined : scope.symbols.Defined) (found : scope.symbols.getVariable? name = some v)
  (varies : v.isConst = false)

include defined found varies

section

variable (fits : v.size = 2 ∨ c.high = false)

include fits

/-- A byte has no high byte to write, a word has one. -/
theorem target_cell {place : Place} {d : Context}
    (ok : target (.var name .absent) scope c = .ok place d) :
    d = c ∧ ∃ is8Bit, place = .cell name is8Bit (if c.high then 1 else 0) v.signed := by
  by_cases size : v.size = 2
  · have wide : wideVariable? scope.symbols (.var name .absent) = some v := by
      simp [wideVariable?, found, size, varies]
    obtain ⟨same, place⟩ := target_same defined wide ok
    exact ⟨same, false, place⟩
  · have low := fits.resolve_left size
    obtain ⟨_, _, checks, ok⟩ := bind_inv ok
    cases checkWritable_same checks
    obtain ⟨isWide, _, ⟨⟩, ok⟩ := bind_inv ok
    have narrow : wideVariable? scope.symbols (.var name .absent) = none := by
      simp [wideVariable?, found, size]
    rw [narrow] at ok
    obtain ⟨e, read, rfl⟩ := withHigh_eq_ok ok
    have read := readVariable_same (Scope.plain_of_found defined found) found read
    rw [varies, Bool.false_and, if_neg Bool.false_ne_true, readScalar, if_neg size] at read
    cases read
    rw [(Table.of_getVariable? found).2, low]
    exact ⟨by rw [← low], true, rfl⟩

theorem emits_storeConstant (free : c.accInUse = false)
    (rests : Rests scope m fun high => .immediate (n high)) :
    Emits w scope c (storeValue (.var name .absent) m) fun _ d g => Passed c d ∧ ∀ s : State,
      (s.write (cellAddress w scope.symbols name (if c.high then 1 else 0))
        (byteOf c.high (Source.lowWord (n c.high)))).Alike (g s) := by
  refine .accInUse (.reading (rests c) fun value same => ?_)
  cases same
  refine .reading (fun _ _ => shelter_same) fun value same => ?_
  cases same
  refine .reading (fun _ _ => target_cell defined found varies fits) ?_
  rintro place ⟨is8Bit, rfl⟩
  refine .bind (emits_storePlace rfl rfl rfl fun _ => free) ?_
  rintro _ d g ⟨passed, stores⟩
  refine .modify rfl (.pure ⟨⟨passed.high, rfl, passed.deferred⟩, fun s => ?_⟩)
  rw [← Place.part_immediate]
  exact (stores s).1

end

variable {lhs rhs : Operand} (var : lhs.expr = .var name .absent)
  (rests : Rests scope rhs.value fun high => .immediate (n high))

include var rests

theorem emits_assignConstant (size : v.size = 1) (low : c.high = false)
    (free : c.accInUse = false) :
    Emits w scope c (assign .assign lhs rhs) fun _ d g => d.high = false ∧
      d.deferred = c.deferred ∧ ∀ s : State,
        (s.write (cellAddress w scope.symbols name 0) (lowByte (n false))).Alike (g s) := by
  refine emits_assignNarrow (by simp [var, wideVariable?, found, size]) low ?_
  unfold assignByte
  rw [var]
  refine (emits_storeConstant defined found varies (.inr low) free rests).mono ?_
  rintro _ d g ⟨passed, stores⟩
  refine ⟨passed.high.trans low, passed.deferred, fun s => ?_⟩
  have stores := stores s
  rw [low, Source.byteOf_lowWord] at stores
  exact stores

/-- One of the passes in which a constant is stored. -/
theorem emits_constantPass (high : Bool) (size : v.size = 2) :
    Emits w scope c (assignPass high false .assign lhs rhs) fun _ d g =>
      d.deferred = c.deferred ∧ ∀ s : State,
        (s.write (cellAddress w scope.symbols name (if high then 1 else 0))
          (byteOf high (Source.lowWord (n high)))).Alike (g s) := by
  refine .modify rfl (.modify rfl ?_)
  unfold assignByte
  rw [var]
  refine (emits_storeConstant defined found varies (.inl size) rfl rests).mono ?_
  exact fun _ d g ⟨passed, stores⟩ => ⟨passed.deferred, stores⟩

theorem emits_assignConstantWord (size : v.size = 2) (free : c.accInUse = false)
    (distinct : cellAddress w scope.symbols name 0 ≠ cellAddress w scope.symbols name 1) :
    Emits w scope c (assignWide .assign lhs rhs) fun _ d g => d.high = false ∧
      d.deferred = c.deferred ∧ ∀ s, WordAssigned w scope.symbols name
        (Cpu.wordOf (byteOf false (Source.lowWord (n false)))
          (byteOf true (Source.lowWord (n true)))) s (g s) := by
  have order (up : Bool) (d : Context) (ok : movesUp .assign rhs.expr scope c = .ok up d) :
      d = c ∧ True := by
    cases form : rhs.expr with
    | binary op l amount =>
      rw [form] at ok
      cases op <;> cases ok <;> exact ⟨rfl, trivial⟩
    | _ =>
      rw [form] at ok
      cases ok
      exact ⟨rfl, trivial⟩
  have pass (high : Bool) (c : Context) :=
    emits_constantPass (w := w) (c := c) defined found varies var rests high size
  have byte (high : Bool) : byteOf high (Source.lowWord (n high)) =
      byteOf high (Cpu.wordOf (byteOf false (Source.lowWord (n false)))
        (byteOf true (Source.lowWord (n true)))) := by
    rw [Cpu.byteOf_wordOf]
    cases high <;> rfl
  refine .reading order fun highFirst _ => .accInUse ?_
  rw [free]
  refine .ite (fun _ => ?_) fun _ => ?_
  · refine .bind (pass true c) fun _ d g ⟨passed, writes⟩ => ?_
    refine .bind (pass false d) fun _ e h ⟨passed', writes'⟩ => ?_
    refine .modify rfl (.pure ⟨rfl, passed'.trans passed, fun s => ?_⟩)
    exact wordAssigned_of_passes distinct true (byte true ▸ writes s) (byte false ▸ writes' (g s))
  · refine .bind (pass false c) fun _ d g ⟨passed, writes⟩ => ?_
    refine .bind (pass true d) fun _ e h ⟨passed', writes'⟩ => ?_
    refine .modify rfl (.pure ⟨rfl, passed'.trans passed, fun s => ?_⟩)
    exact wordAssigned_of_passes distinct false (byte false ▸ writes s) (byte true ▸ writes' (g s))

end Storing

section Statements

variable {w : Surroundings} {scope : Scope} {c : Context} {name : String} {e : Expr} {n : Int64}

theorem toNat_toUInt64_cases (n : Int64) :
    (n.toUInt64.toNat : Int) = n.toInt ∨
      (n.toUInt64.toNat : Int) = n.toInt + 18446744073709551616 := by
  have := BitVec.toInt_eq_toNat_cond n.toBitVec
  have small := n.toBitVec.isLt
  change (n.toBitVec.toNat : Int) = n.toBitVec.toInt ∨
    (n.toBitVec.toNat : Int) = n.toBitVec.toInt + _
  split at this <;> omega

theorem toNat_lowByte_eq_emod (n : Int64) : ((lowByte n).toNat : Int) = n.toInt % 256 := by
  have := toNat_toUInt64_cases n
  rw [lowByte, UInt64.toNat_toUInt8]
  omega

theorem toNat_lowWord_eq_emod (n : Int64) : ((Source.lowWord n).toNat : Int) = n.toInt % 65536 := by
  have := toNat_toUInt64_cases n
  rw [Source.lowWord, UInt64.toNat_toUInt16]
  omega

theorem foldedWord_of_isLevel {table : Table} (folds : Folds table e n)
    (level : e.isLevel table = true) : e.foldedWord table = Source.lowWord n := by
  rw [Expr.foldedWord, folds.folded_of_isLevel level, folds.folded_of_isLevel level]
  exact Cpu.wordOf_bytes _

section

variable {v : Variable}
variable (defined : scope.symbols.Defined) (lengths : ∀ v ∈ scope.symbols.vars, 0 ≤ v.length)
  (known : constant? scope.symbols e = some n)
  (found : scope.symbols.getVariable? name = some v)

include defined lengths known found

/--
Code for the assignment of a constant to a byte stores what the pass for low bytes folds it to.
-/
theorem stmt_stores_byte (size : v.size = 1)
    (varies : v.isConst = false) (loc : Loc) (low : c.high = false) (free : c.accInUse = false)
    (none : c.deferred = []) :
    Ensures (stmt (.expr loc (.binary .assign (.var name .absent) e))) scope c fun _ d =>
      ∃ code, d.code = c.code ++ code ∧ ∀ s, ∃ t, Steps w code ⟨code, s⟩ ⟨[], t⟩ ∧
        Assigned w scope.symbols name (lowByte (e.folded scope.symbols false)) s t := by
  have rests := (Folds.of_constant known).rests defined lengths
  refine stmt_assigns_straight rfl (fun begun low free => ?_) low free none
  refine (emits_assignConstant defined found varies rfl rests size low free).mono ?_
  rintro _ d g ⟨lowHere, deferred, stores⟩
  refine ⟨lowHere, deferred, fun s => ?_⟩
  have reads (address : UInt16) : (g s).read address = _ :=
    ((stores s).read address).trans (State.read_write _ _ _ _)
  refine ⟨?_, (stores s).x, (stores s).y, (stores s).sp, (stores s).decimal,
    fun address other _ _ => ?_⟩
  · rw [reads, if_pos rfl]
  · rw [reads, if_neg other.symm]

/--
Code for the assignment of a constant to a word stores one byte of what either pass folds it to.
-/
theorem stmt_stores_word (size : v.size = 2) (varies : v.isConst = false)
    (distinct : cellAddress w scope.symbols name 0 ≠ cellAddress w scope.symbols name 1) (loc : Loc)
    (low : c.high = false) (free : c.accInUse = false) (none : c.deferred = []) :
    Ensures (stmt (.expr loc (.binary .assign (.var name .absent) e))) scope c fun _ d =>
      ∃ code, d.code = c.code ++ code ∧ ∀ s, ∃ t, Steps w code ⟨code, s⟩ ⟨[], t⟩ ∧
        WordAssigned w scope.symbols name (e.foldedWord scope.symbols) s t := by
  have rests := (Folds.of_constant known).rests defined lengths
  have wide : wideVariable? scope.symbols (.var name .absent) = some v := by
    simp [wideVariable?, found, size, varies]
  refine stmt_assigns_straight rfl (fun begun low free place d assigns => ?_) low free none
  rcases assign_wide rfl wide low assigns with ⟨compound, -⟩ | ⟨-, assigns⟩
  · rcases compound with compound | compound <;> cases compound
  · exact emits_assignConstantWord defined found varies rfl rests size free distinct _ _ assigns

end

/--
Code for the assignment of a constant to a byte or a word stores what the passes fold the constant
to. If no byte moves up in it, that is the lowest byte or the lowest two bytes of its value.
-/
theorem stmt_stores_constant (defined : scope.symbols.Defined)
    (lengths : ∀ v ∈ scope.symbols.vars, 0 ≤ v.length)
    (known : constant? scope.symbols e = some n) (loc : Loc) (low : c.high = false)
    (free : c.accInUse = false) (none : c.deferred = []) :
    (∀ name v, scope.symbols.getVariable? name = some v → v.size = 1 → v.isConst = false →
      Ensures (stmt (.expr loc (.binary .assign (.var name .absent) e))) scope c fun _ d =>
        ∃ code, d.code = c.code ++ code ∧ ∀ s, ∃ t, Steps w code ⟨code, s⟩ ⟨[], t⟩ ∧
          Assigned w scope.symbols name (lowByte (e.folded scope.symbols false)) s t) ∧
    (∀ name v, scope.symbols.getVariable? name = some v → v.size = 2 → v.isConst = false →
      cellAddress w scope.symbols name 0 ≠ cellAddress w scope.symbols name 1 →
      Ensures (stmt (.expr loc (.binary .assign (.var name .absent) e))) scope c fun _ d =>
        ∃ code, d.code = c.code ++ code ∧ ∀ s, ∃ t, Steps w code ⟨code, s⟩ ⟨[], t⟩ ∧
          WordAssigned w scope.symbols name (e.foldedWord scope.symbols) s t) ∧
    (e.isLevel scope.symbols = true →
      ((lowByte (e.folded scope.symbols false)).toNat : Int) = n.toInt % 256 ∧
        ((e.foldedWord scope.symbols).toNat : Int) = n.toInt % 65536) := by
  refine ⟨fun name v found size varies => ?_, fun name v found size varies distinct => ?_,
    fun level => ?_⟩
  · exact stmt_stores_byte defined lengths known found size varies loc low free none
  · exact stmt_stores_word defined lengths known found size varies distinct loc low free none
  · have folds := Folds.of_constant known
    rw [foldedWord_of_isLevel folds level, folds.folded_of_isLevel level]
    exact ⟨toNat_lowByte_eq_emod n, toNat_lowWord_eq_emod n⟩

end Statements

def constantSymbols : Table where
  vars := [{ name := "a", size := 1 }, { name := "k", size := 1, isConst := true, value := 300 },
    { name := "w", size := 2 }]

def constantPlaces : Surroundings where
  address
    | "a" => 0x200
    | "w" => 0x210
    | "w+1" => 0x211
    | _ => 0x80
  verbatim _ _ := none
  call _ _ := none

theorem constantSymbols_defined : constantSymbols.Defined :=
  .of_entries rfl

theorem constantSymbols_lengths : ∀ v ∈ constantSymbols.vars, 0 ≤ v.length := by
  decide +kernel

/-- The constant `k < 7 ? 1 : k * 5 % 1000 - ~k`, which is 801 if `k` is 300. -/
def mixedConstant : Expr :=
  let k : Expr := .var "k" .absent
  .binary .choice (.binary .lt k (.int 7)) (.binary .arms (.int 1)
    (.binary .sub (.binary .mod (.binary .mul k (.int 5)) (.int 1000)) (.unary .bitNot k)))

theorem goesThrough_mixedConstant : ∀ name ∈ ["a", "w"],
    goesThrough (stmt (.expr {} (.binary .assign (.var name .absent) mixedConstant)))
      ⟨constantSymbols, { name := "main" }⟩ {} (fun _ => true) = true := by
  decide +kernel

/-- The constant 801 is stored in a byte and in a word. -/
theorem mixedConstant_stored : constant? constantSymbols mixedConstant = some 801 ∧
      (∃ d t, stmt (.expr {} (.binary .assign (.var "a" .absent) mixedConstant))
          ⟨constantSymbols, { name := "main" }⟩ {} = .ok () d ∧
        Steps constantPlaces d.code ⟨d.code, {}⟩ ⟨[], t⟩ ∧
          Assigned constantPlaces constantSymbols "a" 33 {} t) ∧
      ∃ d t, stmt (.expr {} (.binary .assign (.var "w" .absent) mixedConstant))
          ⟨constantSymbols, { name := "main" }⟩ {} = .ok () d ∧
        Steps constantPlaces d.code ⟨d.code, {}⟩ ⟨[], t⟩ ∧
          WordAssigned constantPlaces constantSymbols "w" 801 {} t := by
  have known : constant? constantSymbols mixedConstant = some 801 := by decide +kernel
  obtain ⟨byte, word, value⟩ := @stmt_stores_constant constantPlaces
    ⟨constantSymbols, { name := "main" }⟩ {} mixedConstant 801 constantSymbols_defined
    constantSymbols_lengths known {} rfl rfl rfl
  obtain ⟨low, both⟩ := value (by decide +kernel)
  refine ⟨known, ?_, ?_⟩
  · have ensures := byte "a" { name := "a", size := 1 } (by decide +kernel) rfl rfl
    obtain ⟨d, ran, -, runs⟩ := ensures.exists_code rfl (goesThrough_mixedConstant "a" (by simp))
    obtain ⟨t, steps, assigned⟩ := runs {}
    have lowest : lowByte (mixedConstant.folded constantSymbols false) = 33 :=
      UInt8.toNat_inj.mp (Int.ofNat_inj.mp low)
    rw [lowest] at assigned
    exact ⟨d, t, ran, steps, assigned⟩
  · have ensures := word "w" { name := "w", size := 2 } (by decide +kernel) rfl rfl
      (by decide +kernel)
    obtain ⟨d, ran, -, runs⟩ := ensures.exists_code rfl (goesThrough_mixedConstant "w" (by simp))
    obtain ⟨t, steps, assigned⟩ := runs {}
    have whole : mixedConstant.foldedWord constantSymbols = 801 :=
      UInt16.toNat_inj.mp (Int.ofNat_inj.mp both)
    rw [whole] at assigned
    exact ⟨d, t, ran, steps, assigned⟩

/-- The constant `1 << 8` is 256, and zero is stored for it. -/
theorem moved_byte_not_stored :
    constant? constantSymbols (.binary .shl (.int 1) (.int 8)) = some 256 ∧
      ∃ d t, stmt (.expr {} (.binary .assign (.var "w" .absent) (.binary .shl (.int 1) (.int 8))))
          ⟨constantSymbols, { name := "main" }⟩ {} = .ok () d ∧
        Steps constantPlaces d.code ⟨d.code, {}⟩ ⟨[], t⟩ ∧
          wordAt constantPlaces constantSymbols "w" t = 0 := by
  obtain ⟨_, d, t, ran, steps, zero⟩ := @exists_run_of_goesThrough _
    (stmt (.expr {} (.binary .assign (.var "w" .absent) (.binary .shl (.int 1) (.int 8)))))
    constantPlaces ⟨constantSymbols, { name := "main" }⟩ {} {}
    (wordAt constantPlaces constantSymbols "w" · == 0) 20 (by decide +kernel)
  exact ⟨by decide +kernel, d, t, ran, steps, eq_of_beq zero⟩

end Backend6502.Lowering
