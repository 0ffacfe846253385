import Backend6502.Proofs.Conditions
import Backend6502.Proofs.EvaluationDeeds
import Backend6502.Proofs.SafeStatements

/-!
# An assignment evaluates its right side once

The code for one byte of an expression does what the pass for this byte has to do. The proof follows
the tree of the expression, and needs one fact for each operator.

A word is assigned in two passes over the same expression. Together they do what one evaluation of
the expression does, and write the word: nothing is done twice, and only what stands under a
condition, or was put off when one came, may be left out. This needs an expression whose conditions
do nothing, and in which no word is assigned but by a step: these are done again in the pass for
high bytes.
-/

namespace Backend6502.Lowering

open Source (Op Expr)
open Symbols (Table)

/-- What the pass for one byte of an expression has to see done. -/
def passBill (table : Table) (e : Expr) (high : Bool) : Bill :=
  ⟨passDeeds table e high, looseDeeds table e, branches table e⟩

/-- The code does what the passes for an expression have to do. -/
structure Billed (scope : Scope) (e : Expr) (o : Lowered) : Prop where
  expr : o.expr = e
  value : ∀ high, Does scope high (passBill scope.symbols e high) o.value
  test : o.test.Costs scope (passDeeds scope.symbols e false)
  arms : ∀ first second, o.arms = some (first, second) → ∃ a b, e = .binary .arms a b ∧
    (∀ high, Does scope high (passBill scope.symbols a high) first) ∧
      ∀ high, Does scope high (passBill scope.symbols b high) second

section Operators

variable {scope : Scope} {e l r : Expr} {lhs rhs : Lowered}
variable {high : Bool}

theorem passDeeds_of_constant (known : (constant? scope.symbols e).isSome = true) :
    passDeeds scope.symbols e high = 0 :=
  passDeeds_eq_zero (deedsOf_of_constant known) high

theorem billed_ofOperand {value : Gen Place}
    (does : ∀ high, Does scope high (passBill scope.symbols e high) value) :
    Billed scope e (.ofOperand ⟨e, value⟩) := by
  refine ⟨rfl, does, costs_unlessConstant ?_ passDeeds_of_constant, nofun⟩
  intro high targets target negate inside
  have zero : Does scope false 0 (Operand.int 0).value := .of_hushed (.pure _)
  have same : passDeeds scope.symbols e false =
      (passBill scope.symbols e false).deeds + (0 : Bill).deeds :=
    (add_zero _).symm
  rw [same]
  exact tests_compare .ne (does false) zero negate inside

/-- The value of a condition is the outcome of its test. -/
theorem billed_ofTest {test : Test} (costs : test.Costs scope (passDeeds scope.symbols e false))
    (alike : ∀ high, passDeeds scope.symbols e high = passDeeds scope.symbols e false)
    (loose : ∀ x ∈ passDeeds scope.symbols e false, x ∈ looseDeeds scope.symbols e)
    (opens : branches scope.symbols e = true) : Billed scope e (.ofTest e test) := by
  have tested : (unlessConstant e test).Costs scope (passDeeds scope.symbols e false) :=
    costs_unlessConstant costs passDeeds_of_constant
  refine ⟨rfl, fun high => ?_, tested, nofun⟩
  refine (does_truthValue tested passDeeds_of_constant false).within ⟨?_, loose, fun _ => opens⟩
  exact (alike high).symm

theorem billed_lowerUnary (op : Op) {operand : Lowered} (billed : Billed scope e operand) :
    Billed scope (.unary op e) (lowerUnary op operand) := by
  obtain ⟨rfl, value, test, -⟩ := billed
  have number (n : Int64) (high : Bool) : Does scope high 0 (Operand.int n).value :=
    .of_hushed (.pure _)
  cases op with
  | neg =>
    refine billed_ofOperand fun high => ?_
    have both : Does scope high (0 + passBill scope.symbols operand.expr high)
        (arith .sub (.int 0) operand.toOperand) :=
      does_arith .sub (number 0 high) (value high)
    rwa [Bill.zero_add] at both
  | bitNot =>
    refine billed_ofOperand fun high => ?_
    have both : Does scope high (passBill scope.symbols operand.expr high + 0)
        (arith .xor operand.toOperand (.int (-1))) :=
      does_arith .xor (value high) (number (-1) high)
    rwa [Bill.add_zero] at both
  | not =>
    refine ⟨rfl, fun high => ?_, costs_unlessConstant ?_ passDeeds_of_constant, nofun⟩
    · refine (does_truthValue test passDeeds_of_constant true).within ⟨rfl, ?_, fun _ => rfl⟩
      exact fun x => mem_deedsOf
    · exact fun high targets target negate inside => test high targets target (!negate) inside
  | deref =>
    exact billed_ofOperand fun high => (Does.of_hushed (.deref _)).within (.zero rfl)
  | _ => exact billed_ofOperand fun high => .fail _

/-- One of two values is chosen: by a known condition in advance, by another one while running. -/
theorem does_chooseArms {cond : Lowered} {arms : Option (Gen Place × Gen Place)}
    (billed : Billed scope l cond)
    (does : ∀ first second, arms = some (first, second) → ∃ a b, r = .binary .arms a b ∧
      (∀ high, Does scope high (passBill scope.symbols a high) first) ∧
        ∀ high, Does scope high (passBill scope.symbols b high) second) :
    Does scope high (passBill scope.symbols (.binary .choice l r) high) (chooseArms cond arms) := by
  obtain ⟨rfl, value, test, -⟩ := billed
  unfold chooseArms
  split
  · next first second =>
    obtain ⟨a, b, rfl, doesA, doesB⟩ := does first second rfl
    unfold passBill
    rw [passDeeds, looseDeeds, branches]
    cases known : constant? scope.symbols cond.expr with
    | some n =>
      refine .constant ?_
      rw [known]
      dsimp only
      by_cases nonzero : n = 0
      · subst nonzero
        exact doesB high
      · rw [if_pos nonzero, if_pos nonzero, if_pos nonzero, if_pos (by simpa using nonzero)]
        exact doesA high
    | none =>
      refine (does_choose_unknown known test false (doesA high) (doesB high)).within
        ⟨rfl, fun x inside => ?_, fun _ => rfl⟩
      rcases Multiset.mem_add.mp inside with inside | inside
      · refine Multiset.mem_add.mpr (.inl (Multiset.mem_add.mpr ?_))
        exact (Multiset.mem_add.mp inside).imp mem_deedsOf mem_deedsOf
      · exact Multiset.mem_add.mpr (.inr (mem_deedsOf inside))
  · exact .fail _

theorem billed_lowerBinary (op : Op) (left : Billed scope l lhs) (right : Billed scope r rhs) :
    Billed scope (.binary op l r) (lowerBinary op lhs rhs) := by
  have chosen (high : Bool) : Does scope high (passBill scope.symbols (.binary .choice l r) high)
      (chooseArms lhs rhs.arms) :=
    does_chooseArms left right.arms
  obtain ⟨rfl, valueL, testL, -⟩ := left
  obtain ⟨rfl, valueR, testR, -⟩ := right
  have compares (op : Op) : Test.Costs scope
      (passDeeds scope.symbols lhs.expr false + passDeeds scope.symbols rhs.expr false)
      (compare op lhs.toOperand rhs.toOperand) :=
    fun high targets target negate inside =>
      tests_compare op (valueL false) (valueR false) negate inside
  have loose (x : Deed) (inside : x ∈
      passDeeds scope.symbols lhs.expr false + passDeeds scope.symbols rhs.expr false) :
      x ∈ deedsOf scope.symbols lhs.expr + deedsOf scope.symbols rhs.expr :=
    Multiset.mem_add.mpr ((Multiset.mem_add.mp inside).imp mem_deedsOf mem_deedsOf)
  have plain (isTarget : isTarget lhs.expr = true) (high : Bool) :
      passDeeds scope.symbols lhs.expr high = 0 :=
    passDeeds_eq_zero (deedsOf_of_isTarget isTarget) high
  have assigns (op : Op) (high : Bool) : Does scope high
      ⟨assigned scope.symbols op lhs.expr rhs.expr (passDeeds scope.symbols lhs.expr)
          (passDeeds scope.symbols rhs.expr) high,
        looseDeeds scope.symbols lhs.expr + looseDeeds scope.symbols rhs.expr,
        branches scope.symbols lhs.expr || branches scope.symbols rhs.expr⟩
      (assign op lhs.toOperand rhs.toOperand) :=
    does_assign op valueL valueR plain
  have joins (op : Op) (high : Bool) : Does scope high
      ⟨joined scope.symbols op rhs.expr (passDeeds scope.symbols lhs.expr)
          (passDeeds scope.symbols rhs.expr) high,
        looseDeeds scope.symbols lhs.expr + looseDeeds scope.symbols rhs.expr,
        branches scope.symbols lhs.expr || branches scope.symbols rhs.expr⟩
      (arithOrShift op lhs.toOperand rhs.toOperand) :=
    does_arithOrShift op valueL valueR plain
  cases op with
  | lt | gt | le | ge | eq | ne =>
    exact billed_ofTest (compares _) (fun _ => rfl) loose rfl
  | logAnd => exact billed_ofTest (costs_andTest testL testR) (fun _ => rfl) loose rfl
  | logOr => exact billed_ofTest (costs_orTest testL testR) (fun _ => rfl) loose rfl
  | choice => exact billed_ofOperand chosen
  | arms =>
    have stray : Billed scope (.binary .arms lhs.expr rhs.expr)
        (.ofOperand ⟨.binary .arms lhs.expr rhs.expr, fail .strayArms⟩) :=
      billed_ofOperand fun _ => .fail _
    refine ⟨rfl, stray.value, stray.test, ?_⟩
    rintro first second ⟨⟩
    exact ⟨lhs.expr, rhs.expr, rfl, valueL, valueR⟩
  | assign | addAssign | subAssign | andAssign | orAssign | xorAssign | shlAssign | shrAssign
    | mulAssign | divAssign =>
      exact billed_ofOperand (assigns _)
  | _ => exact billed_ofOperand (joins _)

theorem does_call_one (name : String) {arg : Operand}
    (does : Does scope false (passBill scope.symbols arg.expr false) arg.value) :
    Does scope high (passBill scope.symbols (.call name [arg.expr]) high) (call name [arg]) := by
  unfold passBill
  rw [passDeeds, looseDeeds, branches]
  refine .ite_of (fun isBuiltin => .inHigh ?_) fun notBuiltin => ?_
  · cases high with
    | true => exact (Does.of_hushed (.pure _)).within (.zero rfl)
    | false =>
      rw [if_neg Bool.false_ne_true, if_pos isBuiltin]
      exact does_builtinCall name does
  · rw [if_neg notBuiltin]
    exact (does_programCall name _).within (.of_deeds rfl)

theorem does_call_several (name : String) {args : List Expr} {operands : List Operand}
    (several : ∀ arg, args ≠ [arg]) (fails : ∀ arg, operands ≠ [arg]) :
    Does scope high (passBill scope.symbols (.call name args) high) (call name operands) := by
  have only {bill : Bill} (f : Operand → Gen Place) :
      Does scope false bill (onlyArgument name operands >>= f) := by
    unfold onlyArgument
    split
    · next arg => exact absurd rfl (fails arg)
    · intro c place d _ ok
      cases ok
  unfold passBill
  rw [passDeeds]
  · refine .ite_of (fun isBuiltin => .inHigh ?_) fun notBuiltin => ?_
    · rw [isBuiltin, Bool.or_true, if_pos rfl]
      cases high with
      | true => exact (Does.of_hushed (.pure _)).within (.zero rfl)
      | false =>
        refine .ite_of (absurd · Bool.false_ne_true) fun _ => .ite (only _) ?_
        refine .ite (only _) <| .ite (only _) ?_
        exact .ite (only _) (.fail _)
    · rw [eq_false_of_ne_true notBuiltin, Bool.or_false]
      exact (does_programCall name _).within (.of_deeds rfl)
  · exact several

end Operators

/-- The code of every expression does what its passes have to do. -/
theorem billed_lower (scope : Scope) : ∀ e, Billed scope e (lower e)
  | .absent | .nothing | .int _ =>
    billed_ofOperand fun _ => (Does.of_hushed (.pure _)).within (.zero rfl)
  | .var name index =>
    billed_ofOperand fun _ => (Does.of_hushed (.readVariable name index)).within (.zero rfl)
  | .binary op l r => billed_lowerBinary op (billed_lower scope l) (billed_lower scope r)
  | .unary op e => billed_lowerUnary op (billed_lower scope e)
  | .incDec op e => by
      have value := (billed_lower scope e).value
      have steps (high : Bool) : Does scope high
          (passBill scope.symbols (.incDec op (lower e).expr) high)
          (incDec op (lower e).toOperand) :=
        does_incDec op (by rwa [expr_lower])
      rw [expr_lower] at steps
      exact billed_ofOperand steps
  | .call name [arg] => by
      have value := (billed_lower scope arg).value false
      have calls (high : Bool) : Does scope high
          (passBill scope.symbols (.call name [(lower arg).expr]) high)
          (call name [(lower arg).toOperand]) :=
        does_call_one name (by rwa [expr_lower])
      rw [expr_lower] at calls
      exact billed_ofOperand calls
  | .call name [] => billed_ofOperand fun _ => does_call_several name nofun nofun
  | .call name (first :: second :: rest) =>
    billed_ofOperand fun _ => does_call_several name nofun fun arg same => by
      have tail : (lower second).toOperand :: lowerAll rest = [] := (List.cons.inj same).2
      cases tail

open Code (Line Surroundings Steps Point Onward Closed labelNames)
open Cpu (Memory State)
open Source (Loc)

/-- Running the code does what the bill says: everything once, but for what may be missed. -/
structure Enacts (scope : Scope) (code : List Line) (bill : Bill) : Prop where
  ends : ∀ w : Surroundings, (∀ name s, (w.call name s).isSome = true) → ∀ s,
    ∃ t, Steps w code ⟨code, s⟩ ⟨[], t⟩
  does : ∃ sure unsure, sure + unsure = bill.deeds ∧
    (∀ x ∈ unsure, bill.branches = true ∧ x ∈ bill.loose) ∧
      ∀ w s t, Steps w code ⟨code, s⟩ ⟨[], t⟩ → ∃ done,
        Accomplishes w scope code ⟨code, s⟩ done ⟨[], t⟩ ∧ sure ≤ done ∧ done ≤ bill.deeds

/-- Where control takes one way only, nothing is missed. -/
theorem Enacts.exact {scope : Scope} {code : List Line} {bill : Bill}
    (enacts : Enacts scope code bill) (straight : bill.branches = false) {w : Surroundings}
    {s t : State} (steps : Steps w code ⟨code, s⟩ ⟨[], t⟩) :
    Accomplishes w scope code ⟨code, s⟩ bill.deeds ⟨[], t⟩ := by
  obtain ⟨sure, unsure, all, doubt, runs⟩ := enacts.does
  obtain ⟨done, run, least, most⟩ := runs w s t steps
  have none : unsure = 0 := by
    refine Multiset.eq_zero_of_forall_notMem fun x inside => ?_
    cases straight.symm.trans (doubt x inside).1
  rw [none, add_zero] at all
  rw [all] at least
  rwa [le_antisymm most least] at run

section Statements

variable {scope : Scope} {c d : Context} {u : Unit} {e : Expr}

theorem pending_flush (ok : flush scope c = .ok u d) : d.pending = 0 := by
  obtain ⟨_, _, ⟨⟩, ok⟩ := bind_inv ok
  obtain ⟨_, _, ⟨⟩, ok⟩ := bind_inv ok
  have settled := Does.withHigh (.stepAll c.deferred) { c with deferred := [] } u d rfl ok
  refine Multiset.eq_zero_of_forall_notMem fun x waiting => ?_
  rcases settled.waits x waiting with none | none <;> exact Multiset.notMem_zero x none

theorem pending_endStatement (ok : endStatement scope c = .ok u d) : d.pending = 0 := by
  obtain ⟨_, between, flushes, ok⟩ := bind_inv ok
  have none := pending_flush flushes
  cases ok
  exact none

/-- The code of an expression for its effect does what the pass for its low byte has to do. -/
theorem exprStmt_shows (valued : e.isAbsent = false) (low : c.high = false) (none : c.deferred = [])
    (ok : exprStmt e scope c = .ok u d) :
    ∃ code sure unsure, d.code = c.code ++ code ∧ Shows scope code sure unsure ∧
      sure + unsure = passDeeds scope.symbols e false ∧
        ∀ x ∈ unsure, branches scope.symbols e = true ∧ x ∈ looseDeeds scope.symbols e := by
  unfold exprStmt at ok
  rw [valued] at ok
  obtain ⟨place, between, value, ends⟩ := bind_inv ok
  have valued := (billed_lower scope e).value false c place between low value
  have ended : Settles scope 0 between d := Does.endStatement between u d rfl ends
  obtain ⟨code, sure, unsure, added, shows, balance, doubt⟩ := (valued.trans ended).code
  have before : c.pending = 0 := by rw [Context.pending, none]; rfl
  rw [Bill.add_zero, pending_endStatement ends, before, add_zero, zero_add] at balance
  refine ⟨code, sure, unsure, added, shows, balance, fun x inside => ?_⟩
  obtain ⟨opens, waiting | loose⟩ := doubt x inside
  · rw [before] at waiting
    exact absurd waiting (Multiset.notMem_zero x)
  · rw [Bill.add_zero] at opens loose
    exact ⟨opens, loose⟩

/-- Code behind the label of a statement, in which every label is placed once. -/
theorem Shows.enacts (loc : Loc) {code : List Line} {sure unsure : Multiset Deed} {bill : Bill}
    (shows : Shows scope code sure unsure) (once : (labelNames code).Nodup)
    (all : sure + unsure = bill.deeds)
    (doubt : ∀ x ∈ unsure, bill.branches = true ∧ x ∈ bill.loose) :
    Enacts scope (labelLines loc ++ code) bill := by
  obtain ⟨lines, label, here⟩ : ∃ lines, (lines = [] ∨ ∃ name, lines = [.label name]) ∧
      labelLines loc = lines := by
    unfold labelLines
    split
    · exact ⟨_, .inl rfl, rfl⟩
    · exact ⟨_, .inr ⟨_, rfl⟩, rfl⟩
  rw [here]
  have closed : Closed (lines ++ code) := by
    obtain ⟨parts, rfl, -, laid⟩ := shows.exists_laid
    rcases label with rfl | ⟨name, rfl⟩
    · exact laid.lines
    · exact (Onward.label name).append laid.lines fun _ => False.elim
  refine ⟨fun w returns s => ?_, sure, unsure, all, doubt, fun w s t steps => ?_⟩
  · exact closed.exists_steps returns _ ⟨_, s⟩ (Nat.le_refl _) (List.suffix_refl _)
  · rw [← all]
    rcases label with rfl | ⟨name, rfl⟩
    · exact shows.accomplishes once steps
    · cases steps with
      | head first others =>
        have step : (⟨.label name :: code, s⟩ : Point).step? w (.label name :: code) =
            some ⟨code, s⟩ :=
          Point.step?_of_next rfl
        cases first.symm.trans step
        obtain ⟨done, run, least, most⟩ := shows.accomplishes once others
        exact ⟨done, .line rfl step run, least, most⟩

/--
Code for the assignment of an expression to a word evaluates the expression once, and writes both
bytes of the word.
-/
theorem stmt_evaluates_once {name : String}
    (wide : (wideVariable? scope.symbols (.var name .absent)).isSome = true)
    (once : isOnce scope.symbols e true = true) (loc : Loc) (low : c.high = false)
    (none : c.deferred = []) :
    Ensures (stmt (.expr loc (.binary .assign (.var name .absent) e))) scope c fun _ d =>
      ∃ code, d.code = c.code ++ code ∧ Enacts scope code ⟨deedsOf scope.symbols e +
            ({.write (.var name .absent) false} + {.write (.var name .absent) true}),
          looseDeeds scope.symbols e, branches scope.symbols e⟩ := by
  refine ensures_stmt fun u d ok => ?_
  obtain ⟨_, begun, enters, ok⟩ := bind_inv ok
  obtain ⟨flags, same⟩ := enter_eq_ok enters
  obtain ⟨code, sure, unsure, further, shows, all, doubt⟩ :=
    exprStmt_shows rfl (by rw [same]; exact low) (by rw [same]; exact none) ok
  have unique : (labelNames code).Nodup := by
    have safe : Safe (fun _ => True) (exprStmt (.binary .assign (.var name .absent) e)) :=
      safe_exprStmt _
    have grows := (safe scope begun fun _ _ => ⟨trivial, fun _ _ => trivial⟩).of_ok ok
    exact grows.labelled.nodup further
  have single : isOnce scope.symbols (.binary .assign (.var name .absent) e) false = true := by
    rw [isOnce]
    · simpa [isTarget, wide, Op.isAssign] using .inr once
    · intro op x y isChoice
      cases isChoice
  have both : passDeeds scope.symbols (.binary .assign (.var name .absent) e) false =
      deedsOf scope.symbols (.binary .assign (.var name .absent) e) :=
    inPasses_of_isOnce single
  have itself : written scope.symbols .assign (.var name .absent) e =
      {.write (.var name .absent) false} + {.write (.var name .absent) true} := by
    have plain : isStep scope.symbols .assign e = false := rfl
    rw [written, plain, if_neg Bool.false_ne_true, if_pos wide]
  refine ⟨labelLines loc ++ code, ?_, shows.enacts loc unique ?_ fun x inside => ?_⟩
  · rw [further, same, List.append_assoc]
  · rw [all, both, ← itself]
    exact congrArg (· + _) (zero_add _)
  · obtain ⟨opens, loose⟩ := doubt x inside
    exact ⟨opens, (zero_add (looseDeeds scope.symbols e)) ▸ loose⟩

end Statements

/-- Two bytes, a word and two functions that return a byte. -/
def deedScope : Scope where
  symbols :=
    { vars := [{ name := "a", size := 1 }, { name := "b", size := 1 }, { name := "w", size := 2 }]
      functions := [{ name := "f", returns := true }, { name := "g", returns := true }] }
  function := { name := "main" }

def deedPlaces : Surroundings where
  address
    | "a" => 0x200
    | "b" => 0x201
    | "w" => 0x210
    | "w+1" => 0x211
    | _ => 0x80
  verbatim _ _ := none
  call _ s := some { s with a := 7 }

/-- The value `((b = f()) + ++a) | (g() << 8)`. -/
def busyValue : Expr :=
  .binary .or (.binary .add (.binary .assign (.var "b" .absent) (.call "f" []))
      (.incDec .preInc (.var "a" .absent)))
    (.binary .shl (.call "g" []) (.int 8))

/--
Both functions are called once, and `a` is incremented once, while `busyValue` is assigned to `w`.
-/
theorem busyValue_evaluated_once :
    ∃ d t, stmt (.expr {} (.binary .assign (.var "w" .absent) busyValue)) deedScope {} = .ok () d ∧
      Steps deedPlaces d.code ⟨d.code, {}⟩ ⟨[], t⟩ ∧
        Accomplishes deedPlaces deedScope d.code ⟨d.code, {}⟩
          ([.call "f", .write (.var "b" .absent) false, .step (.var "a" .absent) true, .call "g",
            .write (.var "w" .absent) false, .write (.var "w" .absent) true] : List Deed)
              ⟨[], t⟩ := by
  have wide :
      (wideVariable? deedScope.symbols (.var "w" .absent)).isSome = true := by decide +kernel
  have once : isOnce deedScope.symbols busyValue true = true := by decide +kernel
  have goes :
      goesThrough (stmt (.expr {} (.binary .assign (.var "w" .absent) busyValue))) deedScope {}
      (fun _ => true) = true := by
    decide +kernel
  obtain ⟨d, ran, -, enacts⟩ := (stmt_evaluates_once wide once {} rfl rfl).exists_code rfl goes
  obtain ⟨t, steps⟩ := enacts.ends deedPlaces (fun _ _ => rfl) {}
  exact ⟨d, t, ran, steps, enacts.exact (by decide +kernel) steps⟩

/-- The assignment `w = (++a < 5)`. -/
def steppingTest : Expr :=
  .binary .assign (.var "w" .absent) (.binary .lt (.incDec .preInc (.var "a" .absent)) (.int 5))

def threeStart : State where
  memory := ({} : Memory).write 0x200 3

/-- A condition is tested in both passes: `w = (++a < 5)` increments `a` from 3 to 5. -/
theorem step_in_condition_repeated : ∃ d t, stmt (.expr {} steppingTest) deedScope {} = .ok () d ∧
      Steps deedPlaces d.code ⟨d.code, threeStart⟩ ⟨[], t⟩ ∧ t.read 0x200 = 5 := by
  obtain ⟨_, d, t, ran, steps, value⟩ := @exists_run_of_goesThrough _ (stmt (.expr {} steppingTest))
    deedPlaces deedScope {} threeStart (·.read 0x200 == 5) 100 (by decide +kernel)
  exact ⟨d, t, ran, steps, eq_of_beq value⟩

/-- The assignment `w = b < 5 ? a++ : b < 9`. -/
def steppingChoice : Expr :=
  .binary .assign (.var "w" .absent) (.binary .choice (.binary .lt (.var "b" .absent) (.int 5))
    (.binary .arms (.incDec .postInc (.var "a" .absent)) (.binary .lt (.var "b" .absent) (.int 9))))

/--
Of the deeds of an arm that is chosen, not all need be done: the step of `a` is put off until
something is compared, which happens in the other arm, and `a` is 3 still.
-/
theorem step_in_arm_missed : ∃ d t, stmt (.expr {} steppingChoice) deedScope {} = .ok () d ∧
      Steps deedPlaces d.code ⟨d.code, threeStart⟩ ⟨[], t⟩ ∧ t.read 0x200 = 3 := by
  obtain ⟨_, d, t, ran, steps, value⟩ := @exists_run_of_goesThrough _
    (stmt (.expr {} steppingChoice)) deedPlaces deedScope {} threeStart (·.read 0x200 == 3) 100
    (by decide +kernel)
  exact ⟨d, t, ran, steps, eq_of_beq value⟩

end Backend6502.Lowering
