import Backend6502.Proofs.DeedAccounts
import Backend6502.Proofs.SafeExpressions

/-!
# Deeds of operators

What the code of an operator does is what the code of its operands does, and the deed of the
operator itself: a call, a write or a step. A comparison works on bytes in both passes, so it asks
for the low bytes of its operands; what was put off is done before its branch.
-/

namespace Backend6502.Lowering

open Code (Line Instruction Onward)
open Cpu (Mnemonic Mode)
open Source (Op Expr)
open Symbols (Variable Table)

variable {scope : Scope} {e : Expr} {c d : Context} {place : Place} {high : Bool} {a b : Bill}
  {lhs rhs : Operand}

/-- Control goes through the lines that the step adds, one after the other. -/
abbrev Still {α : Type} (m : Gen α) : Prop :=
  Adds (fun line => line.fallsThrough = true) m

theorem fallsThrough_of_find? {m : Mnemonic} {mode : Mode} {operand : String} {i : Instruction}
    (falls : (m.goesOn && !(m == .jmp || m.isBranch)) = true)
    (found : Instruction.find? (.known m) mode operand = some i) :
    (Line.instruction i).fallsThrough = true := by
  obtain ⟨row, -, rfl⟩ := Option.map_eq_some_iff.mp found
  exact falls

namespace Adds

variable {α : Type} {m : Mnemonic}

theorem mono {P Q : Line → Prop} {m : Gen α} (adds : Adds P m) (implies : ∀ line, P line → Q line) :
    Adds Q m := by
  intro scope c a d ok
  obtain ⟨high, deferred, lines, added, holds⟩ := adds scope c a d ok
  exact ⟨high, deferred, lines, added, fun line inside => implies line (holds line inside)⟩

theorem still {m : Gen α} (hushed : Hushed m) : Still m :=
  Adds.mono (hushed.adds rfl) fun _ => Line.fallsThrough_of_isQuiet

section

variable (falls : (m.goesOn && !(m == .jmp || m.isBranch)) = true)

include falls

theorem emitStill (place : Place) : Still (Lowering.emit m place) :=
  .emit fun _ _ _ _ _ _ found => fallsThrough_of_find? falls found

theorem impliedStill : Still (Lowering.emitImplied m) :=
  .emitImplied fun _ found => fallsThrough_of_find? falls found

end

theorem keepingStill {step : Gen Unit} (still : Still step) : Still (Lowering.keepingA step) :=
  .keepingA (fun _ found => fallsThrough_of_find? rfl found)
    (fun _ found => fallsThrough_of_find? rfl found) still

theorem storeX (value : Place) : Still (storeX value) := by
  unfold Lowering.storeX
  split
  · exact .pure _
  · exact .impliedStill rfl
  · exact .keepingStill (.bind (.impliedStill rfl) fun _ => .impliedStill rfl)
  · exact .emitStill rfl _

theorem storeY (value : Place) : Still (storeY value) := by
  unfold Lowering.storeY
  split
  · exact .pure _
  · exact .impliedStill rfl
  · exact .keepingStill (.bind (.impliedStill rfl) fun _ => .impliedStill rfl)
  · exact .emitStill rfl _

theorem storeMemory (place value : Place) : Still (storeMemory place value) := by
  unfold Lowering.storeMemory
  split
  · next m found =>
    have falls : (m.goesOn && !(m == .jmp || m.isBranch)) = true := by
      cases value <;> cases found <;> rfl
    exact .emitStill falls _
  · exact .keepingStill (.bind (.emitStill rfl _) fun _ => .emitStill rfl _)

theorem store (place value : Place) : Still (store place value) := by
  unfold Lowering.store
  split
  · exact .storeX value
  · exact .storeY value
  · exact .storeMemory _ value
  · exact .storeMemory _ value
  · exact .storeMemory _ value
  · exact .fail _

theorem strobe (e : Expr) : Still (strobe e) :=
  (Adds.still (.target e)).bind fun _ => .ite (.emitStill rfl _) (.fail _)

theorem stepPlace (place : Place) (increments : Bool) : Still (stepPlace place increments) := by
  unfold Lowering.stepPlace
  cases increments <;> split <;> first | exact .impliedStill rfl | exact .emitStill rfl _

end Adds

section Blocks

variable {u : Unit}
variable {v : Variable} {increments : Bool}

theorem Still.settles {m : Gen Unit} {deed : Deed} (still : Still m) (ok : m scope c = .ok u d)
    (block : ∀ lines, d.code = c.code ++ lines → Block scope deed lines) :
    Settles scope (.firm {deed}) c d := by
  obtain ⟨high, deferred, lines, added, falls⟩ := still scope c u d ok
  exact .of_block high deferred added (block lines added) (.of_falls falls)

/-- Closed code that leaves the pass and what was put off as they are. -/
structure Paced (targets : String → Prop) (c d : Context) : Prop where
  high : d.high = c.high
  deferred : d.deferred = c.deferred
  code : ∃ lines, d.code = c.code ++ lines ∧ Onward targets lines

namespace Paced

variable {label : String}
variable {targets : String → Prop} {b : Context}

theorem trans (first : Paced targets b c) (second : Paced targets c d) : Paced targets b d := by
  obtain ⟨lines, added, onward⟩ := first.code
  obtain ⟨more, added', onward'⟩ := second.code
  refine ⟨second.high.trans first.high, second.deferred.trans first.deferred, lines ++ more, ?_,
    onward.append onward' fun _ => .inr⟩
  rw [added', added, List.append_assoc]

theorem of_still {α : Type} {m : Gen α} {a : α} (still : Still m) (ok : m scope c = .ok a d) :
    Paced targets c d := by
  obtain ⟨high, deferred, lines, added, falls⟩ := still scope c a d ok
  exact ⟨high, deferred, lines, added, .of_falls falls⟩

theorem of_branch {m : Mnemonic} (goesOn : m.goesOn = true)
    (ok : emitBranch m label scope c = .ok u d) :
    Paced (fun name => name = label ∨ targets name) c d := by
  obtain ⟨i, found, rfl⟩ := addFixed_eq_ok ok
  obtain ⟨row, -, rfl⟩ := Option.map_eq_some_iff.mp found
  refine ⟨rfl, rfl, _, rfl, .single goesOn fun name goes => ?_⟩
  exact .inl (eq_of_beq (Bool.and_eq_true_iff.mp goes).2).symm

theorem closedBy (paced : Paced (fun name => name = label ∨ targets name) b c)
    (ok : putLabel label scope c = .ok u d) : Paced targets b d := by
  obtain ⟨lines, added, onward⟩ := paced.code
  cases ok
  refine ⟨paced.high, paced.deferred, lines ++ [.label label], ?_,
    onward.append (Onward.label label) ?_⟩
  · exact (congrArg (· ++ _) added).trans (List.append_assoc _ _ _)
  · rintro name (rfl | outside)
    · exact .inl List.mem_cons_self
    · exact .inr outside

end Paced

theorem still_nextHere : Still nextHere :=
  .bind .nextIf fun _ => .pure _

theorem keepingA_paced {step : Gen Unit}
    (paced : ∀ c d u, step scope c = .ok u d → Paced (fun _ => False) c d)
    (ok : keepingA step scope c = .ok u d) : Paced (fun _ => False) c d := by
  have pull {c d : Context} {u : Unit} {needed : Bool}
      (ok : (if needed then emitImplied .pla else pure () : Gen Unit) scope c = .ok u d) :
      Paced (fun _ => False) c d :=
    .of_still (.ite (.impliedStill rfl) (.pure _)) ok
  obtain ⟨needed, c₁, ⟨⟩, ok⟩ := bind_inv ok
  cases use : c.accInUse with
  | true =>
    rw [use] at ok
    obtain ⟨_, c₂, push, ok⟩ := bind_inv ok
    obtain ⟨_, c₃, steps, ok⟩ := bind_inv ok
    exact (Paced.of_still (.impliedStill rfl) push).trans ((paced _ _ _ steps).trans (pull ok))
  | false =>
    rw [use] at ok
    obtain ⟨_, c₃, steps, ok⟩ := bind_inv ok
    exact (paced _ _ _ steps).trans (pull ok)

theorem incrementWide_paced (ok : incrementWide v scope c = .ok u d) :
    Paced (fun _ => False) c d := by
  obtain ⟨here, c₁, next, ok⟩ := bind_inv ok
  obtain ⟨_, c₂, low, ok⟩ := bind_inv ok
  obtain ⟨_, c₃, branch, ok⟩ := bind_inv ok
  obtain ⟨_, c₄, high, label⟩ := bind_inv ok
  have opens : Paced (fun name => name = here ∨ False) c c₄ :=
    (Paced.of_still still_nextHere next).trans ((Paced.of_still (.emitStill rfl _) low).trans
      ((Paced.of_branch rfl branch).trans (.of_still (.emitStill rfl _) high)))
  exact opens.closedBy label

theorem decrementWide_paced (ok : decrementWide v scope c = .ok u d) :
    Paced (fun _ => False) c d := by
  obtain ⟨here, c₁, next, ok⟩ := bind_inv ok
  have begins : Paced (fun _ => False) c c₁ := .of_still still_nextHere next
  refine begins.trans (keepingA_paced (fun c d u ok => ?_) ok)
  obtain ⟨_, c₂, load, ok⟩ := bind_inv ok
  obtain ⟨_, c₃, branch, ok⟩ := bind_inv ok
  obtain ⟨_, c₄, high, ok⟩ := bind_inv ok
  obtain ⟨_, c₅, label, low⟩ := bind_inv ok
  have opens : Paced (fun name => name = here ∨ False) c c₄ :=
    (Paced.of_still (.emitStill rfl _) load).trans
      ((Paced.of_branch rfl branch).trans (.of_still (.emitStill rfl _) high))
  exact (opens.closedBy label).trans (.of_still (.emitStill rfl _) low)

theorem stepWide_paced (ok : stepWide v increments scope c = .ok u d) :
    Paced (fun _ => False) c d := by
  unfold stepWide at ok
  split at ok
  · cases ok
  · split at ok
    · exact incrementWide_paced ok
    · exact decrementWide_paced ok

theorem settles_step (ok : step e increments scope c = .ok u d) :
    Settles scope (.firm {.step e increments}) c d := by
  have paced : Paced (fun _ => False) c d := by
    obtain ⟨_, _, ⟨⟩, ok⟩ := bind_inv ok
    cases wide : wideVariable? scope.symbols e with
    | some v =>
      rw [wide] at ok
      exact stepWide_paced ok
    | none =>
      rw [wide] at ok
      exact .of_still ((Adds.still (.target e)).bind fun _ => .stepPlace _ _) ok
  obtain ⟨lines, added, closed⟩ := paced.code
  exact .of_block paced.high paced.deferred added (.step ok added) closed

theorem settles_store {value : Place} {b a : Context} (placed : target e scope b = .ok place a)
    (pass : b.high = c.high) (ok : store place value scope c = .ok u d) :
    Settles scope (.firm {.write e c.high}) c d :=
  Still.settles (.store place value) ok fun _ => .store placed pass ok

end Blocks

namespace Does

variable {scope : Scope} {high : Bool} {bill : Bill}

theorem step (e : Expr) (increments : Bool) :
    Does scope high (.firm {.step e increments}) (step e increments) :=
  fun _ _ _ _ ok => settles_step ok

theorem stepAll (deferred : List Deferred) :
    Does scope high (.firm (deferred.map fun d => Deed.step d.target d.increments : List Deed))
      (stepAll deferred) := by
  induction deferred with
  | nil => exact .of_hushed (.pure _)
  | cons d rest ih =>
    refine (Does.bind (.step d.target d.increments) fun _ => ih).within ⟨rfl, ?_, id⟩
    exact fun _ => id

theorem flush : Does scope high 0 flush := by
  intro c u d pass ok
  obtain ⟨_, _, ⟨⟩, ok⟩ := bind_inv ok
  obtain ⟨_, _, ⟨⟩, ok⟩ := bind_inv ok
  have settled := Does.withHigh (.stepAll c.deferred) { c with deferred := [] } u d pass ok
  obtain ⟨code, sure, unsure, added, shows, balance, doubt⟩ := settled.code
  refine ⟨settled.high, fun x waiting => ?_, code, sure, unsure, added, shows, ?_,
    fun x inside => ?_⟩
  · exact (settled.waits x waiting).elim (fun none => absurd none (Multiset.notMem_zero x)) .inr
  · rw [balance]
    exact add_comm 0 _
  · cases (doubt x inside).1

theorem endStatement : Does scope high 0 endStatement :=
  .first .flush fun _ => .bind (.setAccInUse _) fun _ => .setScratchInUse _

theorem stores (e : Expr) (value : Place) {α : Type} {rest : Place → Gen α}
    (hushed : ∀ place, Hushed (rest place)) :
    Does scope high (.firm {.write e high}) (do
      let place ← target e
      Lowering.store place value
      rest place) := by
  rintro b a d rfl ok
  obtain ⟨place, c, found, ok⟩ := bind_inv ok
  obtain ⟨u, c', stored, ok⟩ := bind_inv ok
  have finds := Does.of_hushed (.target e) b place c rfl found
  have writes := settles_store found finds.high.symm stored
  have ends := Does.of_hushed (hushed place) c' a d rfl ok
  have all := finds.trans (writes.trans ends)
  rwa [Bill.zero_add, Bill.add_zero, finds.high] at all

end Does

section Values

theorem does_bothValues (left : Does scope high a lhs.value) (right : Does scope high b rhs.value) :
    Does scope high (a + b) (bothValues lhs rhs) := by
  refine .later .accInUse fun outer => .bind left fun l => .ite ?_ ?_
  · exact .later (.setAccInUse _) fun _ =>
      .first right fun _ => .bind (.setAccInUse _) fun _ => .pure _
  · exact .first right fun _ => .bind (.setAccInUse _) fun _ => .pure _

theorem does_arith (op : Op) (left : Does scope high a lhs.value)
    (right : Does scope high b rhs.value) : Does scope high (a + b) (arith op lhs rhs) := by
  refine .later (.checkHighArith op _ _) fun _ =>
    .first (does_bothValues left right) fun (l, r) => ?_
  dsimp only
  split
  · split
    · exact .pure _
    · exact .fail _
  · refine .bind_of (Built.yields_instructionOf op) (.instructionOf op) fun m mild => .check ?_
    refine .bind (.freeAccumulator op l r) fun _ => .bind (.freeIndexRegister op _ _) fun _ => ?_
    exact .apply op mild _ _

theorem does_shiftBits (op : Op) (amount : Int64) (left : Does scope high a lhs.value) :
    Does scope high a (shiftBits op lhs amount) := by
  unfold shiftBits
  refine .check <| .later .accInUse fun outer => .first left fun l => ?_
  have work (pushed : Bool) : Hushed (do
      shiftTimes op l.signed amount.toInt.toNat
      restore pushed l.signed) :=
    .bind (.shiftTimes _ _ _) fun _ => .restore _ _
  split
  · exact .pure _
  · refine .bind .inHigh fun _ => .check <| .ite (.pure _) ?_
    refine .ite (.bind (.save _) fun _ => .bind (.loadA _) fun _ => ?_) ?_
    · exact work _
    · exact work _

end Values

/-- Has the expression the form of a target? -/
def isTarget : Expr → Bool
  | .var _ _ => true
  | .unary .deref _ => true
  | _ => false

theorem isTarget_of_wideVariable? {table : Table}
    (wide : (wideVariable? table e).isSome = true) : isTarget e = true := by
  unfold wideVariable? at wide
  split at wide
  · rfl
  · cases wide

theorem isTarget_of_target
    (ok : target e scope c = .ok place d) : isTarget e = true := by
  unfold target at ok
  split at ok
  · rfl
  · rfl
  · cases ok

/-- The deeds of a shift: by a whole byte to the left it asks for the other byte of its operand. -/
def shifted (table : Table) (op : Op) (amount : Expr) (deeds : Bool → Multiset Deed) (high : Bool) :
    Multiset Deed :=
  if op = .shl ∧ constant? table amount = some 8 then if high then deeds false else 0
  else deeds high

/-- The deeds of a shift, or of another operation on two operands. -/
def joined (table : Table) (op : Op) (rhs : Expr) (left right : Bool → Multiset Deed)
    (high : Bool) : Multiset Deed :=
  if op = .shl ∨ op = .shr then shifted table op rhs left high else left high + right high

section Computing

variable {left right : Bool → Multiset Deed} {looseL looseR : Multiset Deed}
  {branchesL branchesR : Bool}

theorem does_shift (op : Op) (amount : Expr)
    (does : ∀ high, Does scope high ⟨left high, looseL, branchesL⟩ lhs.value)
    (plain : isTarget lhs.expr = true → ∀ high, left high = 0) :
    Does scope high ⟨shifted scope.symbols op amount left high, looseL, branchesL⟩
      (shift op lhs amount) := by
  refine .constant ?_
  unfold shifted
  cases known : constant? scope.symbols amount with
  | none => exact .fail _
  | some n =>
    dsimp only
    by_cases whole : n = 8
    · subst whole
      rw [if_pos rfl]
      by_cases isLeft : op = .shl
      · rw [if_pos isLeft, if_pos ⟨isLeft, rfl⟩]
        refine .inHigh ?_
        cases high with
        | true => exact .withHigh (does false)
        | false => exact (Does.of_hushed (.pure _)).within (.zero rfl)
      · rw [if_neg isLeft, if_neg fun both => isLeft both.1]
        refine .symbols ?_
        cases wide : wideVariable? scope.symbols lhs.expr with
        | none => exact does_shiftBits .shr 8 (does high)
        | some v =>
          have isTarget : isTarget lhs.expr = true :=
            isTarget_of_wideVariable? (Option.isSome_iff_exists.mpr ⟨v, wide⟩)
          refine (Does.of_hushed ?_).within (.zero (plain isTarget high))
          exact .bind .inHigh fun _ => .ite (.pure _) (.pure _)
    · rw [if_neg whole, if_neg fun both => whole (Option.some.inj both.2)]
      exact does_shiftBits op n (does high)

theorem does_arithOrShift (op : Op)
    (doesL : ∀ high, Does scope high ⟨left high, looseL, branchesL⟩ lhs.value)
    (doesR : ∀ high, Does scope high ⟨right high, looseR, branchesR⟩ rhs.value)
    (plain : isTarget lhs.expr = true → ∀ high, left high = 0) :
    Does scope high
      ⟨joined scope.symbols op rhs.expr left right high, looseL + looseR, branchesL || branchesR⟩
      (arithOrShift op lhs rhs) := by
  unfold arithOrShift joined
  by_cases isShift : op = .shl ∨ op = .shr
  · rw [if_pos isShift, if_pos (by simpa using isShift)]
    exact (does_shift op rhs.expr doesL plain).within (.left _ ⟨0, looseR, branchesR⟩)
  · rw [if_neg isShift, if_neg (by simpa using isShift)]
    exact does_arith op (doesL high) (doesR high)

end Computing

section Comparing

variable {targets : String → Prop} {target : String}

theorem tests_branchOn (op : Op) (signed : Bool) (inside : targets target) :
    Tests scope high targets 0 (branchOn op signed target) := by
  have less : (if signed then Mnemonic.bmi else .bcc).isBranch = true := by cases signed <;> rfl
  have notLess : (if signed then Mnemonic.bpl else .bcs).isBranch = true := by cases signed <;> rfl
  unfold branchOn
  dsimp only
  split
  · exact .emitBranch inside rfl
  · exact .emitBranch inside rfl
  · exact .emitBranch inside less
  · exact .emitBranch inside notLess
  · exact .first (.emitBranch inside less) fun _ => .emitBranch inside rfl
  · intro c u d pass ok
    obtain ⟨here, c₁, next, ok⟩ := bind_inv ok
    obtain ⟨_, c₂, past, ok⟩ := bind_inv ok
    obtain ⟨_, c₃, branch, label⟩ := bind_inv ok
    have taken : Hushed nextHere := .bind .nextIf fun _ => .pure _
    have names : Tests scope high (fun name => name = here ∨ targets name) 0 nextHere :=
      .of_hushed taken
    have skips :
        Tests scope high (fun name => name = here ∨ targets name) 0 (emitBranch .beq here) :=
      .emitBranch (.inl rfl) rfl
    have goes : Tests scope high (fun name => name = here ∨ targets name) 0
        (emitBranch (if signed then .bpl else .bcs) target) :=
      .emitBranch (.inr inside) notLess
    have first := names c here c₁ pass next
    have second := skips c₁ _ c₂ (first.high.trans pass) past
    have third := goes c₂ _ c₃ (second.high.trans (first.high.trans pass)) branch
    exact ((first.trans second).trans third).closedBy label
  · exact .throw _

theorem does_settle (c : Comparison) (outer : Bool) : Does scope high 0 (c.settle outer) := by
  have finish : Does scope high 0 (do flush; setAccInUse outer) :=
    .first .flush fun _ => .setAccInUse _
  exact .ite (.later (.setAccInUse _) fun _ => finish) finish

theorem does_answer (c : Comparison) (signed : Bool) : Does scope high 0 (c.answer signed) := by
  refine .later .accInUse fun outer => .later c.built_arrange fun c => ?_
  refine .later (c.built_stage signed) fun (c, shown) => ?_
  refine .first (does_settle c outer) fun _ => .ite ?_ (.pure _)
  exact .bind c.built_compareSides fun _ => .pure _

theorem tests_emit (c : Comparison) (negate : Bool) (inside : targets target) :
    Tests scope high targets 0 (c.emit target negate) :=
  .first (does_answer c _).tests fun _ => tests_branchOn _ _ inside

theorem tests_compareValues (op : Op) (l r : Place) (negate : Bool) (inside : targets target) :
    Tests scope high targets 0 (compareValues op l r target negate) := by
  unfold compareValues
  refine .check ?_
  dsimp only
  split
  · exact .ite (.emitJump inside) (.of_hushed (.pure _))
  · exact tests_emit _ negate inside
  · exact tests_emit _ negate inside

theorem tests_compare (op : Op) (left : Does scope false a lhs.value)
    (right : Does scope false b rhs.value) (negate : Bool) (inside : targets target) :
    Tests scope high targets (a.deeds + b.deeds) (compare op lhs rhs target negate) := by
  refine .later (.isWide _) fun _ => .check <| .later (.isWide _) fun _ => .check ?_
  refine .withHigh (.first (does_bothValues left right).tests fun _ => ?_)
  exact tests_compareValues op _ _ negate inside

end Comparing

/-- The test has these deeds in every pass, and goes only to its target. -/
def Test.Costs (scope : Scope) (deeds : Multiset Deed) (test : Test) : Prop :=
  ∀ high targets target negate, targets target →
    Tests scope high targets deeds (test target negate)

section Choosing

variable {deeds : Multiset Deed} {test : Test} {cond : Expr} {a b : Gen Place} {left right : Bill}

theorem costs_unlessConstant (costs : test.Costs scope deeds)
    (none : (constant? scope.symbols cond).isSome = true → deeds = 0) :
    (unlessConstant cond test).Costs scope deeds := by
  intro high targets target negate inside
  unfold unlessConstant
  refine fun c u d pass ok => ?_
  obtain ⟨_, _, ⟨⟩, ok⟩ := bind_inv ok
  cases known : constant? scope.symbols cond with
  | some n =>
    rw [known] at ok none
    rw [none rfl]
    have jumps : Tests scope high targets 0
        (if (n != 0) != negate then emitJump target else pure ()) :=
      .ite (.emitJump inside) (.of_hushed (.pure _))
    exact jumps c u d pass ok
  | none =>
    rw [known] at ok
    exact costs high targets target negate inside c u d pass ok

/-- Control that takes one of two ways meets again behind them. -/
theorem does_choose_unknown (unknown : constant? scope.symbols cond = none)
    (costs : test.Costs scope deeds) (negate : Bool) (first : Does scope high left a)
    (second : Does scope high right b) :
    Does scope high (.loosely (deeds + left.deeds + right.deeds))
      (choose cond test negate a b) := by
  refine .constant ?_
  rw [unknown]
  intro c place d pass ok
  obtain ⟨outer, c₁, begins, ok⟩ := bind_inv ok
  obtain ⟨_, c₂, saves, ok⟩ := bind_inv ok
  obtain ⟨_, c₃, frees, ok⟩ := bind_inv ok
  obtain ⟨n, c₄, counts, ok⟩ := bind_inv ok
  obtain ⟨_, c₅, tested, ok⟩ := bind_inv ok
  obtain ⟨va, c₆, valueA, ok⟩ := bind_inv ok
  obtain ⟨_, c₇, loadsA, ok⟩ := bind_inv ok
  obtain ⟨_, c₈, jumps, ok⟩ := bind_inv ok
  obtain ⟨_, c₉, labelElse, ok⟩ := bind_inv ok
  obtain ⟨vb, c₁₀, valueB, ok⟩ := bind_inv ok
  obtain ⟨_, c₁₁, loadsB, ok⟩ := bind_inv ok
  obtain ⟨_, c₁₂, labelEnd, ok⟩ := bind_inv ok
  have begun : Tries scope (fun name => name = (Label.otherwise n).text ∨
      (name = (Label.ifEnd n).text ∨ False)) 0 c c₄ :=
    ((Tries.refl.quietly .accInUse begins).quietly (.save outer) saves).quietly
      (.setAccInUse _) frees |>.quietly .nextIf counts
  have decided := begun.trans
    (costs high _ _ _ (.inl rfl) c₄ _ c₅ (begun.high.trans pass) tested)
  have one := (decided.trans (first.tests c₅ va c₆ (decided.high.trans pass) valueA)).quietly
    (.loadA va) loadsA
  have leaves := one.trans
    (Tests.emitJump (.inr (.inl rfl)) c₇ _ c₈ (one.high.trans pass) jumps)
  have met := leaves.closedBy labelElse
  have other := (met.trans (second.tests c₉ vb c₁₀ (met.high.trans pass) valueB)).quietly
    (.loadA vb) loadsB
  have settled := (other.closedBy labelEnd).settles
  have ends : Hushed (do setAccInUse outer; restore outer (va.signed || vb.signed)) :=
    .bind (.setAccInUse _) fun _ => .restore _ _
  have all := settled.trans (Does.of_hushed ends c₁₂ place d (settled.high.trans pass) ok)
  rw [Bill.add_zero] at all
  simpa only [zero_add, add_zero] using all

theorem does_truthValue (costs : test.Costs scope deeds)
    (none : (constant? scope.symbols cond).isSome = true → deeds = 0) (negate : Bool) :
    Does scope high (.loosely deeds) (truthValue cond test negate) := by
  refine .constant ?_
  cases known : constant? scope.symbols cond with
  | some n =>
    rw [known] at none
    exact (Does.of_hushed (.pure _)).within (.zero (none rfl))
  | none =>
    have number (n : Int64) : Does scope high 0 (pure (.immediate n) : Gen Place) :=
      .of_hushed (.pure _)
    have chosen := does_choose_unknown known costs negate (number 1) (number 0)
    rwa [show (0 : Bill).deeds = 0 from rfl, add_zero, add_zero] at chosen

variable {lhs rhs : Lowered} {more : Multiset Deed}

section

variable (costsL : lhs.test.Costs scope deeds) (costsR : rhs.test.Costs scope more)

include costsL costsR

theorem costs_bothTests : Test.Costs scope (deeds + more) (bothTests lhs rhs) := by
  intro high targets target negate inside c u d pass ok
  obtain ⟨n, c₁, counts, ok⟩ := bind_inv ok
  obtain ⟨_, c₂, testL, ok⟩ := bind_inv ok
  obtain ⟨_, c₃, testR, label⟩ := bind_inv ok
  have begun : Tries scope (fun name => name = (Label.pastCond n).text ∨ targets name) 0 c c₁ :=
    Tries.refl.quietly .nextIf counts
  have one := begun.trans (costsL high _ _ _ (.inl rfl) c₁ _ c₂ (begun.high.trans pass) testL)
  have two := one.trans (costsR high _ _ _ (.inr inside) c₂ _ c₃ (one.high.trans pass) testR)
  rw [zero_add] at two
  exact two.closedBy label

theorem costs_eitherTest : Test.Costs scope (deeds + more) (eitherTest lhs rhs) :=
  fun high targets target negate inside =>
    .bind (costsL high targets target negate inside) fun _ =>
      costsR high targets target negate inside

theorem costs_andTest : Test.Costs scope (deeds + more) (andTest lhs rhs) :=
  fun high targets target negate inside =>
    .ite (costs_eitherTest costsL costsR high targets target negate inside) <|
      costs_bothTests costsL costsR high targets target negate inside

theorem costs_orTest : Test.Costs scope (deeds + more) (orTest lhs rhs) :=
  fun high targets target negate inside =>
    .ite (costs_bothTests costsL costsR high targets target negate inside) <|
      costs_eitherTest costsL costsR high targets target negate inside

end

end Choosing

end Backend6502.Lowering
