import Backend6502.Proofs.DeedAssignments
import Backend6502.Proofs.ByteExpressions

/-!
# Deeds of an evaluation

What one evaluation of an expression does, and what a pass for one byte of it does. The two differ:
a call and a step are left out of the pass for high bytes, while a condition does everything again.
So an expression that is evaluated in two passes does everything once only if its conditions do
nothing.
-/

namespace Backend6502

open Source (Op Expr)
open Symbols (Table)

def Source.Op.decides (op : Op) : Bool :=
  op.isCompare || op == .logAnd || op == .logOr

namespace Lowering

variable {table : Table} {op : Op} {lhs rhs : Expr} {left right : Bool → Multiset Deed}
  {high both : Bool} {x : Deed} {deeds : Multiset Deed}

def written (table : Table) (op : Op) (lhs rhs : Expr) : Multiset Deed :=
  if isStep table op rhs then {.step lhs (op == .addAssign)}
  else if (wideVariable? table lhs).isSome then {.write lhs false} + {.write lhs true}
  else {.write lhs false}

/-- What one evaluation of an expression does; of two arms, one of which is chosen, all of it. -/
def deedsOf (table : Table) : Expr → Multiset Deed
  | .incDec op operand => deedsOf table operand + {.step operand op.increments}
  | .call name [arg] =>
    if isBuiltin name then builtin name arg (deedsOf table arg) else {.call name}
  | .call name _ => if isBuiltin name then 0 else {.call name}
  | .unary .deref _ => 0
  | .unary _ operand => deedsOf table operand
  | .binary .choice cond (.binary _ a b) =>
    match constant? table cond with
    | some n => if n ≠ 0 then deedsOf table a else deedsOf table b
    | none => deedsOf table cond + deedsOf table a + deedsOf table b
  | .binary op lhs rhs =>
    deedsOf table lhs + deedsOf table rhs + if op.isAssign then written table op lhs rhs else 0
  | _ => 0

/-- What the pass for one byte of an expression does. -/
def passDeeds (table : Table) : Expr → Bool → Multiset Deed
  | .incDec op operand, high => stepped op operand (passDeeds table operand) high
  | .call name [arg], high =>
    if high then 0
    else if isBuiltin name then builtin name arg (passDeeds table arg false)
    else {.call name}
  | .call name _, high => if high || isBuiltin name then 0 else {.call name}
  | .unary .deref _, _ => 0
  | .unary .not operand, _ => passDeeds table operand false
  | .unary _ operand, high => passDeeds table operand high
  | .binary .choice cond (.binary _ a b), high =>
    match constant? table cond with
    | some n => if n ≠ 0 then passDeeds table a high else passDeeds table b high
    | none => passDeeds table cond false + passDeeds table a high + passDeeds table b high
  | .binary op lhs rhs, high =>
    if op.isAssign then assigned table op lhs rhs (passDeeds table lhs) (passDeeds table rhs) high
    else if op.decides then passDeeds table lhs false + passDeeds table rhs false
    else joined table op rhs (passDeeds table lhs) (passDeeds table rhs) high
  | _, _ => 0

/-- The deeds that may be missed if control takes several ways: under a condition, or put off. -/
def looseDeeds (table : Table) : Expr → Multiset Deed
  | .incDec op operand =>
    if op.isPostfix then .step operand op.increments ::ₘ looseDeeds table operand
    else looseDeeds table operand
  | .call _ [arg] => looseDeeds table arg
  | .unary .not operand => deedsOf table operand
  | .unary _ operand => looseDeeds table operand
  | .binary .choice cond (.binary _ a b) =>
    match constant? table cond with
    | some n => if n ≠ 0 then looseDeeds table a else looseDeeds table b
    | none => deedsOf table cond + deedsOf table a + deedsOf table b
  | .binary op lhs rhs =>
    if op.decides then deedsOf table lhs + deedsOf table rhs
    else looseDeeds table lhs + looseDeeds table rhs
  | _ => 0

def branches (table : Table) : Expr → Bool
  | .incDec _ operand => branches table operand
  | .call _ [arg] => branches table arg
  | .unary op operand => op == .not || branches table operand
  | .binary .choice cond (.binary _ a b) =>
    match constant? table cond with
    | some n => if n ≠ 0 then branches table a else branches table b
    | none => true
  | .binary op lhs rhs => op.decides || branches table lhs || branches table rhs
  | _ => false

/--
Does the code do everything once? If `both` is set, it has a pass for each of the bytes, and
otherwise one for the low byte only.
-/
def isOnce (table : Table) : Expr → Bool → Bool
  | .incDec _ operand, _ => isTarget operand
  | .call name [arg], _ => name != "load" || isOnce table arg false
  | .unary .deref _, _ => true
  | .unary .not operand, both =>
    if both then (deedsOf table operand).card == 0 else isOnce table operand false
  | .unary _ operand, both => isOnce table operand both
  | .binary .choice cond (.binary _ a b), both =>
    match constant? table cond with
    | some n => if n ≠ 0 then isOnce table a both else isOnce table b both
    | none =>
      (if both then (deedsOf table cond).card == 0 else isOnce table cond false) &&
        isOnce table a both && isOnce table b both
  | .binary op lhs rhs, both =>
    if op.isAssign then
      isTarget lhs && (!(op == .shlAssign || op == .shrAssign) || (constant? table rhs).isSome) &&
        (isStep table op rhs ||
          if (wideVariable? table lhs).isSome then !both && isOnce table rhs true
          else isOnce table rhs false)
    else if op.decides then
      (if both then (deedsOf table lhs).card == 0 else isOnce table lhs false) &&
        if both then (deedsOf table rhs).card == 0 else isOnce table rhs false
    else if op = .shl ∨ op = .shr then
      (constant? table rhs).isSome &&
        if op = .shl ∧ constant? table rhs = some 8 then
          if both then isOnce table lhs false else (deedsOf table lhs).card == 0
        else isOnce table lhs both
    else isOnce table lhs both && isOnce table rhs both
  | _, _ => true

section Deeds

theorem mem_builtin {name : String} {arg : Expr} {more : Multiset Deed}
    (implies : x ∈ deeds → x ∈ more) (inside : x ∈ builtin name arg deeds) :
    x ∈ builtin name arg more := by
  unfold builtin at inside ⊢
  split
  · next load => exact implies (by rwa [if_pos load] at inside)
  · next other => rwa [if_neg other] at inside

theorem mem_shifted (inside : x ∈ shifted table op rhs left high) : ∃ pass, x ∈ left pass := by
  unfold shifted at inside
  split at inside
  · split at inside
    · exact ⟨false, inside⟩
    · exact absurd inside (Multiset.notMem_zero x)
  · exact ⟨high, inside⟩

theorem mem_joined (inside : x ∈ joined table op rhs left right high) :
    (∃ pass, x ∈ left pass) ∨ ∃ pass, x ∈ right pass := by
  unfold joined at inside
  split at inside
  · exact .inl (mem_shifted inside)
  · exact (Multiset.mem_add.mp inside).imp (⟨high, ·⟩) (⟨high, ·⟩)

theorem mem_assignedByte (inside : x ∈ assignedByte table op lhs rhs left right high) :
    (∃ pass, x ∈ left pass) ∨ (∃ pass, x ∈ right pass) ∨
      if !high && isStep table op rhs then x = .step lhs (op == .addAssign)
      else x = .write lhs high := by
  unfold assignedByte at inside
  split at inside
  · next steps =>
    rw [if_pos steps]
    exact .inr (.inr (Multiset.mem_singleton.mp inside))
  · next writes =>
    rw [if_neg writes]
    rcases Multiset.mem_add.mp inside with operands | same
    · cases compound : op.compound? with
      | none =>
        rw [compound] at operands
        exact .inr (.inl ⟨high, operands⟩)
      | some base =>
        rw [compound] at operands
        exact (mem_joined operands).imp_right .inl
    · exact .inr (.inr (Multiset.mem_singleton.mp same))

/-- Every pass of an assignment does what its operands do, or writes its target. -/
theorem mem_assigned (inside : x ∈ assigned table op lhs rhs left right high) :
    (∃ pass, x ∈ left pass) ∨ (∃ pass, x ∈ right pass) ∨ x ∈ written table op lhs rhs := by
  have byte {pass : Bool} (inside : x ∈ assignedByte table op lhs rhs left right pass)
      (late : pass = true → (wideVariable? table lhs).isSome = true ∧ isStep table op rhs = false) :
      (∃ pass, x ∈ left pass) ∨ (∃ pass, x ∈ right pass) ∨ x ∈ written table op lhs rhs := by
    refine (mem_assignedByte inside).imp_right (.imp_right fun same => ?_)
    unfold written
    cases pass with
    | true =>
      obtain ⟨wide, writes⟩ := late rfl
      rw [writes, if_neg Bool.false_ne_true, if_pos wide, same]
      exact Multiset.mem_add.mpr (.inr (Multiset.mem_singleton_self _))
    | false =>
      cases stepping : isStep table op rhs with
      | true =>
        rw [stepping] at same
        exact Multiset.mem_singleton.mpr same
      | false =>
        rw [stepping] at same
        rw [same, if_neg Bool.false_ne_true]
        split
        · exact Multiset.mem_add.mpr (.inl (Multiset.mem_singleton_self _))
        · exact Multiset.mem_singleton_self _
  unfold assigned at inside
  dsimp only at inside
  split at inside
  · next wide =>
    split at inside
    · next stepping =>
      split at inside
      · exact .inl ⟨true, inside⟩
      · rw [written, if_pos stepping]
        exact .inr (.inr inside)
    · next writes =>
      have late (pass : Bool) : pass = true →
          (wideVariable? table lhs).isSome = true ∧ isStep table op rhs = false :=
        fun _ => ⟨wide, eq_false_of_ne_true writes⟩
      split at inside
      · exact byte inside (late true)
      · rcases Multiset.mem_add.mp inside with low | high
        · exact byte low (late false)
        · exact byte high (late true)
  · split at inside
    · exact .inl ⟨true, inside⟩
    · exact byte inside nofun

end Deeds

variable {e : Expr}

theorem deedsOf_of_constant (known : (constant? table e).isSome = true) : deedsOf table e = 0 := by
  fun_induction constant? table e with
  | case1 | case2 => rfl
  | case3 op operand n value ih =>
    rw [value] at ih
    cases op <;> first | rfl | exact ih rfl
  | case5 cond op a b n value nonzero _ ih =>
    rw [deedsOf, value]
    exact (if_pos nonzero).trans (ih known)
  | case6 cond op a b n value zero _ ih =>
    rw [deedsOf, value]
    exact (if_neg zero).trans (ih known)
  | case9 op lhs rhs other others l r right left ihL ihR =>
    rw [left] at ihL
    rw [right] at ihR
    have plain : op.isAssign = false := by simp_all
    rw [deedsOf, ihL rfl, ihR rfl, plain]
    · rfl
    · exact other
  | case4 | case7 | case8 | case10 | case11 => cases known

/-- A pass does nothing that an evaluation does not do. -/
theorem mem_deedsOf (inside : x ∈ passDeeds table e high) :
    x ∈ deedsOf table e := by
  fun_induction deedsOf table e generalizing high with
  | case1 op operand ih =>
    cases high with
    | true => exact Multiset.mem_add.mpr (.inl (ih inside))
    | false => exact Multiset.mem_add.mpr (.inr inside)
  | case2 name arg isBuiltin ih =>
    cases high with
    | true => exact absurd inside (Multiset.notMem_zero x)
    | false =>
      have inside : x ∈ builtin name arg (passDeeds table arg false) := by
        rwa [passDeeds, if_neg Bool.false_ne_true, if_pos isBuiltin] at inside
      exact mem_builtin ih inside
  | case3 name arg notBuiltin =>
    rw [passDeeds, if_neg notBuiltin] at inside
    cases high with
    | true => exact absurd inside (Multiset.notMem_zero x)
    | false => exact inside
  | case4 name args several isBuiltin =>
    rw [passDeeds, isBuiltin, Bool.or_true] at inside
    · exact inside
    · exact several
  | case5 name args several notBuiltin =>
    rw [passDeeds, eq_false_of_ne_true notBuiltin, Bool.or_false] at inside
    · cases high with
      | true => exact absurd inside (Multiset.notMem_zero x)
      | false => exact inside
    · exact several
  | case6 operand => exact inside
  | case7 op operand notDeref ih => cases op <;> first | exact ih inside | exact absurd rfl notDeref
  | case8 cond op a b n value nonzero ih =>
    rw [passDeeds, value] at inside
    dsimp only at inside
    rw [if_pos nonzero] at inside
    exact ih inside
  | case9 cond op a b n value zero ih =>
    rw [passDeeds, value] at inside
    dsimp only at inside
    rw [if_neg zero] at inside
    exact ih inside
  | case10 cond op a b unknown ihC ihA ihB =>
    rw [passDeeds, unknown] at inside
    rcases Multiset.mem_add.mp inside with inside | inside
    · rcases Multiset.mem_add.mp inside with inside | inside
      · exact Multiset.mem_add.mpr (.inl (Multiset.mem_add.mpr (.inl (ihC inside))))
      · exact Multiset.mem_add.mpr (.inl (Multiset.mem_add.mpr (.inr (ihA inside))))
    · exact Multiset.mem_add.mpr (.inr (ihB inside))
  | case11 op lhs rhs other ihL ihR =>
    have operands (known : (∃ pass, x ∈ passDeeds table lhs pass) ∨
        ∃ pass, x ∈ passDeeds table rhs pass) : x ∈ deedsOf table lhs + deedsOf table rhs :=
      Multiset.mem_add.mpr (known.imp (fun ⟨_, inside⟩ => ihL inside) fun ⟨_, inside⟩ => ihR inside)
    rw [passDeeds] at inside
    · split at inside
      · next assigns =>
        rw [if_pos assigns]
        rcases mem_assigned inside with left | right | writes
        · exact Multiset.mem_add.mpr (.inl (operands (.inl left)))
        · exact Multiset.mem_add.mpr (.inl (operands (.inr right)))
        · exact Multiset.mem_add.mpr (.inr writes)
      · refine Multiset.mem_add.mpr (.inl (operands ?_))
        split at inside
        · exact (Multiset.mem_add.mp inside).imp (⟨false, ·⟩) (⟨false, ·⟩)
        · exact mem_joined inside
    · exact other
  | case12 t notStep notCall notCalls notDeref notUnary notChoice notBinary =>
    cases t with
    | incDec op operand => exact (notStep op operand rfl).elim
    | call name args => exact (notCalls name args rfl).elim
    | unary op operand => exact (notUnary op operand rfl).elim
    | binary op lhs rhs => exact (notBinary op lhs rhs rfl).elim
    | _ => exact inside

theorem passDeeds_eq_zero (none : deedsOf table e = 0) (high : Bool) :
    passDeeds table e high = 0 := by
  refine Multiset.eq_zero_of_forall_notMem fun x inside => ?_
  have known := mem_deedsOf inside
  rw [none] at known
  exact Multiset.notMem_zero x known

theorem deedsOf_of_isTarget (isTarget : isTarget e = true) : deedsOf table e = 0 := by
  unfold Lowering.isTarget at isTarget
  split at isTarget
  · rfl
  · rfl
  · cases isTarget

/-- What is done by the passes that there are: those for both bytes, or that for the low one. -/
def inPasses (deeds : Bool → Multiset Deed) (both : Bool) : Multiset Deed :=
  if both then deeds false + deeds true else deeds false

section Passes

theorem inPasses_add :
    inPasses (fun high => left high + right high) both =
      inPasses left both + inPasses right both := by
  cases both with
  | true => exact add_add_add_comm _ _ _ _
  | false => rfl

/-- What a test does, it does in every pass: only one that does nothing may be in both. -/
theorem inPasses_tested (tested : (if both then (deedsOf table e).card == 0
      else isOnce table e false) = true)
    (once : isOnce table e false = true → passDeeds table e false = deedsOf table e) :
    inPasses (fun _ => passDeeds table e false) both = deedsOf table e := by
  cases both with
  | true =>
    have none : deedsOf table e = 0 := Multiset.card_eq_zero.mp (eq_of_beq tested)
    rw [none]
    change passDeeds table e false + passDeeds table e false = 0
    rw [passDeeds_eq_zero none, add_zero]
  | false => exact once tested

/-- A byte of an assignment, unless one is added or subtracted in place. -/
theorem assignedByte_of_target
    (plain : ∀ high, left high = 0) (writes : isStep table op rhs = false)
    (known : op = .shlAssign ∨ op = .shrAssign → ∀ high, right high = 0) :
    assignedByte table op lhs rhs left right high = right high + {.write lhs high} := by
  rw [assignedByte, writes, Bool.and_false, if_neg Bool.false_ne_true]
  congr 1
  cases compound : op.compound? with
  | none => rfl
  | some base =>
    rw [Option.elim_some]
    by_cases isShift : base = .shl ∨ base = .shr
    · have shifts : op = .shlAssign ∨ op = .shrAssign := by
        rcases isShift with rfl | rfl <;> cases op <;> cases compound <;> simp
      rw [joined_of_target isShift plain, known shifts]
    · rw [joined, if_neg isShift, plain, zero_add]

theorem inPasses_low :
    inPasses (fun high => if high then 0 else deeds) both = deeds := by
  cases both with
  | true => exact add_zero deeds
  | false => rfl

end Passes

section Operators

theorem inPasses_assigned
    (ih : ∀ both, isOnce table rhs both = true →
      inPasses (passDeeds table rhs) both = deedsOf table rhs)
    (isTarget : isTarget lhs = true)
    (shift : (!(op == .shlAssign || op == .shrAssign) || (constant? table rhs).isSome) = true)
    (once : (isStep table op rhs || if (wideVariable? table lhs).isSome
      then !both && isOnce table rhs true else isOnce table rhs false) = true) :
    inPasses (assigned table op lhs rhs (passDeeds table lhs) (passDeeds table rhs)) both =
      deedsOf table rhs + written table op lhs rhs := by
  have plain : ∀ high, passDeeds table lhs high = 0 :=
    passDeeds_eq_zero (deedsOf_of_isTarget isTarget)
  cases stepping : isStep table op rhs with
  | true =>
    have one : constant? table rhs = some 1 := by
      obtain ⟨base, -, adds⟩ := (Option.any_eq_true _ _).mp stepping
      exact eq_of_beq (Bool.and_eq_true_iff.mp adds).2
    have same : assigned table op lhs rhs (passDeeds table lhs) (passDeeds table rhs) =
        fun high => if high then 0 else {.step lhs (op == .addAssign)} := by
      have low : assignedByte table op lhs rhs (passDeeds table lhs) (passDeeds table rhs) false =
          {.step lhs (op == .addAssign)} := by
        rw [assignedByte, stepping]
        rfl
      funext high
      rw [assigned, low, stepping, plain]
      cases high <;> cases (wideVariable? table lhs).isSome <;> rfl
    rw [same, inPasses_low, written, if_pos stepping, deedsOf_of_constant (one ▸ rfl), zero_add]
  | false =>
    have known (shifts : op = .shlAssign ∨ op = .shrAssign) (high : Bool) :
        passDeeds table rhs high = 0 := by
      refine passDeeds_eq_zero (deedsOf_of_constant ?_) high
      rcases shifts with rfl | rfl <;> exact shift
    have byte (high : Bool) : assignedByte table op lhs rhs (passDeeds table lhs)
        (passDeeds table rhs) high = passDeeds table rhs high + {.write lhs high} :=
      assignedByte_of_target plain stepping known
    rw [stepping, Bool.false_or] at once
    unfold assigned written
    simp only [stepping, byte, plain]
    cases wide : (wideVariable? table lhs).isSome with
    | true =>
      rw [wide] at once
      obtain ⟨alone, twice⟩ := Bool.and_eq_true_iff.mp once
      cases both with
      | true => cases alone
      | false =>
        have all := ih true twice
        change passDeeds table rhs false + _ + (passDeeds table rhs true + _) = _
        rw [add_add_add_comm]
        exact congrArg (· + _) all
    | false =>
      rw [wide] at once
      exact inPasses_low.trans (congrArg (· + _) (ih false once))

theorem inPasses_joined
    (ihL : ∀ both, isOnce table lhs both = true →
      inPasses (passDeeds table lhs) both = deedsOf table lhs)
    (ihR : ∀ both, isOnce table rhs both = true →
      inPasses (passDeeds table rhs) both = deedsOf table rhs)
    (once : (if op = .shl ∨ op = .shr then
      (constant? table rhs).isSome &&
        if op = .shl ∧ constant? table rhs = some 8 then
          if both then isOnce table lhs false else (deedsOf table lhs).card == 0
        else isOnce table lhs both
      else isOnce table lhs both && isOnce table rhs both) = true) :
    inPasses (joined table op rhs (passDeeds table lhs) (passDeeds table rhs)) both =
      deedsOf table lhs + deedsOf table rhs := by
  unfold joined
  split at once
  · next isShift =>
    obtain ⟨known, once⟩ := Bool.and_eq_true_iff.mp once
    simp only [if_pos isShift, shifted]
    rw [deedsOf_of_constant known, add_zero]
    split at once
    · next whole =>
      simp only [if_pos whole]
      cases both with
      | true => exact (zero_add _).trans (ihL false once)
      | false => exact (Multiset.card_eq_zero.mp (eq_of_beq once)).symm
    · next part =>
      simp only [if_neg part]
      exact ihL both once
  · next other =>
    obtain ⟨onceL, onceR⟩ := Bool.and_eq_true_iff.mp once
    simp only [if_neg other]
    rw [inPasses_add, ihL both onceL, ihR both onceR]

end Operators

/-- The passes for an expression do what one evaluation does. -/
theorem inPasses_of_isOnce (once : isOnce table e both = true) :
    inPasses (passDeeds table e) both = deedsOf table e := by
  fun_induction deedsOf table e generalizing both with
  | case1 op operand ih =>
    have isTarget : isTarget operand = true := once
    have none : deedsOf table operand = 0 := deedsOf_of_isTarget isTarget
    have same : passDeeds table (.incDec op operand) =
        fun high => if high then 0 else {.step operand op.increments} := by
      funext high
      rw [passDeeds, stepped, passDeeds_eq_zero none]
    rw [same, inPasses_low, none, zero_add]
  | case2 name arg isBuiltin ih =>
    have same : passDeeds table (.call name [arg]) =
        fun high => if high then 0 else builtin name arg (passDeeds table arg false) := by
      funext high
      rw [passDeeds, if_pos isBuiltin]
    rw [same, inPasses_low]
    unfold builtin
    split
    · next load =>
      have arg : isOnce table arg false = true := by
        rw [isOnce, eq_of_beq load] at once
        exact once
      exact ih arg
    · rfl
  | case3 name arg notBuiltin =>
    have same : passDeeds table (.call name [arg]) =
        fun high => if high then 0 else {.call name} := by
      funext high
      rw [passDeeds, if_neg notBuiltin]
    rw [same, inPasses_low]
  | case4 name args several isBuiltin =>
    have same : passDeeds table (.call name args) = fun high => if high then 0 else 0 := by
      funext high
      rw [passDeeds, isBuiltin, Bool.or_true, if_pos rfl, ite_self]
      exact several
    rw [same, inPasses_low]
  | case5 name args several notBuiltin =>
    have same : passDeeds table (.call name args) = fun high =>
        if high then 0 else {.call name} := by
      funext high
      rw [passDeeds, eq_false_of_ne_true notBuiltin, Bool.or_false]
      exact several
    rw [same, inPasses_low]
  | case6 operand => cases both <;> rfl
  | case7 op operand notDeref ih =>
    cases op with
    | deref => exact absurd rfl notDeref
    | not => exact inPasses_tested once fun once => ih once
    | _ => exact ih once
  | case8 cond op a b n value nonzero ih =>
    have same : passDeeds table (.binary .choice cond (.binary op a b)) = passDeeds table a := by
      funext high
      rw [passDeeds, value]
      exact if_pos nonzero
    rw [isOnce, value] at once
    rw [same]
    exact ih (by simpa only [if_pos nonzero] using once)
  | case9 cond op a b n value zero ih =>
    have same : passDeeds table (.binary .choice cond (.binary op a b)) = passDeeds table b := by
      funext high
      rw [passDeeds, value]
      exact if_neg zero
    rw [isOnce, value] at once
    rw [same]
    exact ih (by simpa only [if_neg zero] using once)
  | case10 cond op a b unknown ihC ihA ihB =>
    have same : passDeeds table (.binary .choice cond (.binary op a b)) = fun high =>
        passDeeds table cond false + passDeeds table a high + passDeeds table b high := by
      funext high
      rw [passDeeds, unknown]
    rw [isOnce, unknown] at once
    obtain ⟨⟨tested, first⟩, second⟩ := by simpa only [Bool.and_eq_true] using once
    rw [same, inPasses_add, inPasses_add, inPasses_tested tested fun once => ihC once, ihA first,
      ihB second]
  | case11 op lhs rhs other ihL ihR =>
    have same : passDeeds table (.binary op lhs rhs) = fun high =>
        if op.isAssign then
          assigned table op lhs rhs (passDeeds table lhs) (passDeeds table rhs) high
        else if op.decides then passDeeds table lhs false + passDeeds table rhs false
        else joined table op rhs (passDeeds table lhs) (passDeeds table rhs) high := by
      funext high
      rw [passDeeds]
      exact other
    rw [isOnce] at once
    · rw [same]
      split at once
      · next assigns =>
        obtain ⟨⟨isTarget, shift⟩, once⟩ := by simpa only [Bool.and_eq_true] using once
        simp only [if_pos assigns, deedsOf_of_isTarget isTarget, zero_add]
        exact inPasses_assigned (fun _ once => ihR once) isTarget shift once
      · next keeps =>
        simp only [if_neg keeps, add_zero]
        split at once
        · next decides =>
          obtain ⟨testedL, testedR⟩ := Bool.and_eq_true_iff.mp once
          simp only [if_pos decides]
          rw [inPasses_add, inPasses_tested testedL fun once => ihL once,
            inPasses_tested testedR fun once => ihR once]
        · next computes =>
          simp only [if_neg computes]
          exact inPasses_joined (fun _ once => ihL once) (fun _ once => ihR once) once
    · exact other
  | case12 t notStep notCall notCalls notDeref notUnary notChoice notBinary =>
    cases t with
    | incDec op operand => exact (notStep op operand rfl).elim
    | call name args => exact (notCalls name args rfl).elim
    | unary op operand => exact (notUnary op operand rfl).elim
    | binary op lhs rhs => exact (notBinary op lhs rhs rfl).elim
    | _ => cases both <;> rfl

end Lowering

end Backend6502
