import Backend6502.Proofs.DeedExpressions
import Backend6502.Proofs.SafeExpressions

/-!
# Deeds of assignments, steps and calls

An assignment writes one byte, or both bytes of a 16 bit variable in two passes. In the pass for
high bytes only a 16 bit variable has a byte left to be written; steps and calls are done in the
pass for low bytes alone. A step behind its operand is put off.
-/

namespace Backend6502.Lowering

open Cpu (Mnemonic)
open Source (Op Expr)
open Symbols (Function Table)

def addsOne (table : Table) (base : Op) (rhs : Expr) : Bool :=
  (base == .add || base == .sub) && constant? table rhs == some 1

/-- Is one added by the assignment, or subtracted? -/
def isStep (table : Table) (op : Op) (rhs : Expr) : Bool :=
  op.compound?.any (addsOne table · rhs)

def assignedByte (table : Table) (op : Op) (lhs rhs : Expr) (left right : Bool → Multiset Deed)
    (high : Bool) : Multiset Deed :=
  if !high && isStep table op rhs then {.step lhs (op == .addAssign)}
  else (op.compound?.elim (right high) fun base => joined table base rhs left right high) +
    {.write lhs high}

/--
The deeds of an assignment. Only a 16 bit variable has a byte left for the pass for high bytes.
-/
def assigned (table : Table) (op : Op) (lhs rhs : Expr) (left right : Bool → Multiset Deed)
    (high : Bool) : Multiset Deed :=
  let byte := assignedByte table op lhs rhs left right
  if (wideVariable? table lhs).isSome then
    if isStep table op rhs then if high then left true else {.step lhs (op == .addAssign)}
    else if high then byte true else byte false + byte true
  else if high then left true else byte false

section Assigning

variable {scope : Scope} {high : Bool} {lhs rhs : Operand} {left right : Bool → Multiset Deed}
  {looseL looseR loose deeds : Multiset Deed} {branchesL branchesR branches : Bool}

theorem does_storeValue (e : Expr) {value : Gen Place}
    (does : Does scope high ⟨deeds, loose, branches⟩ value) :
    Does scope high ⟨deeds + {.write e high}, loose, branches⟩ (storeValue e value) := by
  have writes (outer : Bool) (v : Place) : Does scope high (.firm {.write e high}) (do
      let place ← target e
      Lowering.store place v
      setAccInUse outer
      return place) :=
    .stores e v fun _ => .bind (.setAccInUse _) fun _ => .pure _
  have both : Does scope high (⟨deeds, loose, branches⟩ + .firm {.write e high})
      (storeValue e value) := by
    refine .later .accInUse fun outer => .bind does fun v => ?_
    split
    · exact .fail _
    · exact .fail _
    · refine .later (.shelter e v) fun v => .ite ?_ <| writes outer v
      exact .later (.setAccInUse _) fun _ => writes outer v
  exact both.within (.add_firm _ _)

/-- How an assignment was carried out in place, if it was. -/
inductive InPlace (scope : Scope) (base : Op) (l r : Expr) (c d : Context) :
    Option Place → Prop where
  | not (settles : Settles scope 0 c d)
      (stays : c.high = false → addsOne scope.symbols base r = false) :
        InPlace scope base l r c d none
  | step {place : Place} (low : c.high = false) (addsOne : addsOne scope.symbols base r = true)
      (settles : Settles scope (.firm {.step l (base == .add)}) c d) :
      InPlace scope base l r c d (some place)
  | shift {place : Place} (low : c.high = false) (isShift : base = .shl ∨ base = .shr)
      (isTarget : isTarget l = true) (settles : Settles scope (.firm {.write l false}) c d) :
      InPlace scope base l r c d (some place)

section InPlace

variable {base : Op} {l r : Expr} {found : Option Place} {amount : Int64} {c d : Context}

theorem inPlace_shift (low : c.high = false) (isShift : base = .shl ∨ base = .shr)
    (ok : shiftInPlace base l amount scope c = .ok found d) : InPlace scope base l r c d found := by
  have stays : addsOne scope.symbols base r = false := by
    rcases isShift with rfl | rfl <;> rfl
  obtain ⟨_, _, ⟨⟩, ok⟩ := bind_inv ok
  split at ok
  · cases ok
    exact .not (Does.of_hushed (.pure ()) c () c rfl rfl) fun _ => stays
  · obtain ⟨place, c₁, placed, ok⟩ := bind_inv ok
    have finds := Does.of_hushed (.target l) c place c₁ rfl placed
    have shifts {m : Mnemonic} (isAsl : m = .asl ∨ m = .lsr)
        (ok : (do emitTimes m place amount.toInt.toNat; return some place : Gen (Option Place))
          scope c₁ = .ok found d) : InPlace scope base l r c d found := by
      obtain ⟨u, c₂, steps, ok⟩ := bind_inv ok
      cases ok
      have still : Still (emitTimes m place amount.toInt.toNat) := by
        refine .emitTimes _ fun _ _ _ _ _ _ found => fallsThrough_of_find? ?_ found
        rcases isAsl with rfl | rfl <;> rfl
      have all := finds.trans (still.settles steps fun _ => .shift isAsl placed steps)
      rw [Bill.zero_add] at all
      exact .shift low isShift (isTarget_of_target placed) all
    have isAsl : (if base = .shr then Mnemonic.lsr else .asl) = .asl ∨
        (if base = .shr then Mnemonic.lsr else .asl) = .lsr := by
      split
      · exact .inr rfl
      · exact .inl rfl
    split at ok
    · exact shifts isAsl ok
    · exact shifts isAsl ok
    · cases ok
      exact .not finds fun _ => stays

theorem inPlace_step (low : c.high = false) (isSum : base = .add ∨ base = .sub)
    (known : constant? scope.symbols r = some amount)
    (ok : (if amount = 1 then do
        let place ← target l
        step l (base = .add)
        return some place
      else return none : Gen (Option Place)) scope c = .ok found d) :
    InPlace scope base l r c d found := by
  split at ok
  · next one =>
    obtain ⟨place, c₁, placed, ok⟩ := bind_inv ok
    obtain ⟨u, c₂, steps, ok⟩ := bind_inv ok
    cases ok
    have adds : addsOne scope.symbols base r = true := by
      rw [addsOne, known, one]
      rcases isSum with rfl | rfl <;> rfl
    have all := (Does.of_hushed (.target l) c place c₁ rfl placed).trans (settles_step steps)
    rw [Bill.zero_add] at all
    exact .step low adds all
  · next other =>
    cases ok
    refine .not (Does.of_hushed (.pure ()) c () c rfl rfl) fun _ => ?_
    rw [addsOne, known]
    exact Bool.and_eq_false_iff.mpr (.inr (by simpa using other))

/-- One is added or subtracted in place, or bits are shifted there. -/
theorem inPlace_assignInPlace (ok : assignInPlace base l r scope c = .ok found d) :
    InPlace scope base l r c d found := by
  have nothing : Settles scope 0 c c := Does.of_hushed (.pure ()) c () c rfl rfl
  obtain ⟨_, _, ⟨⟩, ok⟩ := bind_inv ok
  obtain ⟨_, _, ⟨⟩, ok⟩ := bind_inv ok
  cases known : constant? scope.symbols r with
  | none =>
    rw [known] at ok
    cases ok
    refine .not nothing fun _ => ?_
    rw [addsOne, known]
    exact Bool.and_false _
  | some amount =>
    rw [known] at ok
    cases pass : c.high with
    | true =>
      rw [pass] at ok
      cases ok
      exact .not nothing fun low => by cases pass.symm.trans low
    | false =>
      rw [pass] at ok
      cases base with
      | add => exact inPlace_step pass (.inl rfl) known ok
      | sub => exact inPlace_step pass (.inr rfl) known ok
      | shl => exact inPlace_shift pass (.inl rfl) ok
      | shr => exact inPlace_shift pass (.inr rfl) ok
      | _ =>
        cases ok
        exact .not nothing fun _ => rfl

end InPlace

theorem beq_addAssign {op base : Op} (compound : op.compound? = some base) :
    (base == .add) = (op == .addAssign) := by
  cases op <;> cases compound <;> rfl

theorem joined_of_target {table : Table} {base : Op} {r : Expr}
    (isShift : base = .shl ∨ base = .shr) (none : ∀ high, left high = 0) :
    joined table base r left right high = 0 := by
  rw [joined, if_pos isShift, shifted]
  split
  · split
    · exact none false
    · rfl
  · exact none high

theorem does_assignByte (op : Op)
    (doesL : ∀ high, Does scope high ⟨left high, looseL, branchesL⟩ lhs.value)
    (doesR : ∀ high, Does scope high ⟨right high, looseR, branchesR⟩ rhs.value)
    (plain : isTarget lhs.expr = true → ∀ high, left high = 0) :
    Does scope high
      ⟨assignedByte scope.symbols op lhs.expr rhs.expr left right high, looseL + looseR,
        branchesL || branchesR⟩ (assignByte op lhs rhs) := by
  unfold assignByte assignedByte isStep
  cases compound : op.compound? with
  | none =>
    rw [Option.any_none, Bool.and_false]
    exact (does_storeValue _ (doesR high)).within (.right ⟨0, looseL, branchesL⟩ _)
  | some base =>
    rw [Option.any_some]
    refine .later .accInUse fun outer => ?_
    rintro c place e rfl ok
    obtain ⟨found, d, tried, ok⟩ := bind_inv ok
    have inPlace := inPlace_assignInPlace tried
    have done {deeds : Multiset Deed} {b : Bill} {last : Place}
        (settles : Settles scope (.firm deeds) c d) (same : deeds = b.deeds)
        (ok : (do setAccInUse outer; return last : Gen Place) scope d = .ok place e) :
        Settles scope b c e := by
      have ends : Hushed (do setAccInUse outer; return last : Gen Place) :=
        .bind (.setAccInUse _) fun _ => .pure _
      have all := settles.trans (Does.of_hushed ends d place e rfl ok)
      rw [Bill.add_zero] at all
      exact all.within (.of_deeds same)
    cases inPlace with
    | not settles stays =>
      have all := settles.trans (does_storeValue _ (does_arithOrShift base doesL doesR plain) d
        place e settles.high ok)
      rw [Bill.zero_add] at all
      refine all.within ⟨?_, fun _ => id, id⟩
      have isByte : (!c.high && addsOne scope.symbols base rhs.expr) = false := by
        cases low : c.high with
        | true => rfl
        | false => exact stays low
      dsimp only
      rw [isByte]
      rfl
    | step low adds settles =>
      refine done settles ?_ ok
      dsimp only
      rw [low, adds, beq_addAssign compound]
      rfl
    | shift low isShift isTarget settles =>
      refine done settles ?_ ok
      have isByte : addsOne scope.symbols base rhs.expr = false := by
        rcases isShift with rfl | rfl <;> rfl
      dsimp only
      rw [low, isByte, Option.elim_some, joined_of_target isShift (plain isTarget)]
      exact (zero_add _).symm

/-- Both bytes of a 16 bit variable are written, each in a pass of its own. -/
theorem does_assignWide {bill : Bool → Bill} (op : Op)
    (does : ∀ high, Does scope high (bill high) (assignByte op lhs rhs)) :
    Does scope false (bill false + bill true) (assignWide op lhs rhs) := by
  have pass (high outer : Bool) {α : Type} {c e : Context} {a : α} {rest : Place → Gen α}
      (ok : (assignPass high outer op lhs rhs >>= rest) scope c = .ok a e) :
      ∃ place d, Settles scope (bill high) { c with high } d ∧ rest place scope d = .ok a e := by
    obtain ⟨place, d, writes, ok⟩ := bind_inv ok
    obtain ⟨_, _, ⟨⟩, writes⟩ := bind_inv writes
    have settles := Does.later (.setAccInUse outer) (fun _ => does high) { c with high } place d rfl
      writes
    exact ⟨place, d, settles, ok⟩
  -- the passes follow each other, and the pass is put back behind them
  have both {first second : Bool} {c d e : Context} (low : c.high = false)
      (one : Settles scope (bill first) { c with high := first } d)
      (two : Settles scope (bill second) { d with high := second } e) :
      Settles scope (bill first + bill second) c { e with high := false } := by
    have through : Settles scope (bill second) d { e with high := d.high } :=
      ⟨rfl, two.waits, two.code⟩
    have all := one.trans through
    exact ⟨low.symm, all.waits, all.code⟩
  refine .later (.movesUp op _) fun _ => .later .accInUse fun outer => .ite ?_ ?_
  · intro c place e low ok
    obtain ⟨_, d, one, ok⟩ := pass true outer ok
    obtain ⟨_, d', two, ok⟩ := pass false outer ok
    cases ok
    exact (both low one two).within (.comm _ _)
  · intro c place e low ok
    obtain ⟨_, d, one, ok⟩ := pass false outer ok
    obtain ⟨_, d', two, ok⟩ := pass true outer ok
    cases ok
    exact both low one two

theorem isStepping_eq (op : Op) (r : Expr) (c : Context) :
    isStepping op r scope c = .ok (isStep scope.symbols op r) c := by
  unfold isStepping isStep
  cases op.compound? with
  | none => rfl
  | some base =>
    rw [Option.any_some, addsOne]
    cases base <;> rfl

theorem does_assign (op : Op)
    (doesL : ∀ high, Does scope high ⟨left high, looseL, branchesL⟩ lhs.value)
    (doesR : ∀ high, Does scope high ⟨right high, looseR, branchesR⟩ rhs.value)
    (plain : isTarget lhs.expr = true → ∀ high, left high = 0) :
    Does scope high
      ⟨assigned scope.symbols op lhs.expr rhs.expr left right high, looseL + looseR,
        branchesL || branchesR⟩ (assign op lhs rhs) := by
  have byte (high : Bool) : Does scope high
      ⟨assignedByte scope.symbols op lhs.expr rhs.expr left right high, looseL + looseR,
        branchesL || branchesR⟩ (assignByte op lhs rhs) :=
    does_assignByte op doesL doesR plain
  have reads : Does scope true ⟨left true, looseL + looseR, branchesL || branchesR⟩ lhs.value :=
    (doesL true).within (.left _ ⟨0, looseR, branchesR⟩)
  refine .symbols (.reads (isStepping_eq op rhs.expr) (.inHigh ?_))
  unfold assigned
  dsimp only
  cases wide : wideVariable? scope.symbols lhs.expr with
  | none =>
    cases high with
    | true => exact reads
    | false => exact .later (.checkRegisterTarget _ _) fun _ => byte false
  | some v =>
    rw [Option.isSome_some, if_pos rfl]
    cases stepping : isStep scope.symbols op rhs.expr with
    | true =>
      cases high with
      | true => exact reads
      | false =>
        have steps : Does scope false (.firm {.step lhs.expr (op == .addAssign)})
            (stepWide v (op = .addAssign)) := by
          intro c u d _ ok
          have same : step lhs.expr (op == .addAssign) scope c = .ok u d := by
            refine bind_eq_ok.mpr ⟨scope.symbols, c, rfl, ?_⟩
            rw [wide]
            exact ok
          exact settles_step same
        exact (Does.first steps fun _ => .pure _).within (.of_deeds rfl)
    | false =>
      cases high with
      | true => exact byte true
      | false => exact (does_assignWide op byte).within (.twice _ _)

/-- An increment or a decrement; one behind its operand is put off. -/
def stepped (op : Op) (operand : Expr) (deeds : Bool → Multiset Deed) (high : Bool) :
    Multiset Deed :=
  if high then deeds true else {.step operand op.increments}

theorem pending_append (c : Context) (d : Deferred) :
    Context.pending { c with deferred := c.deferred ++ [d] } =
      c.pending + {.step d.target d.increments} := by
  rw [Context.pending, List.map_append]
  rfl

theorem does_incDec (op : Op) {operand : Operand}
    (does : ∀ high, Does scope high ⟨left high, loose, branches⟩ operand.value) :
    Does scope high
      ⟨stepped op operand.expr left high,
        if op.isPostfix then .step operand.expr op.increments ::ₘ loose else loose, branches⟩
      (incDec op operand) := by
  refine .later (.target operand.expr) fun place => .inHigh ?_
  cases high with
  | true =>
    refine (does true).within ⟨rfl, fun x inside => ?_, id⟩
    dsimp only
    split
    · exact Multiset.mem_cons_of_mem inside
    · exact inside
  | false =>
    refine .ite_of (absurd · Bool.false_ne_true) fun _ => .ite_of (fun isPostfix => ?_) fun _ => ?_
    · refine .first (fun c u d _ ok => ?_) fun _ => .pure _
      cases ok
      have waiting : ∀ x ∈ c.pending + {Deed.step operand.expr op.increments},
          x ∈ c.pending ∨ x ∈ Deed.step operand.expr op.increments ::ₘ loose := by
        intro x inside
        refine (Multiset.mem_add.mp inside).imp_right fun same => ?_
        rw [Multiset.mem_singleton.mp same]
        exact Multiset.mem_cons_self _ _
      rw [if_pos isPostfix]
      refine ⟨rfl, fun x inside => waiting x ?_, [], 0, 0, (List.append_nil _).symm, .nil, ?_, ?_⟩
      · rwa [pending_append] at inside
      · rw [pending_append, zero_add, zero_add]
        rfl
      · exact fun x inside => absurd inside (Multiset.notMem_zero x)
    · have steps : Does scope false (.firm {.step operand.expr op.increments})
          (do Lowering.step operand.expr op.increments; return place : Gen Place) :=
        .first (.step _ _) fun _ => .pure _
      exact steps.within (.of_deeds rfl)

end Assigning

section Calling

variable {scope : Scope} {high : Bool}
variable {arg : Operand} {bill : Bill}

theorem does_callFunction {name : String} {f : Function}
    (known : scope.symbols.getFunction? name = some f) :
    Does scope high (.firm {.call name}) (callFunction f) := by
  intro c place e pass ok
  obtain ⟨label, c₁, leads, ok⟩ := bind_inv ok
  obtain ⟨outer, c₂, read, ok⟩ := bind_inv ok
  obtain ⟨_, c₃, saves, ok⟩ := bind_inv ok
  obtain ⟨u, c₄, calls, ok⟩ := bind_inv ok
  have begins := Does.of_adds (.callTarget f) c label c₁ rfl leads
  have reads := Does.of_hushed .accInUse c₁ outer c₂ rfl read
  have saved := Does.of_hushed (.save outer) c₂ _ c₃ rfl saves
  have called : Settles scope (.firm {.call name}) c₃ c₄ := by
    refine Still.settles (.emitStill rfl _) calls fun lines added => ?_
    obtain ⟨mode, operand, i, addressed, found, rfl⟩ := emit_eq_ok calls
    cases addressed
    cases List.append_cancel_left added
    exact .call known leads found
  have ends : Hushed (if f.returns then restore outer f.signed else do
      if outer then emitImplied .pla
      return .nothing) := by
    refine .ite (.restore _ _) <| .ite ?_ (.pure _)
    exact .bind (.mildImplied rfl rfl) fun _ => .pure _
  have last := Does.of_hushed ends c₄ place e rfl ok
  have all := begins.trans (reads.trans (saved.trans (called.trans last)))
  rwa [Bill.zero_add, Bill.zero_add, Bill.zero_add, Bill.add_zero] at all

/-- The deeds of a name that is built in, by those of its argument. -/
def builtin (name : String) (arg : Expr) (deeds : Multiset Deed) : Multiset Deed :=
  if name == "load" then deeds
  else if name == "store" || name == "strobe" then {.write arg false}
  else 0

theorem does_loadCall (does : Does scope high bill arg.value) :
    Does scope high bill (loadCall arg) := by
  refine .later .accInUse fun _ => .check <| .first does fun v => ?_
  exact .bind (.loadA v) fun _ => .pure _

theorem does_storeCall (arg : Operand) :
    Does scope high (.firm {.write arg.expr high}) (storeCall arg) :=
  .stores arg.expr _ fun _ => .pure _

theorem does_strobeCall (arg : Operand) :
    Does scope high (.firm {.write arg.expr false}) (strobeCall arg) :=
  .first (fun _ _ _ _ ok => Still.settles (.strobe _) ok fun _ => .strobe ok) fun _ => .pure _

theorem hushed_sleepCall (arg : Operand) : Hushed (sleepCall arg) := by
  refine .bind (.constant _) fun _ => ?_
  split
  · exact .fail _
  · exact .check <| .bind (.sleep _) fun _ => .pure _

theorem does_builtinCall (name : String) (does : Does scope false bill arg.value) :
    Does scope false ⟨builtin name arg.expr bill.deeds, bill.loose, bill.branches⟩
      (builtinCall name [arg]) := by
  unfold builtin
  refine .ite_of (fun load => ?_) fun notLoad => .ite_of (fun store => ?_) fun notStore =>
    .ite_of (fun strobe => ?_) fun notStrobe => .ite ?_ (.fail _)
  · rw [if_pos load]
    exact does_loadCall does
  · rw [if_neg notLoad, store, Bool.true_or, if_pos rfl]
    exact (does_storeCall arg).within (.of_deeds rfl)
  · rw [if_neg notLoad, strobe, Bool.or_true, if_pos rfl]
    exact (does_strobeCall arg).within (.of_deeds rfl)
  · rw [if_neg notLoad, eq_false_of_ne_true notStore, eq_false_of_ne_true notStrobe]
    exact (Does.of_hushed (hushed_sleepCall arg)).within (.zero rfl)

theorem does_programCall (name : String) (argCount : Nat) :
    Does scope high (.firm (if high then 0 else {.call name})) (programCall name argCount) := by
  refine .symbols ?_
  cases known : scope.symbols.getFunction? name with
  | none => exact .fail _
  | some f =>
    refine .check <| .check (.inHigh ?_)
    cases high with
    | true =>
      have hushed : Hushed (returnedHigh f) :=
        .ite (.pure _) <| .ite (.fail _) (.pure _)
      exact .of_hushed hushed
    | false => exact does_callFunction known

end Calling

end Backend6502.Lowering
