import Backend6502.Lowering.Expr
import Backend6502.Proofs.SafeExpressions
import Backend6502.Proofs.SteadyExpressions

/-!
# Values that are still needed

An expression is computed while the accumulator holds a value that is still needed. Its code gives
the accumulator and the stack pointer back, and its own value is elsewhere. If the scratch cell
holds such a value as well and there is a value at all, the code writes nothing to the scratch cell
and calls nobody: what a call returns would have no place to go to. By induction this is so for
every expression, both where its value is asked for and where it is tested.

The accumulator is saved on the stack, so this holds unless the saved byte is overwritten: by a
store to the stack page, in a subroutine, or by a whole page of pushes.
-/

namespace Backend6502.Lowering

open Source (Op Expr)
open Symbols (Function)

variable {test : Test} {full : Bool} {p : Stand} {lhs rhs : Lowered} {args : List Operand}

theorem Steady.unlessConstant (e : Expr) (tests : IsSteadyTest test) :
    IsSteadyTest (unlessConstant e test) := by
  intro full targets p label sound target negate
  refine .bind (.constant e) fun _ _ => ?_
  split
  · exact .ite (.loud (.emitJump target)) (.pure trivial)
  · exact tests sound target negate

/-- One of two values by a condition that is not known in advance. -/
def chooseByTest (test : Test) (negate : Bool) (a b : Gen Place) : Gen Place := do
  let outer ← accInUse
  save outer
  setAccInUse false
  let n ← nextIf
  test (Label.otherwise n).text (!negate)
  let va ← a
  loadA va
  emitJump (Label.ifEnd n).text
  putLabel (Label.otherwise n).text
  let vb ← b
  loadA vb
  putLabel (Label.ifEnd n).text
  setAccInUse outer
  restore outer (va.signed || vb.signed)

section Choosing

variable {a b : Gen Place}

/--
While one of two values is found, the accumulator is free and its value is on the stack. With the
accumulator and the scratch cell in use there is no such choice.
-/
theorem Steady.chooseByTest {targets : String → Nat → Prop}
    (tests : IsSteadyTest test) (first : IsSteadyValue a) (second : IsSteadyValue b)
    (sound : p.Sound) (negate : Bool) :
    Steady full [] targets p p
      (fun place _ => place.Kept p.acc full ∧ (full = true → p.acc = false))
      (chooseByTest test negate a b) := by
  refine .bind .accInUse fun outer found => ?_
  cases found
  have raised : ((p.push p.acc).use false).height ≠ 0 := sound.raised_push
  have free : ((p.push p.acc).use false).Sound := Stand.sound_of_raised raised
  refine .seq (.save p.acc) <| .seq (.setAccInUse false) ?_
  refine .opening (fun n => [((p.push p.acc).height, (Label.otherwise n).text),
    ((p.push p.acc).height, (Label.ifEnd n).text)]) fun n => ?_
  refine .after (tests free (.inl List.mem_cons_self) _) fun _ _ _ => ?_
  refine .after (first free) fun va _ found => .seq (.loadA raised found.kept.clear) ?_
  refine .seq (.emitJump (.inl (List.mem_cons_of_mem _ List.mem_cons_self))) ?_
  refine .labelled _ fun _ => .after (second free) fun vb _ found => ?_
  refine .seq (.loadA raised found.kept.clear) <| .first (.putLabel _) fun _ _ => ?_
  exact .seq (.setAccInUse p.acc) <| (Steady.restore _ id).mono fun _ _ => And.left

theorem Steady.choose (cond : Expr) (tests : IsSteadyTest test) (negate : Bool)
    (first : IsSteadyValue a) (second : IsSteadyValue b) :
    IsSteadyValue (choose cond test negate a b) := by
  intro full targets p sound
  refine .bind (.constant cond) fun _ _ => ?_
  split
  · exact .ite (first sound) (second sound)
  · refine (Steady.chooseByTest tests first second sound negate).mono fun place _ ⟨kept, free⟩ => ?_
    exact .of_mute ⟨kept, fun used inUse => nomatch (free used).symm.trans inUse⟩

end Choosing

theorem Steady.truthValue (cond : Expr) (tests : IsSteadyTest test)
    (negate : Bool) : IsSteadyValue (truthValue cond test negate) := by
  intro full targets p sound
  have number (n : Int64) : IsSteadyValue (return .immediate n) := .int n
  refine .bind (.constant cond) fun _ _ => ?_
  split
  · exact number _ sound
  · exact .choose cond tests negate (number 1) (number 0) sound

/-- An operand that is steady in each of its uses. -/
structure Lowered.IsSteady (o : Lowered) : Prop where
  value : IsSteadyValue o.value
  test : IsSteadyTest o.test
  arms : ∀ a b, o.arms = some (a, b) → IsSteadyValue a ∧ IsSteadyValue b

namespace Lowered

theorem IsSteady.ofOperand {o : Operand} (value : IsSteadyValue o.value) :
    (ofOperand o).IsSteady where
  value := value
  test := .unlessConstant _ (.compare .ne value (.int 0))
  arms _ _ none := by cases none

theorem IsSteady.ofTest (e : Expr) {test : Test} (tests : IsSteadyTest test) :
    (ofTest e test).IsSteady where
  value := .truthValue e (.unlessConstant e tests) false
  test := .unlessConstant e tests
  arms _ _ none := by cases none

theorem IsSteady.not {o : Lowered} (steady : o.IsSteady) : o.not.IsSteady where
  value := .truthValue _ steady.test true
  test := .unlessConstant _ fun sound target negate => steady.test sound target (!negate)
  arms _ _ none := by cases none

end Lowered

section Conditions

section

variable (left : lhs.IsSteady) (right : rhs.IsSteady)

include left right

theorem Steady.bothTests : IsSteadyTest (bothTests lhs rhs) := by
  intro full targets p label sound target negate
  refine .opening (fun n => [(p.height, (Label.pastCond n).text)]) fun n => ?_
  refine .after (left.test sound (.inl (List.mem_singleton_self _)) _) fun _ _ _ => ?_
  exact .after (right.test sound (.inr target) _) fun _ _ _ => .loud (.putLabel _)

theorem Steady.eitherTest : IsSteadyTest (eitherTest lhs rhs) :=
  fun sound target _ => .after (left.test sound target _) fun _ _ _ => right.test sound target _

theorem Steady.andTest : IsSteadyTest (andTest lhs rhs) :=
  fun sound target _ => .ite (Steady.eitherTest left right sound target _) <|
    Steady.bothTests left right sound target _

theorem Steady.orTest : IsSteadyTest (orTest lhs rhs) :=
  fun sound target _ => .ite (Steady.bothTests left right sound target _) <|
    Steady.eitherTest left right sound target _

end

end Conditions

namespace Steady

variable {full : Bool} {targets : String → Nat → Prop} {p : Stand}

theorem isStepping (op : Op) (rhs : Expr) :
    Tame full targets p (isStepping op rhs) := by
  unfold Lowering.isStepping
  split
  · exact .ite (.bind (.constant rhs) fun _ _ => .done) .done
  · exact .done

/-- The place of an assignment in place, if there is one, keeps clear of what is in use. -/
abbrev MayFind (full : Bool) (targets : String → Nat → Prop) (p : Stand) (m : Gen (Option Place)) :
    Prop :=
  Tacit full [] targets p p (fun o => ∀ place, o = some place → place.Kept p.acc full) m

theorem notFound : MayFind full targets p (Pure.pure none) :=
  .give nofun

theorem found {place : Place} (kept : place.Kept p.acc full) :
    MayFind full targets p (Pure.pure (some place)) := by
  refine .give ?_
  rintro _ ⟨⟩
  exact kept

theorem shiftInPlace (sound : p.Sound) (base : Op) (lhs : Expr) (amount : Int64) :
    MayFind full targets p (shiftInPlace base lhs amount) := by
  have shifts : (if base = .shr then Cpu.Mnemonic.lsr else .asl).isLevel = true ∧
      (if base = .shr then Cpu.Mnemonic.lsr else .asl).keepsA .absolute = true := by
    split <;> exact ⟨rfl, rfl⟩
  unfold Lowering.shiftInPlace
  refine .bind .symbols fun _ _ => .ite .notFound ?_
  refine .bind (.target sound lhs) fun place kept => ?_
  split
  · exact .seq (.emitTimes sound shifts.1 shifts.2 kept _) (.found kept)
  · exact .seq (.emitTimes sound shifts.1 shifts.2 kept _) (.found kept)
  · exact .notFound

theorem assignInPlace (sound : p.Sound) (base : Op) (lhs rhs : Expr) :
    MayFind full targets p (assignInPlace base lhs rhs) := by
  have stepped (increments : Bool) : MayFind full targets p (do
      let place ← Lowering.target lhs
      Lowering.step lhs increments
      return some place) :=
    .bind (.target sound lhs) fun _ kept => .seq (.step sound lhs _) (.found kept)
  refine .bind (.constant rhs) fun _ _ => .bind .inHigh fun _ _ => ?_
  split
  · split
    · exact .ite (stepped _) .notFound
    · exact .ite (stepped _) .notFound
    · exact .shiftInPlace sound _ lhs _
    · exact .shiftInPlace sound _ lhs _
    · exact .notFound
  · exact .notFound

theorem shelter {value : Place} (sound : p.Sound) (kept : value.Kept p.acc full) (lhs : Expr) :
    Finds full targets p (shelter lhs value) := by
  have sheltered : Finds full targets p (do
      if needsY (← Lowering.symbols) lhs then
        if ← Lowering.accInUse then Lowering.fail .tooComplex
        Lowering.loadA value
        return Place.accumulator value.signed
      else return value) := by
    refine .bind .symbols fun _ _ => .ite ?_ (.give kept)
    refine .whenFree sound fun free raised _ => ?_
    exact .seq (.loadA raised kept.clear) <| .give (.accumulator free _)
  unfold Lowering.shelter
  split
  · exact sheltered
  · exact sheltered
  · exact sheltered
  · exact .give kept

end Steady

/--
An assignment makes no calls while everything is in use, for what a call returns cannot be stored.
-/
def IsSteadyAssignment (assignment : Gen Place) : Prop :=
  ∀ {full : Bool} {targets : String → Nat → Prop} {p : Stand}, p.Sound →
    Steady full [] targets p p (fun place calls => place.Kept p.acc full ∧ p.Mute full calls)
      assignment

theorem IsSteadyAssignment.value {assignment : Gen Place} (steady : IsSteadyAssignment assignment) :
    IsSteadyValue assignment :=
  fun sound => (steady sound).mono fun _ _ => .of_mute

/-- A value in the accumulator is in use until it is stored. -/
theorem Steady.storeValue (lhs : Expr) {value : Gen Place} (steady : IsSteadyValue value) :
    IsSteadyAssignment (storeValue lhs value) := by
  intro full targets p sound
  refine .bind .accInUse fun outer found => .after (steady sound) fun v calls ⟨kept, mute⟩ => ?_
  cases found
  have finish {sheltered : Place} (clear : sheltered.Clear full) {acc : Bool}
      (sound : (p.use acc).Sound) (used : p.acc = true → acc = true) :
      Tacit full [] targets (p.use acc) p (Place.Kept p.acc full) (do
        let place ← Lowering.target lhs
        Lowering.store place sheltered
        Lowering.setAccInUse p.acc
        return place) := by
    refine .bind (.target sound lhs) fun place kept => .seq (.store sound kept clear) ?_
    refine .seq (.setAccInUse p.acc) <| .give ⟨fun inUse => ?_, kept.clear⟩
    exact kept.acc (used inUse)
  split
  · exact .fail _
  · exact .fail _
  · next some _ =>
    refine .mutely (mute some) (.bind (.shelter sound kept lhs) fun sheltered kept => ?_)
    refine .ite ?_ (finish kept.clear sound id)
    exact .seq (.setAccInUse true) <| finish kept.clear (fun _ => rfl) fun _ => rfl

section Assigning

variable {lhs rhs : Operand}

theorem Steady.assignByte (op : Op) (left : IsSteadyValue lhs.value)
    (right : IsSteadyValue rhs.value) : IsSteadyAssignment (assignByte op lhs rhs) := by
  intro full targets p sound
  unfold Lowering.assignByte
  split
  · exact .storeValue _ right sound
  · refine .bind .accInUse fun outer found => .bind (.assignInPlace sound _ _ _) fun done kept => ?_
    cases found
    split
    · exact .seq (.setAccInUse p.acc) <| .pure ⟨kept _ rfl, Stand.mute_of_not id⟩
    · exact .storeValue _ (.arithOrShift _ left right) sound

theorem Steady.movesUp {targets : String → Nat → Prop} (op : Op)
    (rhs : Expr) : Tame full targets p (movesUp op rhs) := by
  unfold Lowering.movesUp
  split
  · exact .bind (.constant _) fun _ _ => .done
  · exact .bind (.constant _) fun _ _ => .done
  · exact .done

theorem Steady.assignWide (op : Op) (left : IsSteadyValue lhs.value)
    (right : IsSteadyValue rhs.value) : IsSteadyAssignment (assignWide op lhs rhs) := by
  intro full targets p sound
  have passes (high : Bool) : Steady full [] targets p p
      (fun place calls => place.Kept p.acc full ∧ p.Mute full calls)
      (assignPass high p.acc op lhs rhs) :=
    .seq (.setHigh _) <| .seq (.setAccInUse p.acc) <|
      .assignByte op left right sound
  refine .bind (.movesUp op _) fun _ _ => .bind .accInUse fun outer found => ?_
  cases found
  refine .ite ?_ ?_
  · refine .after (passes _) fun _ _ ⟨_, mute⟩ => .after (passes _) fun low _ ⟨kept, mute'⟩ => ?_
    exact .seq (.setHigh _) <| .pure ⟨kept, mute.or (mute'.or (Stand.mute_of_not id))⟩
  · refine .after (passes _) fun low _ ⟨kept, mute⟩ => .after (passes _) fun _ _ ⟨_, mute'⟩ => ?_
    exact .seq (.setHigh _) <| .pure ⟨kept, mute.or (mute'.or (Stand.mute_of_not id))⟩

theorem Steady.checkRegisterTarget {targets : String → Nat → Prop}
    (lhs rhs : Expr) : Tame full targets p (checkRegisterTarget lhs rhs) := by
  unfold Lowering.checkRegisterTarget
  split
  · refine .ite (.bind (.isWide rhs) fun _ _ => ?_) .done
    exact .ite (.fail _) .done
  · exact .done

theorem Steady.assign (op : Op) (left : IsSteadyValue lhs.value)
    (right : IsSteadyValue rhs.value) : IsSteadyValue (assign op lhs rhs) := by
  intro full targets p sound
  have byte : IsSteadyValue (Lowering.assignByte op lhs rhs) :=
    IsSteadyAssignment.value (.assignByte op left right)
  refine .bind .symbols fun t defined => .bind (.isStepping _ _) fun stepping _ => ?_
  refine .bind .inHigh fun _ _ => ?_
  split
  · exact left sound
  · exact .ite (left sound) (byte sound)
  · exact .seq (.checkRegisterTarget _ _) (byte sound)
  · next v found _ =>
    have named := name_of_wideVariable? defined found
    refine .ite (.seq (.stepWide sound named _) (.pure ?_)) ?_
    · exact .of_mute ⟨.of_named named rfl rfl, Stand.mute_of_not id⟩
    · exact IsSteadyAssignment.value (.assignWide op left right) sound

theorem Steady.incDec (op : Op) {operand : Operand} (steady : IsSteadyValue operand.value) :
    IsSteadyValue (incDec op operand) := by
  intro full targets p sound
  refine .bind (.target sound _) fun place kept => .bind .inHigh fun _ _ => ?_
  have found : place.Found p full False := .of_mute ⟨kept, Stand.mute_of_not id⟩
  refine .ite (steady sound) <| .ite ?_ ?_
  · exact .seq (.modify (fun _ => rfl) (fun _ => rfl) fun _ => rfl) (.pure found)
  · exact .seq (.step sound _ _) (.pure found)

end Assigning

section Calling

variable {targets : String → Nat → Prop}

/-- A value that is loaded with a call leaves no accumulator in use behind. -/
theorem Steady.loadCall {arg : Operand} (steady : IsSteadyValue arg.value) :
    IsSteadyValue (loadCall arg) := by
  intro full targets p sound
  refine .whenFree sound fun free raised _ => .after (steady sound) fun v _ found => ?_
  refine .seq (.loadA raised found.kept.clear) (.pure (.of_mute ?_))
  exact ⟨.accumulator free _, fun _ inUse => nomatch free.symm.trans inUse⟩

theorem Steady.storeCall (arg : Operand) : IsSteadyValue (storeCall arg) :=
  .of_tacit fun sound => .bind (.target sound _) fun _ kept =>
    .seq (.store sound kept (Place.clear_of_unnamed rfl rfl)) <|
      .give (.of_unnamed rfl rfl rfl)

theorem Steady.strobeCall (arg : Operand) : IsSteadyValue (strobeCall arg) :=
  .of_tacit fun sound => .seq (.strobe sound _) <|
    .give (.of_unnamed rfl rfl rfl)

theorem Steady.sleep (cycles : Int64) : Tame full targets p (sleep cycles) := by
  have waits (count : Nat) : Tame full targets p
      (Lowering.addTimes count .nop .implied "") :=
    .addTimes rfl (by decide) (fun _ => rfl) (fun writing => by cases writing) count
  refine .ite ?_ (waits _)
  unfold addFixed
  refine .seq (.addTimes rfl (by decide) (fun _ => rfl) (fun writing => by cases writing) 1) ?_
  exact .seq (.setFlags _) (waits _)

theorem Steady.sleepCall (arg : Operand) : IsSteadyValue (sleepCall arg) := by
  refine .of_tacit fun _ => .bind (.constant _) fun _ _ => ?_
  split
  · exact .fail _
  · exact .check fun _ => .seq (.sleep _) <| .give (.of_unnamed rfl rfl rfl)

theorem Steady.builtinCall (name : String)
    (steady : ∀ arg ∈ args, IsSteadyValue arg.value) : IsSteadyValue (builtinCall name args) := by
  intro full targets p sound
  have only : Tacit full [] targets p p (fun arg => IsSteadyValue arg.value)
      (onlyArgument name args) := by
    unfold onlyArgument
    split
    · exact .give (steady _ (List.mem_singleton_self _))
    · exact .fail _
  refine .ite (.bind only fun _ fine => .loadCall fine sound) ?_
  refine .ite (.bind only fun _ _ => .storeCall _ sound) ?_
  refine .ite (.bind only fun _ _ => .strobeCall _ sound) ?_
  exact .ite (.bind only fun _ _ => .sleepCall _ sound) (.fail _)

theorem Steady.callTarget (f : Function) : Tame full targets p (callTarget f) := by
  unfold Lowering.callTarget
  refine .bind .read fun _ _ => .ite .done ?_
  refine .ite ?_ (.fail _)
  exact .seq (.modify (fun _ => rfl) (fun _ => rfl) fun _ => rfl) .done

/--
A subroutine may change the accumulator; it is called with the accumulator on the stack. With the
accumulator and the scratch cell in use there is no place for what it returns.
-/
theorem Steady.callFunction (f : Function) : IsSteadyValue (callFunction f) := by
  intro full targets p sound
  have raised := sound.raised_push
  have nothing {acc : Bool} {calls : Prop} : Place.Found ⟨acc, p.height⟩ full .nothing calls :=
    ⟨.of_unnamed rfl rfl rfl, fun some => absurd rfl some⟩
  refine .bind (.callTarget f) fun label _ => .bind .accInUse fun outer found => ?_
  cases found
  refine .seq (.save p.acc) ?_
  refine .after (.emit_of (.inr rfl) (absurd · raised) fun _ => ⟨rfl, nofun⟩) fun _ _ _ => ?_
  refine .ite ((Steady.restore _ id).mono fun place _ ⟨⟨kept, free⟩, _⟩ => ?_) ?_
  · exact .of_mute ⟨kept, fun used inUse => nomatch (free used).symm.trans inUse⟩
  · obtain ⟨acc, height⟩ := p
    cases acc with
    | true => exact .seq .pull (.pure nothing)
    | false => exact .pure nothing

theorem Steady.returnedHigh (f : Function) : IsSteadyValue (returnedHigh f) :=
  .of_tacit fun _ => .ite (.give (.of_unnamed rfl rfl rfl)) <|
    .ite (.fail _) <| .give (.of_unnamed rfl rfl rfl)

theorem Steady.programCall (name : String) (argCount : Nat) :
    IsSteadyValue (programCall name argCount) := by
  intro full targets p sound
  refine .bind .symbols fun _ _ => ?_
  split
  · exact .fail _
  · refine .check fun _ => .check fun _ => .bind .inHigh fun _ _ => ?_
    exact .ite (.returnedHigh _ sound) <| .callFunction _ sound

theorem Steady.call (name : String)
    (steady : ∀ arg ∈ args, IsSteadyValue arg.value) : IsSteadyValue (call name args) := by
  intro full targets p sound
  refine .ite (.bind .inHigh fun _ _ => ?_) <| .programCall name _ sound
  refine .ite ?_ <| .builtinCall name steady sound
  exact Steady.int 0 sound

end Calling

theorem isSteady_lowerUnary (op : Op) {operand : Lowered} (steady : operand.IsSteady) :
    (lowerUnary op operand).IsSteady := by
  unfold lowerUnary
  split
  · exact .ofOperand (.arith .sub (.int 0) steady.value)
  · exact .ofOperand (.arith .xor steady.value (.int (-1)))
  · exact steady.not
  · exact .ofOperand (.of_tacit fun sound => .deref sound _)
  · exact .ofOperand fun _ => .fail _

theorem isSteady_lowerBinary (op : Op) (left : lhs.IsSteady)
    (right : rhs.IsSteady) : (lowerBinary op lhs rhs).IsSteady := by
  have chosen : IsSteadyValue (chooseArms lhs rhs.arms) := by
    unfold chooseArms
    split
    · next a b found =>
      obtain ⟨first, second⟩ := right.arms a b found
      exact .choose _ left.test false first second
    · exact fun _ => .fail _
  have stray : (Lowered.ofOperand ⟨.binary .arms lhs.expr rhs.expr, fail .strayArms⟩).IsSteady :=
    .ofOperand fun _ => .fail _
  have compares (op : Op) : IsSteadyTest (compare op lhs.toOperand rhs.toOperand) :=
    .compare op left.value right.value
  unfold lowerBinary
  split
  iterate 6 exact .ofTest _ (compares _)
  · exact .ofTest _ (.andTest left right)
  · exact .ofTest _ (.orTest left right)
  · exact .ofOperand chosen
  · refine ⟨stray.value, stray.test, ?_⟩
    rintro a b ⟨⟩
    exact ⟨left.value, right.value⟩
  · split
    · exact .ofOperand (.assign _ left.value right.value)
    · exact .ofOperand (.arithOrShift _ left.value right.value)

mutual

theorem isSteady_lower : ∀ e, (lower e).IsSteady
  | .absent | .nothing =>
    .ofOperand (.of_tacit fun _ => .give (.of_unnamed rfl rfl rfl))
  | .int value => .ofOperand (.int value)
  | .var name index =>
    .ofOperand (.of_tacit fun sound => .readVariable sound name index)
  | .binary op lhs rhs => isSteady_lowerBinary op (isSteady_lower lhs) (isSteady_lower rhs)
  | .unary op operand => isSteady_lowerUnary op (isSteady_lower operand)
  | .incDec op operand =>
    .ofOperand (.incDec op (isSteady_lower operand).value)
  | .call name args => .ofOperand (.call name (isSteady_lowerAll args))

theorem isSteady_lowerAll : ∀ es, ∀ arg ∈ lowerAll es, IsSteadyValue arg.value
  | [], _, inside => by cases inside
  | e :: rest, arg, inside => by
      rcases List.mem_cons.mp inside with rfl | inside
      · exact (isSteady_lower e).value
      · exact isSteady_lowerAll rest arg inside

end

open Code (Line Surroundings Along Point Spares)
open Cpu (State)
open Symbols (scratchCell)

/-- What the code of an expression leaves alone if the accumulator is in use. -/
structure Preserves (c d : Context) (place : Place) (code : List Line) : Prop where
  elsewhere : place.isAccumulator = false
  inUse : d.accInUse = true
  registers : ∀ w : Surroundings, w.Returns → ∀ s t : State,
    Along w code (Spares w code s.sp) ⟨code, s⟩ ⟨[], t⟩ → t.a = s.a ∧ t.sp = s.sp
  scratch : c.scratchInUse = true → place ≠ .nothing →
    ∀ line ∈ code, line.writes scratchCell = false ∧ line.isCall = false

section Expressions

variable {scope : Scope} {e : Expr} {c d : Context} {place : Place} {code : List Line}

/-- The labels among the code of an expression are placed once. -/
theorem nodup_labelNames_value (ok : (lower e).value scope c = .ok place d)
    (added : d.code = c.code ++ code) : (Code.labelNames code).Nodup := by
  have safe : Safe (fun _ => True) (lower e).value := safe_value e
  have grows := (safe scope c fun _ _ => ⟨trivial, fun _ _ => trivial⟩).of_ok ok
  exact grows.labelled.nodup added

/--
The code of an expression preserves the accumulator while it is in use, as long as it spares the
byte that it saves on the stack; and the scratch cell while both are in use.
-/
theorem value_preserves (defined : scope.symbols.Defined) (inUse : c.accInUse = true)
    (ok : (lower e).value scope c = .ok place d) (added : d.code = c.code ++ code) :
    Preserves c d place code := by
  have steady (full : Bool) (scratch : full = true → c.scratchInUse = true) :
      ∃ calls, place.Found ⟨true, 0⟩ full calls ∧
        Between full [] (fun _ _ => False) ⟨true, 0⟩ ⟨true, 0⟩ calls c d :=
    (isSteady_lower e).value (fun _ => rfl) scope c place d defined inUse scratch ok
  obtain ⟨_, found, stays, -, lines, further, balanced, -, -⟩ := steady false nofun
  cases List.append_cancel_left (added.symm.trans further)
  refine ⟨found.kept.acc rfl, stays, ?_, ?_⟩
  · intro w returns s t along
    exact balanced.gives_back (nodup_labelNames_value ok added) returns along
  · intro scratch valued line inside
    obtain ⟨_, found, -, -, lines, further, -, -, spared, silent⟩ := steady true fun _ => scratch
    cases List.append_cancel_left (added.symm.trans further)
    exact ⟨spared rfl line inside, silent (found.mute valued rfl rfl) line inside⟩

end Expressions

section Example

def storedScope : Scope where
  symbols := { vars := [{ name := "v", size := 1 }] }
  function := { name := "f" }

theorem storedScope_defined : storedScope.symbols.Defined :=
  .of_entries rfl

def storedSeven : Expr :=
  .binary .assign (.var "v" .absent) (.int 7)

/-- The accumulator and the scratch cell are in use. -/
def storedContext : Context where
  accInUse := true
  scratchInUse := true

/-- The assignment with the accumulator saved around it. -/
def storedLines : List Line :=
  [.instruction ⟨.known .pha, .implied, "", 3, 0, 1, false⟩,
   .instruction ⟨.known .lda, .immediate, "#7", 2, 0, 2, false⟩,
   .instruction ⟨.known .sta, .absolute, "v", 4, 0, 3, false⟩,
   .instruction ⟨.known .pla, .implied, "", 4, 0, 1, false⟩]

theorem storedSeven_eq_ok : (lower storedSeven).value storedScope storedContext =
    .ok (.cell "v" true 0 false)
      { storedContext with code := storedLines, flags := .accumulator } := by
  rfl

/-- All names stand for this address. -/
def allAt (address : UInt16) : Surroundings where
  address _ := address
  verbatim _ _ := none
  call _ _ := none

theorem allAt_returns (address : UInt16) : (allAt address).Returns :=
  fun _ _ _ called => by cases called

/-- Five in the accumulator, and a return address on the stack. -/
def storedState : State where
  a := 5
  sp := 0xFD

theorem storedSeven_preserves : ∃ t,
    Along (allAt 0x80) storedLines (Spares (allAt 0x80) storedLines 0xFD) ⟨storedLines, storedState⟩
        ⟨[], t⟩ ∧
      t.a = 5 ∧ t.sp = 0xFD ∧ t.read 0x80 = 7 ∧
      ∀ line ∈ storedLines, line.writes scratchCell = false ∧ line.isCall = false := by
  have preserves : Preserves storedContext _ _ storedLines :=
    value_preserves storedScope_defined rfl storedSeven_eq_ok rfl
  have spares (p q : Point) (step : p.step? (allAt 0x80) storedLines = some q)
      (kept : q.cpu.read (State.slot 0xFD) = p.cpu.read (State.slot 0xFD) ∨ p.cpu.sp = 0xFD)
      (room : p.cpu.sp - 1 ≠ 0xFD) : Spares (allAt 0x80) storedLines 0xFD p := by
    refine ⟨fun raised r same => ?_, fun _ _ _ _ => room⟩
    cases step.symm.trans same
    exact kept.resolve_right raised
  have along : Along (allAt 0x80) storedLines (Spares (allAt 0x80) storedLines 0xFD)
      ⟨storedLines, storedState⟩
      ⟨[], ((Point.mk storedLines storedState).after (allAt 0x80) storedLines 4).cpu⟩ := by
    refine .head (spares _ _ rfl (.inr rfl) (by decide)) rfl ?_
    refine .head (spares _ _ rfl (.inl rfl) (by decide)) rfl ?_
    refine .head (spares _ _ rfl (.inl rfl) (by decide)) rfl ?_
    refine .head (spares _ _ rfl (.inl rfl) (by decide)) rfl ?_
    exact .refl _
  obtain ⟨a, sp⟩ := preserves.registers (allAt 0x80) (allAt_returns _) storedState _ along
  exact ⟨_, along, a, sp, rfl, preserves.scratch rfl (by decide)⟩

/-- A variable that lies where the accumulator is saved takes its place. -/
theorem not_preserves_overwritten : ¬ ∀ (scope : Scope) (e : Expr) (c d : Context) (place : Place)
    (code : List Line), scope.symbols.Defined → c.accInUse = true →
      (lower e).value scope c = .ok place d → d.code = c.code ++ code →
        ∀ w : Surroundings, w.Returns → ∀ s t : State,
          Code.Steps w code ⟨code, s⟩ ⟨[], t⟩ → t.a = s.a ∧ t.sp = s.sp := by
  intro preserved
  have steps : Code.Steps (allAt 0x1FD) storedLines ⟨storedLines, storedState⟩ _ :=
    .after 4 ⟨storedLines, storedState⟩
  have kept := preserved storedScope storedSeven storedContext _ _ storedLines storedScope_defined
    rfl
    storedSeven_eq_ok rfl (allAt 0x1FD) (allAt_returns _) storedState _ steps
  exact absurd kept.1 (by decide)

end Example

end Backend6502.Lowering
