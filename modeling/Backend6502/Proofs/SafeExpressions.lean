import Backend6502.Lowering.Expr
import Backend6502.Proofs.SafeSteps
import Backend6502.Source.Calls

/-!
# Expressions are safe

The steps for variables, stores, arithmetic, comparisons, conditions and calls are safe if those for
their operands are. Every branch inside them goes to a label of their own; the branches of a test go
to its target as well. By induction every expression is safe, both where its value is asked for and
where it is tested.
-/

namespace Backend6502.Lowering

open Cpu (Mnemonic)
open Source (Op Expr)
open Symbols (Variable)

namespace Built

variable {may : Licence} {quiet : Bool} {own : List String} {targets : String → Prop}

theorem extend (place : Place) : Built may quiet [] targets (extend place) := by
  refine .ite (.pure _) <| .bind .accInUse fun _ => .check (.withHigh _ ?_)
  exact .seq (.mild rfl _) <| .seq (.shiftAccumulator (.inl rfl) _) <|
    .seq (.mildByte rfl rfl _) <| .seq (.mildByte rfl rfl _) <|
      .seq (.mildByte rfl rfl _) (.pure _)

theorem element (place : Place) : Built may quiet [] targets (element place) :=
  .bind .inHigh fun _ => .ite (.extend place) (.pure _)

theorem readRegister (name : String) (index : Expr) :
    Built may quiet [] targets (readRegister name index) := by
  unfold Lowering.readRegister
  exact .check <| .bind .inHigh fun _ => .ite (.pure _) (.pure _)

theorem readScalar (v : Variable) : Built may quiet [] targets (readScalar v) :=
  .ite (.bind .inHigh fun _ => .pure _) (.element _)

theorem readConstantElement (v : Variable) (index : Int64) :
    Built may quiet [] targets (readConstantElement v index) := by
  refine .ite (.bind .inHigh fun _ => .ite (.extend _) ?_) ?_
  · exact .seq (.loadIndex _) (.pure _)
  · exact .ite (.fail _) (.element _)

theorem readElement (v : Variable) (index : Expr) :
    Built may quiet [] targets (readElement v index) := by
  unfold Lowering.readElement
  refine .check <| .check ?_
  split
  · exact .ite (.ite (.fail _) (.element _)) (.ite (.element _) (.fail _))
  · exact .readConstantElement v _
  · exact .fail _

theorem readVariable (name : String) (index : Expr) :
    Built may quiet [] targets (readVariable name index) := by
  refine .ite (.readRegister name index) <| .symbols (fun _ => rfl) fun _ => ?_
  split
  · exact .fail _
  · refine .ite ?_ <| .readElement _ index
    exact .ite (.pure _) (.readScalar _)

theorem deref (operand : Expr) : Built may quiet [] targets (deref operand) := by
  unfold Lowering.deref
  split
  · refine .symbols (fun _ => rfl) fun _ => ?_
    split
    · exact .fail _
    · refine .ite (.fail _) <| .bind .inHigh fun _ => ?_
      exact .ite (.extend _) <| .seq (.loadIndex _) (.pure _)
  · exact .fail _

theorem checkWritable (name : String) : Built may quiet [] targets (checkWritable name) := by
  refine .ite (.pure _) <| .symbols (fun _ => rfl) fun _ => ?_
  split
  · exact .fail _
  · exact .ite (.fail _) (.pure _)

theorem isWide (e : Expr) : Built may quiet [] targets (isWide e) :=
  .symbols (by simp) fun _ => .pure _

theorem target (e : Expr) : Built may quiet [] targets (target e) := by
  unfold Lowering.target
  split
  · refine .seq (.checkWritable _) <| .bind (.isWide _) fun _ => ?_
    exact .ite (.readVariable _ _) <| .withHigh _ (.readVariable _ _)
  · exact .deref _
  · exact .fail _

theorem keepingA {step : Gen Unit} (built : Built may false own targets step) :
    Built may false own targets (keepingA step) := by
  have restored (needed : Bool) : Loud may targets
      (if needed then Lowering.emitImplied .pla else Pure.pure ()) :=
    .ite (.emitImplied rfl rfl) (.pure _)
  refine .bind .accInUse fun needed => .ite ?_ ?_
  · exact .seq (.emitImplied rfl rfl) <| .first built fun _ => restored _
  · exact .first built fun _ => restored _

theorem storeX (value : Place) : Loud may targets (storeX value) := by
  unfold Lowering.storeX
  split
  · exact .pure _
  · exact .emitImplied rfl rfl
  · exact .keepingA (.seq (.emitImplied rfl rfl) (.emitImplied rfl rfl))
  · exact .emit rfl _

theorem storeY (value : Place) : Loud may targets (storeY value) := by
  unfold Lowering.storeY
  split
  · exact .pure _
  · exact .emitImplied rfl rfl
  · exact .keepingA (.seq (.emitImplied rfl rfl) (.emitImplied rfl rfl))
  · exact .emit rfl _

theorem storeMemory (place value : Place) : Loud may targets (storeMemory place value) := by
  unfold Lowering.storeMemory
  split
  · next found => exact .emit (store_plain found).1 _
  · exact .keepingA (.seq (.emit rfl _) (.emit rfl _))

theorem store (place value : Place) : Loud may targets (store place value) := by
  unfold Lowering.store
  split
  · exact .storeX value
  · exact .storeY value
  · exact .storeMemory _ value
  · exact .storeMemory _ value
  · exact .storeMemory _ value
  · exact .fail _

theorem strobe (e : Expr) : Loud may targets (strobe e) :=
  .bind (.target e) fun _ => .ite (.emit rfl _) (.fail _)

/-- A short piece of code that goes to a label behind it. -/
theorem nextHere {f : String → Gen Unit}
    (built : ∀ here,
      Built may false [here] (fun label => label = here ∨ targets label) (f here)) :
    Loud may targets (nextHere >>= f) := by
  unfold Lowering.nextHere
  rw [LawfulMonad.bind_assoc]
  simp only [LawfulMonad.pure_bind]
  refine .opening (fun n => [.here n])
    (takes_nextIf fun c => by simp [Label.Within, Context.countIf])
    .nextIf (by simp) fun n => ?_
  simpa using built (Label.here n).text

theorem incrementWide (v : Variable) : Loud may targets (incrementWide v) :=
  .nextHere fun here => .seq (.emit rfl _) <| .seq (.emitBranch rfl (.inl rfl)) <|
    .seq (.emit rfl _) (.putLabel here)

theorem decrementWide (v : Variable) : Loud may targets (decrementWide v) :=
  .nextHere fun here => .keepingA (.seq (.emit rfl _) <|
    .seq (.emitBranch rfl (.inl rfl)) <| .seq (.emit rfl _) <|
      .first (.putLabel here) fun _ => .emit rfl _)

theorem stepWide (v : Variable) (increments : Bool) : Loud may targets (stepWide v increments) :=
  .ite (.fail _) <| .ite (.incrementWide v) (.decrementWide v)

theorem stepPlace (place : Place) (increments : Bool) :
    Loud may targets (stepPlace place increments) := by
  unfold Lowering.stepPlace
  cases increments <;> split <;> first | exact .emitImplied rfl rfl | exact .emit rfl _

theorem step (e : Expr) (increments : Bool) : Loud may targets (step e increments) := by
  refine .symbols (by simp) fun _ => ?_
  split
  · exact .stepWide _ increments
  · exact .bind (.target e) fun _ => .stepPlace _ increments

theorem stepAll (deferred : List Deferred) : Loud may targets (stepAll deferred) := by
  induction deferred with
  | nil => exact .pure _
  | cons d rest ih => exact .seq (.step _ _) ih

theorem flush : Loud may targets flush :=
  .look (fun _ _ => rfl) fun _ => .seq (.modify (fun _ => rfl) (fun _ => rfl)
    (fun _ => .of_eq rfl rfl rfl) (fun _ _ => rfl) nofun) (.withHigh _ (.stepAll _))

theorem endStatement : Loud may targets endStatement :=
  .seq .flush <| .seq (.setAccInUse _) (.setScratchInUse _)

theorem constant (e : Expr) : Built may quiet [] targets (constant e) :=
  .symbols (by simp) fun _ => .pure _

theorem carries (e : Expr) : Built may quiet [] targets (carries e) := by
  unfold Lowering.carries
  split
  · exact .ite (.bind (.constant _) fun _ => .pure _) (.pure _)
  · exact .pure _

end Built

/-- An operand whose value is found by calls of such functions. -/
def Operand.IsBuilt (may : Licence) (o : Operand) : Prop :=
  ∀ {targets : String → Prop}, Loud may targets o.value

namespace Built

variable {may : Licence} {quiet : Bool} {targets : String → Prop}
variable {lhs rhs : Operand}

theorem checkHighArith (op : Op) (lhs rhs : Expr) :
    Built may quiet [] targets (checkHighArith op lhs rhs) := by
  refine .bind .inHigh fun _ => .ite ?_ (.pure _)
  refine .symbols (by simp) fun _ => .check <| .ite ?_ (.pure _)
  refine .bind (.carries lhs) fun _ => .check <| .bind (.carries rhs) fun _ => ?_
  exact .ite (.fail _) (.pure _)

theorem bothValues (left : lhs.IsBuilt may) (right : rhs.IsBuilt may) :
    Loud may targets (bothValues lhs rhs) := by
  have second (outer : Bool) (l : Place) : Loud may targets (do
      let r ← rhs.value
      Lowering.setAccInUse outer
      return (l, r)) :=
    .bind right fun _ => .seq (.setAccInUse _) (.pure _)
  refine .bind .accInUse fun outer => .bind left fun l => .ite ?_ (second outer l)
  exact .seq (.setAccInUse _) (second outer l)

section

variable (op : Op)

include op

theorem instructionOf : Built may quiet [] targets (instructionOf op) := by
  unfold Lowering.instructionOf
  split
  · exact .fail _
  · exact .fail _
  · exact .fail _
  · split
    · exact .pure _
    · exact .fail _

theorem yields_instructionOf : Yields (fun m => isMild m = true) (Lowering.instructionOf op) := by
  unfold Lowering.instructionOf
  cases op <;> first | exact .fail _ | exact .pure rfl

theorem freeAccumulator (l r : Place) : Built may quiet [] targets (freeAccumulator op l r) := by
  refine .ite (.ite (.pure _) ?_) (.pure _)
  exact .bind (.spill r) fun _ => .pure _

theorem freeIndexRegister (l r : Place) :
    Built may quiet [] targets (freeIndexRegister op l r) := by
  refine .ite (.ite (.pure _) ?_) (.pure _)
  exact .bind (.spill r) fun _ => .pure _

theorem prepareCarry : Built may quiet [] targets (prepareCarry op) := by
  have second :
      Built may quiet [] targets (if op = .sub then Lowering.emitImplied .sec else Pure.pure ()) :=
    .ite (.mildImplied rfl rfl) (.pure _)
  refine .bind .inHigh fun _ => .ite (.ite ?_ second) (.pure _)
  exact .seq (.mildImplied rfl rfl) second

theorem apply {m : Mnemonic} (mild : isMild m = true) (l r : Place) :
    Built may quiet [] targets (apply op m l r) := by
  have finish (pushed signed : Bool) : Built may quiet [] targets (do
      Lowering.prepareCarry op
      Lowering.emit m r
      Lowering.restore pushed signed) :=
    .seq (.prepareCarry op) <| .seq (.mild mild r) (.restore _ _)
  refine .bind .accInUse fun outer => .ite ?_ (finish _ _)
  refine .look (fun _ _ => rfl) fun _ => .check <| .seq (.save outer) ?_
  exact .seq (.loadA l) (finish _ _)

theorem arith (left : lhs.IsBuilt may) (right : rhs.IsBuilt may) :
    Loud may targets (arith op lhs rhs) := by
  refine .seq (.checkHighArith _ _ _) <| .bind (.bothValues left right) fun values => ?_
  dsimp only
  split
  · split
    · exact .pure _
    · exact .fail _
  · refine .bind_of (yields_instructionOf op) (.instructionOf op) fun m mild => .check ?_
    refine .bind (.freeAccumulator _ _ _) fun _ => .bind (.freeIndexRegister _ _ _) fun _ => ?_
    exact .apply op mild _ _

theorem shiftOnce (signed : Bool) : Built may quiet [] targets (shiftOnce op signed) := by
  refine .ite (.shiftAccumulator (.inl rfl) _) <| .ite ?_ ?_
  · exact .seq (.mildByte rfl rfl _) <| .shiftAccumulator (.inr (.inr rfl)) _
  · exact .shiftAccumulator (.inr (.inl rfl)) _

theorem shiftTimes (signed : Bool) (count : Nat) :
    Built may quiet [] targets (shiftTimes op signed count) := by
  induction count with
  | zero => exact .pure _
  | succ count ih => exact .seq (.shiftOnce op signed) ih

theorem shiftBits (left : lhs.IsBuilt may) (amount : Int64) :
    Loud may targets (shiftBits op lhs amount) := by
  unfold Lowering.shiftBits
  refine .check <| .bind .accInUse fun outer => .bind left fun l => ?_
  split
  · exact .pure _
  · refine .bind .inHigh fun _ => .check <| .ite (.pure _) ?_
    have finish (pushed : Bool) : Loud may targets (do
        Lowering.shiftTimes op l.signed amount.toInt.toNat
        Lowering.restore pushed l.signed) :=
      .seq (.shiftTimes _ _ _) (.restore _ _)
    refine .ite ?_ (finish _)
    exact .seq (.save outer) <| .seq (.loadA l) (finish _)

end

theorem shiftByteLeft (left : lhs.IsBuilt may) :
    Loud may targets (shiftByteLeft lhs) :=
  .bind .inHigh fun _ => .ite (.withHigh _ left) (.pure _)

theorem shiftByteRight (left : lhs.IsBuilt may) :
    Loud may targets (shiftByteRight lhs) := by
  refine .symbols (by simp) fun _ => ?_
  split
  · exact .bind .inHigh fun _ => .ite (.pure _) (.pure _)
  · exact .shiftBits .shr left 8

theorem shift (op : Op) (left : lhs.IsBuilt may) (amount : Expr) :
    Loud may targets (shift op lhs amount) := by
  refine .bind (.constant amount) fun _ => ?_
  split
  · exact .fail _
  · refine .ite ?_ <| .shiftBits op left _
    exact .ite (.shiftByteLeft left) (.shiftByteRight left)

theorem arithOrShift (op : Op) (left : lhs.IsBuilt may) (right : rhs.IsBuilt may) :
    Loud may targets (arithOrShift op lhs rhs) :=
  .ite (.shift op left _) (.arith op left right)

theorem branchOn {op : Op} (compares : op.isCompare = true) (signed : Bool) {label : String}
    (target : targets label) : Loud may targets (branchOn op signed label) := by
  have less : (if signed then Mnemonic.bmi else .bcc).isBranch = true := by cases signed <;> rfl
  have notLess : (if signed then Mnemonic.bpl else .bcs).isBranch = true := by cases signed <;> rfl
  cases op with
  | eq => exact .emitBranch (m := .beq) rfl target
  | ne => exact .emitBranch (m := .bne) rfl target
  | lt => exact .emitBranch less target
  | ge => exact .emitBranch notLess target
  | le => exact .seq (.emitBranch less target) (.emitBranch rfl target)
  | gt =>
    exact .nextHere fun here => .seq (.emitBranch rfl (.inl rfl)) <|
      .seq (.emitBranch notLess (.inr target)) (.putLabel here)
  | _ => cases compares

end Built

theorem isCompare_swapped {op : Op} (compares : op.isCompare = true) :
    (swapped op).isCompare = true := by
  cases op <;> first | rfl | cases compares

theorem isCompare_negated {op : Op} (compares : op.isCompare = true) :
    (negated op).isCompare = true := by
  cases op <;> first | rfl | cases compares

namespace Comparison

variable {may : Licence} {quiet : Bool} {targets : String → Prop}
variable {c : Comparison}

def IsSound (c : Comparison) : Prop :=
  c.op.isCompare = true

theorem IsSound.swap (sound : c.IsSound) : c.swap.IsSound :=
  isCompare_swapped sound

theorem yields_arrange (sound : c.IsSound) : Yields IsSound c.arrange := by
  refine .ite ?_ (.pure sound)
  have turned : (if !c.l.isRegister || c.r.isAccumulator then c.swap else c).IsSound := by
    split
    · exact sound.swap
    · exact sound
  exact .ite (.bind fun _ => .pure turned) (.pure turned)

theorem yields_stage (sound : c.IsSound) (signed : Bool) :
    Yields (fun staged => staged.1.IsSound) (c.stage signed) := by
  refine .bind fun _ => .bind fun _ => .ite (.pure sound) ?_
  exact .ite (.bind fun _ => .ite (.bind fun _ => .bind fun _ => .pure sound) <| .bind fun _ =>
    .pure sound) (.pure sound)

theorem built_arrange (c : Comparison) : Built may quiet [] targets c.arrange := by
  refine .ite ?_ (.pure _)
  exact .ite (.bind (.spill _) fun _ => .pure _) (.pure _)

theorem built_stage (c : Comparison) (signed : Bool) :
    Built may quiet [] targets (c.stage signed) := by
  refine .look (fun _ _ => rfl) fun _ => .look (fun _ _ => rfl) fun _ => .ite (.pure _) ?_
  refine .ite (.bind .accInUse fun _ => .check ?_) (.pure _)
  exact .seq (.loadA _) (.pure _)

theorem built_settle (c : Comparison) (outer : Bool) :
    Loud may targets (c.settle outer) := by
  have finish : Loud may targets (do Lowering.flush; setAccInUse outer) :=
    .seq .flush (.setAccInUse _)
  exact .ite (.seq (.setAccInUse _) finish) finish

theorem isMild_of_compareOf? {place : Place} {m : Mnemonic} (found : compareOf? place = some m) :
    isMild m = true := by
  cases place <;> cases found <;> rfl

theorem built_compareSides (c : Comparison) :
    Built may quiet [] targets c.compareSides := by
  unfold compareSides
  split
  · next found => exact .mild (isMild_of_compareOf? found) _
  · exact .pure _

theorem yields_answer (sound : c.IsSound) (signed : Bool) :
    Yields (fun op => op.isCompare = true) (c.answer signed) := by
  refine .bind fun _ => .bind_of (yields_arrange sound) fun arranged fine => ?_
  refine .bind_of (yields_stage fine signed) fun staged fine => .bind fun _ => ?_
  exact .ite (.bind fun _ => .pure fine) (.pure fine)

theorem built_answer (c : Comparison) (signed : Bool) :
    Loud may targets (c.answer signed) := by
  refine .bind .accInUse fun _ => .bind (built_arrange c) fun _ =>
    .bind (built_stage _ _) fun _ => ?_
  exact .seq (built_settle _ _) <|
    .ite (.seq (built_compareSides _) (.pure _)) (.pure _)

theorem built_emit (sound : c.IsSound) {label : String} (target : targets label) (negate : Bool) :
    Loud may targets (c.emit label negate) := by
  refine .bind_of (yields_answer sound _) (built_answer c _) fun op compares => ?_
  refine .branchOn ?_ _ target
  split
  · exact isCompare_negated compares
  · exact compares

end Comparison

namespace Built

variable {may : Licence} {quiet : Bool} {targets : String → Prop}

theorem compareValues {op : Op} (compares : op.isCompare = true) (l r : Place) {label : String}
    (target : targets label) (negate : Bool) :
    Loud may targets (compareValues op l r label negate) := by
  have sound : Comparison.IsSound ⟨op, l, r⟩ := compares
  unfold Lowering.compareValues
  refine .check ?_
  split
  · exact .ite (.emitJump target) (.pure _)
  · exact Comparison.built_emit sound.swap target negate
  · exact Comparison.built_emit sound target negate

theorem compare {op : Op} (compares : op.isCompare = true) {lhs rhs : Operand}
    (left : lhs.IsBuilt may) (right : rhs.IsBuilt may) {label : String} (target : targets label)
    (negate : Bool) :
    Loud may targets (compare op lhs rhs label negate) := by
  refine .bind (.isWide _) fun _ => .check <| .bind (.isWide _) fun _ => .check ?_
  exact .withHigh _ (.bind (.bothValues left right) fun values =>
    .compareValues compares _ _ target negate)

end Built

open Symbols (Function)

variable {may : Licence} {label : String}

/-- A test by calls of such functions, whose branches go to its target or to labels of its own. -/
def Test.IsBuilt (may : Licence) (test : Test) : Prop :=
  ∀ {targets : String → Prop} {label : String}, targets label → ∀ negate,
    Loud may targets (test label negate)

namespace Built

variable {test : Test}
variable {may : Licence} {quiet : Bool} {targets : String → Prop}

theorem unlessConstant (e : Expr) (tests : test.IsBuilt may) :
    Test.IsBuilt may (unlessConstant e test) := by
  intro targets label target negate
  refine .bind (.constant e) fun _ => ?_
  split
  · exact .ite (.emitJump target) (.pure _)
  · exact tests target negate

theorem choose (cond : Expr) (tests : test.IsBuilt may) (negate : Bool)
    {a b : Gen Place} (first : ∀ {targets}, Loud may targets a)
    (second : ∀ {targets}, Loud may targets b) :
    Loud may targets (choose cond test negate a b) := by
  refine .bind (.constant cond) fun _ => ?_
  split
  · exact .ite first second
  · refine .bind .accInUse fun outer => .seq (.save outer) <| .seq (.setAccInUse _) ?_
    refine .opening (fun n => [.otherwise n, .ifEnd n])
      (takes_nextIf fun c => by simp [Label.Within, Context.countIf]) .nextIf (by simp) fun n => ?_
    refine .bind (tests (.inl (by simp)) _) fun _ => .bind first fun va => .seq (.loadA va) ?_
    refine .seq (.emitJump (.inl (by simp))) <| .labelled _ fun _ => .bind second fun vb => ?_
    exact .seq (.loadA vb) <| .first (.putLabel _) fun _ => .seq (.setAccInUse _) <|
      .restore _ _

theorem truthValue (cond : Expr) (tests : test.IsBuilt may) (negate : Bool) :
    Loud may targets (truthValue cond test negate) := by
  refine .bind (.constant cond) fun _ => ?_
  split
  · exact .pure _
  · exact .choose cond tests negate (.pure _) (.pure _)

end Built

/-- An operand that is built by calls of such functions in each of its uses. -/
structure Lowered.IsBuilt (may : Licence) (o : Lowered) : Prop where
  value : o.toOperand.IsBuilt may
  test : o.test.IsBuilt may
  arms : ∀ a b, o.arms = some (a, b) → (∀ {targets}, Loud may targets a) ∧
    ∀ {targets}, Loud may targets b

namespace Lowered

variable {may : Licence}

theorem IsBuilt.ofOperand {o : Operand} (built : o.IsBuilt may) :
    (ofOperand o).IsBuilt may where
  value := built
  test := .unlessConstant _ fun target negate => .compare rfl built (.pure _) target negate
  arms _ _ none := by cases none

theorem IsBuilt.ofTest (e : Expr) {test : Test} (tests : test.IsBuilt may) :
    (ofTest e test).IsBuilt may where
  value := .truthValue e (.unlessConstant e tests) false
  test := .unlessConstant e tests
  arms _ _ none := by cases none

theorem IsBuilt.not {o : Lowered} (built : o.IsBuilt may) : o.not.IsBuilt may where
  value := .truthValue _ built.test true
  test := .unlessConstant _ fun target negate => built.test target (!negate)
  arms _ _ none := by cases none

end Lowered

namespace Built

variable {may : Licence} {quiet : Bool} {targets : String → Prop}
variable {lhs rhs : Lowered}

section

variable (left : lhs.IsBuilt may) (right : rhs.IsBuilt may)

include left right

theorem bothTests : Test.IsBuilt may (bothTests lhs rhs) := by
  intro targets label target negate
  refine .opening (fun n => [.pastCond n])
    (takes_nextIf fun c => by simp [Label.Within, Context.countIf]) .nextIf (by simp) fun n => ?_
  exact .bind (left.test (.inl (by simp)) _) fun _ => .bind (right.test (.inr target) _) fun _ =>
    .putLabel _

theorem eitherTest : Test.IsBuilt may (eitherTest lhs rhs) :=
  fun target _ => .bind (left.test target _) fun _ => right.test target _

theorem andTest : Test.IsBuilt may (andTest lhs rhs) :=
  fun target _ => .ite (eitherTest left right target _) (bothTests left right target _)

theorem orTest : Test.IsBuilt may (orTest lhs rhs) :=
  fun target _ => .ite (bothTests left right target _) <| eitherTest left right target _

end

theorem isStepping (op : Op) (rhs : Expr) : Built may quiet [] targets (isStepping op rhs) := by
  unfold Lowering.isStepping
  split
  · exact .ite (.bind (.constant rhs) fun _ => .pure _) (.pure _)
  · exact .pure _

theorem shiftInPlace (base : Op) (lhs : Expr) (amount : Int64) :
    Loud may targets (shiftInPlace base lhs amount) := by
  have other : ((if base = .shr then Cpu.Mnemonic.lsr else .asl) == .jmp ||
      (if base = .shr then Cpu.Mnemonic.lsr else .asl) == .jsr) = false := by
    split <;> rfl
  unfold Lowering.shiftInPlace
  refine .symbols (by simp) fun _ => .ite (.pure _) <| .bind (.target lhs) fun _ => ?_
  split
  · exact .seq (.emitTimes other _ _) (.pure _)
  · exact .seq (.emitTimes other _ _) (.pure _)
  · exact .pure _

theorem assignInPlace (base : Op) (lhs rhs : Expr) :
    Loud may targets (assignInPlace base lhs rhs) := by
  refine .bind (.constant rhs) fun _ => .bind .inHigh fun _ => ?_
  split
  · split
    · exact .ite (.bind (.target lhs) fun _ => .seq (.step lhs _) (.pure _)) (.pure _)
    · exact .ite (.bind (.target lhs) fun _ => .seq (.step lhs _) (.pure _)) (.pure _)
    · exact .shiftInPlace _ lhs _
    · exact .shiftInPlace _ lhs _
    · exact .pure _
  · exact .pure _

theorem shelter (lhs : Expr) (value : Place) : Built may quiet [] targets (shelter lhs value) := by
  have sheltered : Built may quiet [] targets (do
      if needsY (← Lowering.symbols) lhs then
        if ← Lowering.accInUse then Lowering.fail .tooComplex
        Lowering.loadA value
        return Place.accumulator value.signed
      else return value) :=
    .symbols (by simp) fun _ => .ite (.bind .accInUse fun _ => .check <|
      .seq (.loadA _) (.pure _)) (.pure _)
  unfold Lowering.shelter
  split
  · exact sheltered
  · exact sheltered
  · exact sheltered
  · exact .pure _

theorem storeValue (lhs : Expr) {value : Gen Place}
    (built : ∀ {targets}, Loud may targets value) :
    Loud may targets (storeValue lhs value) := by
  refine .bind .accInUse fun outer => .bind built fun v => ?_
  have finish (sheltered : Place) : Loud may targets (do
      let place ← Lowering.target lhs
      Lowering.store place sheltered
      Lowering.setAccInUse outer
      return place) :=
    .bind (.target lhs) fun _ => .seq (.store _ _) <| .seq (.setAccInUse _) (.pure _)
  split
  · exact .fail _
  · exact .fail _
  · refine .bind (.shelter lhs v) fun sheltered => ?_
    exact .ite (.seq (.setAccInUse _) (finish _)) (finish _)

theorem assignByte (op : Op) {lhs rhs : Operand} (left : lhs.IsBuilt may)
    (right : rhs.IsBuilt may) :
    Loud may targets (assignByte op lhs rhs) := by
  unfold Lowering.assignByte
  split
  · exact .storeValue _ right
  · refine .bind .accInUse fun _ => .bind (.assignInPlace _ _ _) fun _ => ?_
    split
    · exact .seq (.setAccInUse _) (.pure _)
    · exact .storeValue _ (.arithOrShift _ left right)

theorem movesUp (op : Op) (rhs : Expr) : Built may quiet [] targets (movesUp op rhs) := by
  unfold Lowering.movesUp
  split
  · exact .bind (.constant _) fun _ => .pure _
  · exact .bind (.constant _) fun _ => .pure _
  · exact .pure _

theorem assignWide (op : Op) {lhs rhs : Operand} (left : lhs.IsBuilt may)
    (right : rhs.IsBuilt may) :
    Loud may targets (assignWide op lhs rhs) := by
  have work (outer : Bool) : Loud may targets (do
      Lowering.setAccInUse outer
      Lowering.assignByte op lhs rhs) :=
    .seq (.setAccInUse _) (.assignByte op left right)
  have ends (low : Place) : Loud may targets (do
      setHigh false
      return low) :=
    .seq .setLow (.pure _)
  refine .bind (.movesUp op _) fun _ => .bind .accInUse fun outer => .ite ?_ ?_
  · exact .pass true (work outer) (fun _ => .pass false (work outer) ends fun _ _ _ => rfl)
      fun _ _ _ => rfl
  · exact .pass false (work outer) (fun _ =>
      .pass true (work outer) (fun _ => ends _) fun _ _ _ => rfl)
      fun _ _ _ => rfl

theorem checkRegisterTarget (lhs rhs : Expr) :
    Built may quiet [] targets (checkRegisterTarget lhs rhs) := by
  unfold Lowering.checkRegisterTarget
  split
  · exact .ite (.bind (.isWide rhs) fun _ => .ite (.fail _) (.pure _)) (.pure _)
  · exact .pure _

theorem assign (op : Op) {lhs rhs : Operand} (left : lhs.IsBuilt may) (right : rhs.IsBuilt may) :
    Loud may targets (assign op lhs rhs) := by
  refine .symbols (by simp) fun _ => .bind (.isStepping _ _) fun stepping =>
    .bind .inHigh fun _ => ?_
  split
  · exact left
  · exact .ite left (.assignByte op left right)
  · exact .seq (.checkRegisterTarget _ _) (.assignByte op left right)
  · exact .ite (.seq (.stepWide _ _) (.pure _)) (.assignWide op left right)

theorem incDec (op : Op) {operand : Operand} (built : operand.IsBuilt may) :
    Loud may targets (incDec op operand) := by
  refine .bind (.target _) fun place => .bind .inHigh fun _ => .ite built ?_
  refine .ite ?_ <| .seq (.step _ _) (.pure _)
  exact .seq (.modify (fun _ => rfl) (fun _ => rfl) (fun _ => .of_eq rfl rfl rfl) (fun _ _ => rfl)
    nofun) (.pure _)

theorem onlyArgument (name : String) (args : List Operand) :
    Built may quiet [] targets (onlyArgument name args) := by
  unfold Lowering.onlyArgument
  split
  · exact .pure _
  · exact .fail _

theorem loadCall {arg : Operand} (built : arg.IsBuilt may) : Loud may targets (loadCall arg) := by
  refine .bind .accInUse fun _ => .check <| .bind built fun v => ?_
  exact .seq (.loadA v) (.pure _)

theorem storeCall (arg : Operand) : Loud may targets (storeCall arg) :=
  .bind (.target _) fun _ => .seq (.store _ _) (.pure _)

theorem strobeCall (arg : Operand) : Loud may targets (strobeCall arg) :=
  .seq (.strobe _) (.pure _)

theorem sleep (cycles : Int64) : Built may quiet [] targets (sleep cycles) := by
  have waits (count : Nat) : Built may quiet [] targets
      (Lowering.addTimes count .nop .implied "") :=
    .of_loud (.addTimes rfl rfl rfl _ _) fun _ => .addTimes _ fun _ found =>
      isQuiet_of_isMild rfl found
  refine .ite (.seq (.of_loud (.addTimes rfl rfl rfl 1 _) fun _ => .addTimes 1 ?_) <|
    .seq (.setFlags _) (waits _)) (waits _)
  exact fun _ found => isQuiet_of_isMild rfl found

theorem sleepCall (arg : Operand) : Loud may targets (sleepCall arg) := by
  refine .bind (.constant _) fun _ => ?_
  split
  · exact .fail _
  · exact .check <| .seq (.sleep _) (.pure _)

theorem builtinCall (name : String) {args : List Operand} (built : ∀ arg ∈ args, arg.IsBuilt may) :
    Loud may targets (builtinCall name args) := by
  have only : Yields (Operand.IsBuilt may) (Lowering.onlyArgument name args) := by
    unfold Lowering.onlyArgument
    split
    · exact .pure (built _ (List.mem_singleton_self _))
    · exact .fail _
  have argument : Loud may targets (Lowering.onlyArgument name args) := .onlyArgument name args
  refine .ite (.bind_of only argument fun arg fine => .loadCall fine) ?_
  refine .ite (.bind argument fun arg => .storeCall arg) ?_
  refine .ite (.bind argument fun arg => .strobeCall arg) ?_
  exact .ite (.bind argument fun arg => .sleepCall arg) (.fail _)

theorem returnedHigh (f : Function) : Loud may targets (returnedHigh f) :=
  .ite (.pure _) <| .ite (.fail _) (.pure _)

end Built

/-- A step without calls of functions. -/
theorem Safe.of_built {α : Type} {targets : String → Prop} {m : Gen α}
    (built : Built ⟨fun _ => False, False⟩ false [] targets m) : Safe targets m :=
  built.places

section Calls

variable {targets : String → Prop}

theorem safe_callTarget (f : Function) : Safe targets (callTarget f) := by
  unfold callTarget
  refine .later (fun _ c _ => .refl c) fun _ => .ite (Safe.pure _) <|
    .ite ?_ (.fail _)
  exact .later (Safe.modify (fun _ => rfl) (fun _ => rfl) (fun _ => id) fun _ => .of_eq rfl rfl rfl)
    fun _ => Safe.pure _

theorem safe_callFunction (f : Function) : Safe targets (callFunction f) := by
  refine .later (safe_callTarget f) fun _ => .later (.of_built .accInUse) fun outer =>
    .later (.of_built (.save outer)) fun _ => .later (.emit rfl _) fun _ => Safe.of_built ?_
  refine .ite (.restore _ _) <| .ite ?_ (.pure _)
  exact .seq (.emitImplied rfl rfl) (.pure _)

theorem safe_programCall (name : String) (argCount : Nat) :
    Safe targets (programCall name argCount) := by
  refine .later (fun _ c _ => .refl c) fun _ => ?_
  split
  · exact .fail _
  · refine .check <| .check <| .later (.of_built .inHigh) fun _ => ?_
    exact .ite (Safe.of_built (.returnedHigh _)) (safe_callFunction _)

theorem Built.call {name : String} (called : may.calls name) {args : List Operand}
    (built : ∀ arg ∈ args, arg.IsBuilt may) :
    Loud may targets (call name args) := by
  refine .ite (.bind .inHigh fun _ => ?_) <|
    ⟨safe_programCall name _, .programCall called _, nofun⟩
  exact .ite (.pure _) (.builtinCall name built)

theorem isBuilt_lowerUnary (op : Op) {operand : Lowered} (built : operand.IsBuilt may) :
    (lowerUnary op operand).IsBuilt may := by
  unfold lowerUnary
  split
  · exact .ofOperand (.arith .sub (.pure _) built.value)
  · exact .ofOperand (.arith .xor built.value (.pure _))
  · exact built.not
  · exact .ofOperand (.deref _)
  · exact .ofOperand (.fail _)

theorem isBuilt_lowerBinary (op : Op) {lhs rhs : Lowered} (left : lhs.IsBuilt may)
    (right : rhs.IsBuilt may) : (lowerBinary op lhs rhs).IsBuilt may := by
  have chosen : Operand.IsBuilt may
      ⟨.binary .choice lhs.expr rhs.expr, chooseArms lhs rhs.arms⟩ := by
    intro targets
    unfold chooseArms
    split
    · next a b found =>
      obtain ⟨first, second⟩ := right.arms a b found
      exact .choose _ left.test false first second
    · exact .fail _
  have stray : (Lowered.ofOperand ⟨.binary .arms lhs.expr rhs.expr, fail .strayArms⟩).IsBuilt may :=
    .ofOperand (Built.fail _)
  have compares {op : Op} (compares : op.isCompare = true) :
      Test.IsBuilt may (compare op lhs.toOperand rhs.toOperand) :=
    fun target negate => .compare compares left.value right.value target negate
  unfold lowerBinary
  split
  iterate 6 exact .ofTest _ (compares rfl)
  · exact .ofTest _ (.andTest left right)
  · exact .ofTest _ (.orTest left right)
  · exact .ofOperand chosen
  · refine ⟨stray.value, stray.test, ?_⟩
    rintro a b ⟨⟩
    exact ⟨left.value, right.value⟩
  · split
    · exact .ofOperand (.assign _ left.value right.value)
    · exact .ofOperand (.arithOrShift _ left.value right.value)

end Calls

mutual

/-- Every expression is safe, and its code calls the functions that it names. -/
theorem isBuilt_lower :
    ∀ e : Expr, (∀ name ∈ e.calls, may.calls name) → (lower e).IsBuilt may
  | .absent, _ | .nothing, _ | .int _, _ => .ofOperand (.pure _)
  | .var name index, _ => .ofOperand (.readVariable name index)
  | .binary op lhs rhs, named =>
    isBuilt_lowerBinary op
      (isBuilt_lower lhs fun name inside => named name (List.mem_append_left _ inside))
      (isBuilt_lower rhs fun name inside => named name (List.mem_append_right _ inside))
  | .unary op operand, named => isBuilt_lowerUnary op (isBuilt_lower operand named)
  | .incDec op operand, named =>
    .ofOperand (.incDec op (isBuilt_lower operand named).value)
  | .call name args, named =>
    .ofOperand (.call (named name List.mem_cons_self)
      (isBuilt_lowerAll args fun other inside => named other (List.mem_cons_of_mem _ inside)))

theorem isBuilt_lowerAll :
    ∀ es : List Expr, (∀ name ∈ Expr.callsAll es, may.calls name) →
      ∀ arg ∈ lowerAll es, arg.IsBuilt may
  | [], _, _, inside => by cases inside
  | e :: rest, named, arg, inside => by
    rcases List.mem_cons.mp inside with rfl | inside
    · exact (isBuilt_lower e fun name here => named name (List.mem_append_left _ here)).value
    · exact isBuilt_lowerAll rest (fun name here => named name (List.mem_append_right _ here))
        arg inside

end

section Safety

variable {targets : String → Prop} (e : Expr)

theorem safe_value : Safe targets (lower e).value :=
  (isBuilt_lower e fun _ _ => trivial : (lower e).IsBuilt ⟨fun _ => True, True⟩).value.places

theorem safe_test (target : targets label) (negate : Bool) :
    Safe targets ((lower e).test label negate) :=
  ((isBuilt_lower e fun _ _ => trivial : (lower e).IsBuilt ⟨fun _ => True, True⟩).test target
    negate).places

end Safety

theorem ensures_test {e : Expr} {negate : Bool} {scope : Scope} {c : Context}
    {Q : Unit → Context → Prop}
    (holds : ∀ u after, (lower e).test label negate scope c = .ok u after → Q u after) :
    Ensures ((lower e).test label negate) scope c Q := by
  have safe : Safe (fun _ => True) ((lower e).test label negate) := safe_test e trivial negate
  exact (safe scope c fun _ _ => ⟨trivial, fun _ _ => trivial⟩).imp_of_ok fun u after ok _ =>
    holds u after ok

end Backend6502.Lowering
