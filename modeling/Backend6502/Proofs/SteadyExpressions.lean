import Backend6502.Proofs.SteadySteps

/-!
# Values and comparisons are steady

The steps for variables, stores, arithmetic and comparisons are steady if those for their operands
are. A value that is asked for while the accumulator is in use does not come back in it, and while
the scratch cell is in use it does not come back there.
-/

namespace Backend6502

theorem Symbols.Table.Defined.name_ne_scratchCell {t : Table} {name : String} {v : Variable}
    (defined : t.Defined) (found : t.getVariable? name = some v) : v.name ≠ scratchCell := by
  intro same
  have free := defined.isReserved_eq_false v (of_getVariable? found).1
  rw [same] at free
  cases free

namespace Lowering

open Cpu (Mnemonic)
open Source (Op Expr)
open Symbols (Table Variable scratchCell)

variable {p : Stand} {full : Bool}

theorem name_of_wideVariable? {t : Table} {e : Expr} {v : Variable} (defined : t.Defined)
    (found : wideVariable? t e = some v) : v.name ≠ scratchCell := by
  unfold wideVariable? at found
  split at found
  · exact defined.name_ne_scratchCell (Option.eq_some_of_filter_eq_some found)
  · cases found

namespace Steady

variable {place : Place} {v : Variable}
variable {full : Bool} {targets : String → Nat → Prop} {p : Stand}

theorem readRegister (name : String) (index : Expr) :
    Finds full targets p (readRegister name index) := by
  refine .check fun _ => .bind .inHigh fun _ _ => ?_
  refine .ite (.give (.of_unnamed rfl rfl rfl)) (.give ?_)
  split
  · exact .of_unnamed rfl rfl rfl
  · exact .of_unnamed rfl rfl rfl

theorem checkWritable (name : String) : Tame full targets p (checkWritable name) := by
  refine .ite .done <| .bind .symbols fun _ _ => ?_
  split
  · exact .fail _
  · exact .ite (.fail _) .done

theorem isWide (e : Expr) : Tame full targets p (isWide e) :=
  .bind .symbols fun _ _ => .done

/-- The step runs with the accumulator on the stack, unless nobody needs it. -/
theorem keepingA {own : List (Nat × String)} {step : Gen Unit}
    (tacit : Tacit full own targets (p.push p.acc) (p.push p.acc) Any step) :
    Tacit full own targets p p Any (keepingA step) := by
  refine .bind .accInUse fun needed found => ?_
  cases found
  cases acc : p.acc with
  | true =>
    rw [acc] at tacit
    exact .seq .push <| .first tacit fun _ _ => .pull
  | false =>
    rw [acc] at tacit
    exact .first tacit fun _ _ => .done

/-- A short piece of code that goes to a label behind it. -/
theorem nextHere {f : String → Gen Unit} (h : Nat)
    (tacit : ∀ here, Tacit full [(h, here)]
      (fun name height => (height, name) ∈ [(h, here)] ∨ targets name height) p p Any (f here)) :
    Tame full targets p (nextHere >>= f) := by
  unfold Lowering.nextHere
  rw [bind_assoc]
  simp only [pure_bind]
  exact .opening (fun n => [(h, (Label.here n).text)]) fun n => tacit (Label.here n).text

theorem constant (e : Expr) : Tame full targets p (constant e) :=
  .bind .symbols fun _ _ => .done

theorem carries (e : Expr) : Tame full targets p (carries e) := by
  unfold Lowering.carries
  split
  · exact .ite (.bind (.constant _) fun _ _ => .done) .done
  · exact .done

section Sound

variable {value : Place} (sound : p.Sound)

include sound

theorem extend (clear : place.Clear full) :
    Finds full targets p (extend place) := by
  refine .ite (.give (.of_unnamed rfl rfl rfl)) ?_
  refine .whenFree sound fun free raised _ => .withHigh _ ?_
  refine .seq (.emit raised rfl clear) ?_
  refine .seq (.emit raised rfl (Place.clear_of_unnamed rfl rfl)) ?_
  refine .seq (.emitByte rfl (absurd · raised) _) ?_
  refine .seq (.emitByte rfl (absurd · raised) _) ?_
  exact .seq (.emitByte rfl (absurd · raised) _) <| .give (.accumulator free true)

theorem element (kept : place.Kept p.acc full) :
    Finds full targets p (element place) :=
  .bind .inHigh fun _ _ => .ite (.extend sound kept.clear) (.give kept)

section

variable (named : v.name ≠ scratchCell)

include named

theorem readScalar : Finds full targets p (readScalar v) := by
  refine .ite (.bind .inHigh fun _ _ => .give ?_) (.element sound ?_)
  · exact .of_named named rfl rfl
  · exact .of_named named rfl rfl

theorem readConstantElement (index : Int64) :
    Finds full targets p (readConstantElement v index) := by
  have indexed : Place.Kept p.acc full (.indexedY v.name v.signed) :=
    .of_named named rfl rfl
  refine .ite (.bind .inHigh fun _ _ => .ite ?_ ?_) ?_
  · exact .extend sound indexed.clear
  · exact .seq (.emitByte rfl (fun _ => rfl) _) (.give indexed)
  · exact .ite (.fail _) <| .element sound (.of_named named rfl rfl)

theorem readElement (index : Expr) : Finds full targets p (readElement v index) := by
  refine .check fun _ => .check fun _ => ?_
  split
  · refine .ite (.ite (.fail _) (.element sound ?_)) <| ?_
    · exact .of_named named rfl rfl
    · exact .ite (.element sound (.of_named named rfl rfl)) (.fail _)
  · exact .readConstantElement sound named _
  · exact .fail _

end

theorem readVariable (name : String) (index : Expr) :
    Finds full targets p (readVariable name index) := by
  refine .ite (.readRegister name index) <| .bind .symbols fun t defined => ?_
  split
  · exact .fail _
  · next v found =>
    have named := defined.name_ne_scratchCell found
    refine .ite (.ite ?_ ?_) <| .readElement sound named index
    · exact .give (.of_unnamed rfl rfl rfl)
    · exact .readScalar sound named

theorem deref (operand : Expr) :
    Finds full targets p (deref operand) := by
  unfold Lowering.deref
  split
  · refine .bind .symbols fun t defined => ?_
    split
    · exact .fail _
    · next v found =>
      have indexed : Place.Kept p.acc full (.indexedY v.name v.signed) :=
        .of_named (defined.name_ne_scratchCell found) rfl rfl
      refine .ite (.fail _) <| .bind .inHigh fun _ _ => ?_
      refine .ite (.extend sound indexed.clear) ?_
      exact .seq (.emitByte rfl (fun _ => rfl) _) (.give indexed)
  · exact .fail _

theorem target (e : Expr) :
    Finds full targets p (target e) := by
  unfold Lowering.target
  split
  · refine .seq (.checkWritable _) <| .bind (.isWide _) fun _ _ => ?_
    exact .ite (.readVariable sound _ _) <| .withHigh _ (.readVariable sound _ _)
  · exact .deref sound _
  · exact .fail _

theorem storeX (clear : value.Clear full) :
    Tame full targets p (storeX value) := by
  have raised := sound.raised_push
  unfold Lowering.storeX
  cases value with
  | x => exact .done
  | accumulator => exact .emitImplied (m := .tax) rfl fun _ => rfl
  | y =>
    exact .keepingA (.seq (.emitImplied (m := .tya) rfl (absurd · raised)) <|
      .emitImplied rfl (absurd · raised))
  | _ => exact .emitKept (m := .ldx) sound rfl rfl ⟨fun _ => rfl, clear⟩

theorem storeY (clear : value.Clear full) :
    Tame full targets p (storeY value) := by
  have raised := sound.raised_push
  unfold Lowering.storeY
  cases value with
  | y => exact .done
  | accumulator => exact .emitImplied (m := .tay) rfl fun _ => rfl
  | x =>
    exact .keepingA (.seq (.emitImplied (m := .txa) rfl (absurd · raised)) <|
      .emitImplied rfl (absurd · raised))
  | _ => exact .emitKept (m := .ldy) sound rfl rfl ⟨fun _ => rfl, clear⟩

theorem storeMemory (kept : place.Kept p.acc full) (clear : value.Clear full) :
    Tame full targets p (storeMemory place value) := by
  have raised := sound.raised_push
  unfold Lowering.storeMemory
  split
  · next stores =>
    obtain ⟨level, keeps⟩ := storeOf?_level stores
    exact .emitKept sound level keeps kept
  · exact .keepingA (.seq (.emit raised rfl clear) (.emit raised rfl kept.clear))

theorem store (kept : place.Kept p.acc full) (clear : value.Clear full) :
    Tame full targets p (store place value) := by
  cases place with
  | x => exact .storeX sound clear
  | y => exact .storeY sound clear
  | cell | indexedX | indexedY => exact .storeMemory sound kept clear
  | _ => exact .fail _

theorem strobe (e : Expr) : Tame full targets p (strobe e) :=
  .bind (.target sound e) fun _ kept => .ite (.emitKept sound rfl rfl kept) (.fail _)

section

variable (named : v.name ≠ scratchCell)

include named

theorem incrementWide : Tame full targets p (incrementWide v) := by
  refine .nextHere p.height fun here => ?_
  refine .seq (.emitKept sound rfl rfl (.of_named named rfl rfl)) ?_
  refine .seq (.emitBranch rfl (.inl (List.mem_singleton_self _))) ?_
  refine .seq (.emitKept sound rfl rfl (.of_named named rfl rfl)) ?_
  exact .putLabel here

theorem decrementWide : Tame full targets p (decrementWide v) := by
  have raised := sound.raised_push
  have clear {is8Bit : Bool} {offset : Int64} :
      Place.Clear full (.cell v.name is8Bit offset v.signed) :=
    fun _ => ⟨rfl, named⟩
  refine .nextHere (p.push p.acc).height fun here => .keepingA ?_
  refine .seq (.emit raised rfl clear) ?_
  refine .seq (.emitBranch rfl (.inl (List.mem_singleton_self _))) ?_
  refine .seq (.emit raised rfl clear) ?_
  exact .first (.putLabel here) fun _ _ => .emit raised rfl clear

theorem stepWide (increments : Bool) : Tame full targets p (stepWide v increments) :=
  .ite (.fail _) <| .ite (.incrementWide sound named) <|
    .decrementWide sound named

end

theorem stepPlace (kept : place.Kept p.acc full)
    (increments : Bool) : Tame full targets p (stepPlace place increments) := by
  unfold Lowering.stepPlace
  cases increments <;> split <;> first
    | exact .emitImplied rfl fun _ => rfl
    | exact .emitKept sound rfl rfl kept

theorem step (e : Expr) (increments : Bool) :
    Tame full targets p (step e increments) := by
  refine .bind .symbols fun t defined => ?_
  split
  · next v found => exact .stepWide sound (name_of_wideVariable? defined found) increments
  · exact .bind (.target sound e) fun _ kept => .stepPlace sound kept increments

theorem stepAll (deferred : List Deferred) :
    Tame full targets p (stepAll deferred) := by
  induction deferred with
  | nil => exact .done
  | cons d rest ih => exact .seq (.step sound _ _) ih

theorem flush : Tame full targets p flush :=
  .bind .get fun _ _ => .seq (.modify (fun _ => rfl) (fun _ => rfl) fun _ => rfl) <|
    .withHigh _ (.stepAll sound _)

end Sound

end Steady

/-- While the accumulator and the scratch cell are in use, no calls are made. -/
def Stand.Mute (p : Stand) (full : Bool) (calls : Prop) : Prop :=
  full = true → p.acc = true → ¬calls

theorem Stand.Mute.or {calls more : Prop} (first : p.Mute full calls)
    (second : p.Mute full more) : p.Mute full (calls ∨ more) :=
  fun used inUse called => called.elim (first used inUse) (second used inUse)

theorem Stand.mute_of_not {calls : Prop} (none : ¬calls) :
    p.Mute full calls :=
  fun _ _ => none

/-- While everything is in use, only a call that returns nothing is made for a value. -/
structure Place.Found (p : Stand) (full : Bool) (place : Place) (calls : Prop) : Prop where
  kept : place.Kept p.acc full
  mute : place ≠ .nothing → p.Mute full calls

theorem Place.Found.of_mute {place : Place} {calls : Prop}
    (found : place.Kept p.acc full ∧ p.Mute full calls) : place.Found p full calls :=
  ⟨found.1, fun _ => found.2⟩

/-- A value that is found steadily and keeps clear of what is in use. -/
def IsSteadyValue (value : Gen Place) : Prop :=
  ∀ {full : Bool} {targets : String → Nat → Prop} {p : Stand}, p.Sound →
    Steady full [] targets p p (Place.Found p full) value

theorem Steady.of_tacit {value : Gen Place}
    (tacit : ∀ {full : Bool} {targets : String → Nat → Prop} {p : Stand}, p.Sound →
      Finds full targets p value) : IsSteadyValue value :=
  fun sound => (tacit sound).mono fun _ _ ⟨kept, silent⟩ =>
    .of_mute ⟨kept, Stand.mute_of_not silent⟩

theorem Steady.int (n : Int64) : IsSteadyValue (Operand.int n).value :=
  .of_tacit fun _ => .give (.of_unnamed rfl rfl rfl)

namespace Steady

variable {lhs rhs : Operand}
variable {full : Bool} {targets : String → Nat → Prop} {p : Stand}

/-- Behind calls that are not made while everything is in use, no others are made. -/
theorem mutely {own : List (Nat × String)} {q r : Stand} {α : Type} {P : α → Prop} {m : Gen α}
    {calls : Prop} (mute : p.Mute full calls) (tacit : Tacit full own targets q r P m) :
    Steady full own targets q r (fun a more => P a ∧ p.Mute full (calls ∨ more)) m :=
  tacit.mono fun _ _ ⟨holds, silent⟩ => ⟨holds, mute.or (Stand.mute_of_not silent)⟩

theorem checkHighArith (op : Op) (lhs rhs : Expr) :
    Tame full targets p (checkHighArith op lhs rhs) := by
  refine .bind .inHigh fun _ _ => .ite ?_ .done
  refine .bind .symbols fun _ _ => .check fun _ => .ite ?_ .done
  refine .bind (.carries lhs) fun _ _ => .check fun _ => .bind (.carries rhs) fun _ _ => ?_
  exact .ite (.fail _) .done

/-- The second value is found with the first one in the accumulator, if it is there. -/
theorem bothValues (left : IsSteadyValue lhs.value) (right : IsSteadyValue rhs.value)
    (sound : p.Sound) : Steady full [] targets p p
      (fun (l, r) calls => l.Kept p.acc full ∧ r.Kept p.acc full ∧
        (l ≠ .nothing → r ≠ .nothing → p.Mute full calls)) (bothValues lhs rhs) := by
  refine .bind .accInUse fun outer found => .after (left sound) fun l first foundL => ?_
  cases found
  have silent {r : Place} {second : Prop} (mute : r ≠ .nothing → p.Mute full second)
      (some : l ≠ .nothing) (other : r ≠ .nothing) : p.Mute full (first ∨ second ∨ False) :=
    (foundL.mute some).or ((mute other).or (Stand.mute_of_not id))
  refine .ite (.seq (.setAccInUse true) ?_) ?_
  · have held : (p.use true).Sound := fun _ => rfl
    refine .after (right held) fun r second foundR => .seq (.setAccInUse p.acc) (.pure ?_)
    refine ⟨foundL.kept, ⟨fun _ => foundR.kept.acc rfl, foundR.kept.clear⟩,
      silent fun some used _ => ?_⟩
    exact foundR.mute some used rfl
  · refine .after (right sound) fun r second foundR => .seq (.setAccInUse p.acc) <| .pure ?_
    exact ⟨foundL.kept, foundR.kept, silent foundR.mute⟩

theorem instructionOf (op : Op) :
    Tacit full [] targets p p (fun m => m.isLevel = true) (instructionOf op) := by
  unfold Lowering.instructionOf
  cases op <;> first | exact .fail _ | exact .give rfl

section Applying

variable {l r : Place}

theorem freed {taken turned : Prop} [Decidable taken] [Decidable turned] (keptL : l.Kept p.acc full)
    (keptR : r.Kept p.acc full) :
    Tacit full [] targets p p
      (fun values => values.1.Kept p.acc full ∧ values.2.Kept p.acc full)
      (if taken then if turned then Pure.pure (r, l) else (do return (l, ← Lowering.spill r))
        else Pure.pure (l, r)) := by
  refine .ite (.ite (.give ⟨keptR, keptL⟩) ?_) (.give ⟨keptL, keptR⟩)
  exact .bind (.spill keptR) fun _ spilled => .give ⟨keptL, spilled⟩

theorem prepareCarry (op : Op) : Tame full targets p (prepareCarry op) := by
  have second : Tame full targets p
      (if op = .sub then Lowering.emitImplied .sec else Pure.pure ()) :=
    .ite (.emitImplied rfl fun _ => rfl) .done
  refine .bind .inHigh fun _ _ => .ite (.ite ?_ second) ?_
  · exact .seq (.emitImplied rfl fun _ => rfl) second
  · exact .done

/-- A value in the accumulator is one that nobody has to be saved for. -/
theorem pushed_eq (kept : l.Kept p.acc full) : (p.acc && !l.isAccumulator) = p.acc := by
  cases acc : p.acc with
  | false => rfl
  | true => rw [kept.acc acc]; rfl

theorem apply (op : Op) {m : Mnemonic} (level : m.isLevel = true) (sound : p.Sound)
    (keptL : l.Kept p.acc full) (keptR : r.Kept p.acc full) :
    Finds full targets p (apply op m l r) := by
  have raised := sound.raised_push
  have finish (signed : Bool) :
      Tacit full [] targets (p.push p.acc) p (Place.Kept p.acc full) (do
        Lowering.prepareCarry op
        Lowering.emit m r
        Lowering.restore p.acc signed) :=
    .seq (.prepareCarry op) <| .seq (.emit raised level keptR.clear) <|
      (restore signed id).imp fun _ => And.left
  refine .bind .accInUse fun outer found => ?_
  cases found
  simp only [pushed_eq keptL]
  refine .ite_of (fun _ => ?_) fun held => ?_
  · refine .bind .get fun _ _ => .check fun _ => .seq (.save p.acc) <| ?_
    exact .seq (.loadA raised keptL.clear) (finish _)
  · have free : p.acc = false := keptL.free (by simpa using held)
    have finish := finish (l.signed || r.signed)
    rw [free] at finish ⊢
    exact finish

theorem arith (op : Op) (left : IsSteadyValue lhs.value)
    (right : IsSteadyValue rhs.value) : IsSteadyValue (arith op lhs rhs) := by
  intro full targets p sound
  refine .seq (.checkHighArith _ _ _) ?_
  refine .after (.bothValues left right sound) fun (l, r) calls ⟨keptL, keptR, mute⟩ => ?_
  dsimp only
  split
  · have silent := mute nofun nofun
    split
    · exact (mutely silent (.give (.of_unnamed rfl rfl rfl))).mono fun _ _ => .of_mute
    · exact .fail _
  · refine .bind (.instructionOf op) fun m level => .check_of fun valued _ => ?_
    have silent : p.Mute full calls := by
      refine mute ?_ ?_
      · rintro rfl
        exact valued rfl
      · rintro rfl
        exact valued (Bool.or_true _)
    refine (mutely silent ?_).mono fun _ _ => .of_mute
    refine .bind (freed keptL keptR) fun values kept => ?_
    refine .bind (freed kept.1 kept.2) fun values kept => ?_
    exact .apply op level sound kept.1 kept.2

theorem shiftOnce (op : Op) (signed : Bool) (raised : p.height ≠ 0) :
    Tame full targets p (shiftOnce op signed) := by
  have held (signed : Bool) : Place.Clear full (.accumulator signed) :=
    Place.clear_of_unnamed rfl rfl
  refine .ite (.emit raised rfl (held _)) <| .ite ?_ ?_
  · exact .seq (.emitByte rfl (absurd · raised) _) (.emit raised rfl (held _))
  · exact .emit raised rfl (held _)

theorem shiftTimes (op : Op) (signed : Bool) (raised : p.height ≠ 0) (count : Nat) :
    Tame full targets p (shiftTimes op signed count) := by
  induction count with
  | zero => exact .done
  | succ count ih => exact .seq (.shiftOnce op signed raised) ih

theorem shiftBits (op : Op) (left : IsSteadyValue lhs.value) (amount : Int64) :
    IsSteadyValue (shiftBits op lhs amount) := by
  intro full targets p sound
  have raised := sound.raised_push
  unfold Lowering.shiftBits
  refine .check fun _ => .bind .accInUse fun outer found =>
    .after (left sound) fun l calls found' => ?_
  obtain ⟨kept, mute⟩ := found'
  cases found
  split
  · refine (mutely (mute nofun) ?_).mono fun _ _ => .of_mute
    exact .give (.of_unnamed rfl rfl rfl)
  · refine .bind .inHigh fun _ _ => .check fun _ => .ite (.pure ?_) <| ?_
    · exact ⟨kept, fun some => (mute some).or (Stand.mute_of_not id)⟩
    by_cases none : l = .nothing
    · subst none
      exact .seq (.save p.acc) <| .bind (r := p) (R := fun _ => False) (.fail _)
        fun _ => False.elim
    have finish : Tacit full [] targets (p.push p.acc) p (Place.Kept p.acc full) (do
        Lowering.shiftTimes op l.signed amount.toInt.toNat
        Lowering.restore p.acc l.signed) :=
      .seq (.shiftTimes _ _ raised _) <| (restore _ id).imp fun _ => And.left
    refine (mutely (mute none) ?_).mono fun _ _ => .of_mute
    simp only [pushed_eq kept]
    refine .ite_of (fun _ => ?_) fun held => ?_
    · exact .seq (.save p.acc) <| .seq (.loadA raised kept.clear) finish
    · have free : p.acc = false := kept.free (by simpa using held)
      rw [free] at finish ⊢
      exact finish

end Applying

theorem shiftByteLeft (left : IsSteadyValue lhs.value) : IsSteadyValue (shiftByteLeft lhs) :=
  fun sound => .bind .inHigh fun _ _ => .ite (.withHigh _ (left sound)) <|
    Steady.int 0 sound

theorem shiftByteRight (left : IsSteadyValue lhs.value) : IsSteadyValue (shiftByteRight lhs) := by
  intro full targets p sound
  refine .bind .symbols fun t defined => ?_
  split
  · next v found =>
    have named := name_of_wideVariable? defined found
    refine Steady.of_tacit (fun _ => .bind .inHigh fun _ _ => .ite ?_ ?_) sound
    · exact .give (.of_unnamed rfl rfl rfl)
    · exact .give (.of_named named rfl rfl)
  · exact shiftBits .shr left 8 sound

theorem shift (op : Op) (left : IsSteadyValue lhs.value) (amount : Expr) :
    IsSteadyValue (shift op lhs amount) := by
  intro full targets p sound
  refine .bind (.constant amount) fun _ _ => ?_
  split
  · exact .fail _
  · refine .ite ?_ <| shiftBits op left _ sound
    exact .ite (shiftByteLeft left sound) (shiftByteRight left sound)

theorem arithOrShift (op : Op) (left : IsSteadyValue lhs.value) (right : IsSteadyValue rhs.value) :
    IsSteadyValue (arithOrShift op lhs rhs) :=
  fun sound => .ite (shift op left _ sound) (arith op left right sound)

section Comparing

variable {label : String}

theorem branchOn (op : Op) (signed : Bool) (target : targets label p.height) :
    Tame full targets p (branchOn op signed label) := by
  have less : (if signed then Mnemonic.bmi else .bcc).isBranch = true := by cases signed <;> rfl
  have notLess : (if signed then Mnemonic.bpl else .bcs).isBranch = true := by cases signed <;> rfl
  cases op with
  | eq => exact .emitBranch (m := .beq) rfl target
  | ne => exact .emitBranch (m := .bne) rfl target
  | lt => exact .emitBranch less target
  | ge => exact .emitBranch notLess target
  | le => exact .seq (.emitBranch less target) (.emitBranch rfl target)
  | gt =>
    refine .nextHere p.height fun here => ?_
    refine .seq (.emitBranch rfl (.inl (List.mem_singleton_self _))) ?_
    exact .seq (.emitBranch notLess (.inr target)) (.putLabel here)
  | _ => exact .throw _

end Comparing

end Steady

namespace Comparison

variable {full : Bool} {targets : String → Nat → Prop} {p : Stand}

/-- Both sides keep clear of what is in use. -/
structure Kept (acc full : Bool) (c : Comparison) : Prop where
  l : c.l.Kept acc full
  r : c.r.Kept acc full

variable {c : Comparison}

theorem steady_arrange (kept : c.Kept p.acc full) :
    Tacit full [] targets p p (Comparison.Kept p.acc full) c.arrange := by
  have turned : (if !c.l.isRegister || c.r.isAccumulator then c.swap else c).Kept p.acc full := by
    split
    · exact ⟨kept.r, kept.l⟩
    · exact kept
  refine .ite (.ite ?_ (.give turned)) (.give kept)
  exact .bind (.spill turned.r) fun _ spilled => .give ⟨turned.l, spilled⟩

section

variable (sound : p.Sound)

include sound

theorem steady_stage (kept : c.Kept p.acc full) (signed : Bool) :
    Tacit full [] targets p p (fun staged => staged.1.Kept p.acc full) (c.stage signed) := by
  refine .bind .get fun _ _ => .bind .get fun _ _ => .ite (.give kept) ?_
  refine .ite (.whenFree sound fun free raised _ => ?_) (.give kept)
  exact .seq (.loadA raised kept.l.clear) <| .give ⟨.accumulator free _, kept.r⟩

theorem steady_settle (c : Comparison) : Tame full targets p (c.settle p.acc) := by
  have held : (p.use true).Sound := fun _ => rfl
  refine .ite ?_ ?_
  · exact .seq (.setAccInUse true) <| .seq (.flush held) (.setAccInUse p.acc)
  · exact .seq (.flush sound) (.setAccInUse p.acc)

theorem steady_compareSides (kept : c.Kept p.acc full) : Tame full targets p c.compareSides := by
  unfold compareSides
  split
  · next m found =>
    have compares : m.isLevel = true ∧ m.keepsA .absolute = true := by
      cases side : c.l <;> rw [side] at found <;> cases found <;> exact ⟨rfl, rfl⟩
    exact .emitKept sound compares.1 compares.2 kept.r
  · exact .done

theorem steady_answer (kept : c.Kept p.acc full) (signed : Bool) :
    Tame full targets p (c.answer signed) := by
  refine .bind .accInUse fun outer found => .bind (steady_arrange kept) fun _ kept => ?_
  cases found
  refine .bind (steady_stage sound kept signed) fun staged kept => ?_
  refine .seq (steady_settle sound staged.1) <| .ite ?_ .done
  exact .seq (steady_compareSides sound kept) .done

theorem steady_emit {label : String} (kept : c.Kept p.acc full)
    (target : targets label p.height) (negate : Bool) : Tame full targets p (c.emit label negate) :=
  .bind (steady_answer sound kept _) fun _ _ => .branchOn _ _ target

end

end Comparison

/-- A test that branches to its target at the height where it began. -/
def IsSteadyTest (test : Test) : Prop :=
  ∀ {full : Bool} {targets : String → Nat → Prop} {p : Stand} {label : String}, p.Sound →
    targets label p.height → ∀ negate,
      Steady full [] targets p p (fun _ _ => True) (test label negate)

theorem Steady.compare (op : Op) {lhs rhs : Operand} (left : IsSteadyValue lhs.value)
    (right : IsSteadyValue rhs.value) : IsSteadyTest (compare op lhs rhs) := by
  intro full targets p label sound target negate
  refine .bind (.isWide _) fun _ _ => .check fun _ => .bind (.isWide _) fun _ _ =>
    .check fun _ => ?_
  refine .withHigh _ (.after (.bothValues left right sound) fun (l, r) _ ⟨keptL, keptR, _⟩ => ?_)
  have compared : Tame full targets p (compareValues op l r label negate) := by
    unfold compareValues
    refine .check fun _ => ?_
    split
    · exact .ite (.emitJump target) .done
    · exact Comparison.steady_emit sound ⟨keptR, keptL⟩ target negate
    · exact Comparison.steady_emit sound ⟨keptL, keptR⟩ target negate
  exact compared.loud

end Lowering

end Backend6502
