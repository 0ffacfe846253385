import Backend6502.Proofs.SafeSteps
import Backend6502.Proofs.StackHeights
import Backend6502.Proofs.SymbolTables

/-!
# Steady steps

A step of code generation finds the accumulator in use or not, and some bytes on the stack
(`Stand`). It is steady if the lines that it adds are balanced from there to the stand that it
leaves, and if it neither writes to the scratch cell nor frees it while that is in use (`Steady`).
Where nothing is pushed the accumulator is in use, so a step that finds it free may change it. Most
steps make no calls (`Tacit`).
-/

namespace Backend6502

namespace Cpu

variable {m : Mnemonic} {mode : Mode}

def Mnemonic.writes : Mnemonic → Bool
  | .sta | .stx | .sty | .inc | .dec | .asl | .lsr | .rol | .ror => true
  | _ => false

/-- Does an instruction neither move the stack pointer nor choose where control goes? -/
def Mnemonic.isLevel (m : Mnemonic) : Bool :=
  m.keepsStack && m != .pha && m != .pla && m != .jsr && !(m == .jmp || m.isBranch)

theorem Mnemonic.keepsA_of_ne (keeps : m.keepsA .absolute = true)
    (other : mode ≠ .accumulator) : m.keepsA mode = true := by
  cases m <;> first | exact keeps | exact bne_iff_ne.mpr other

theorem Encoding.mode_ne_accumulator {row : Encoding}
    (found : find? m mode = some row) (other : mode ≠ .accumulator) : row.mode ≠ .accumulator := by
  unfold find? at found
  split at found
  · next found' =>
    cases found
    rwa [(inMode?_eq_some found').2]
  · obtain ⟨wide, widened, found⟩ := Option.bind_eq_some_iff.mp found
    rw [(inMode?_eq_some found).2]
    cases mode <;> cases widened <;> decide

end Cpu

namespace Code

open Cpu (Mnemonic Mode)

variable {h : Nat}

def Line.writes (name : String) : Line → Bool
  | .instruction i => i.op.entry?.any Mnemonic.writes && i.operand == name
  | _ => false

section Found

variable {m : Mnemonic} {mode : Mode} {operand : String} {i : Instruction}

theorem Instruction.entry?_of_find? (found : find? (.known m) mode operand = some i) :
    i.op.entry? = some m := by
  obtain ⟨row, -, rfl⟩ := Option.map_eq_some_iff.mp found
  rfl

section

variable (found : Instruction.find? (.known m) mode operand = some i)

include found

theorem Line.fits_of_find? (keeps : m.keepsStack = true)
    (bare : h = 0 → m.keepsA .absolute = true ∧ mode ≠ .accumulator) :
    Line.fits h (.instruction i) = true := by
  rw [Line.fits, Instruction.entry?_of_find? found, Option.all_some, keeps, Bool.true_and]
  cases h with
  | zero =>
    obtain ⟨keeps, other⟩ := bare rfl
    obtain ⟨row, listed, rfl⟩ := Option.map_eq_some_iff.mp found
    exact Mnemonic.keepsA_of_ne keeps (Cpu.Encoding.mode_ne_accumulator listed other)
  | succ h => rfl

theorem Line.writes_of_find? {name : String} (spared : m.writes = true → operand ≠ name) :
    Line.writes name (.instruction i) = false := by
  obtain ⟨row, -, rfl⟩ := Option.map_eq_some_iff.mp found
  change (m.writes && operand == name) = false
  cases writing : m.writes with
  | false => rfl
  | true => exact beq_eq_false_iff_ne.mpr (spared writing)

theorem Line.isCall_of_level (level : m.isLevel = true) : Line.isCall (.instruction i) = false := by
  obtain ⟨row, -, rfl⟩ := Option.map_eq_some_iff.mp found
  change (m == .jsr) = false
  cases m <;> first | rfl | cases level

theorem Balanced.of_find? {targets : String → Nat → Prop} (level : m.isLevel = true ∨ m = .jsr)
    (bare : h = 0 → m.keepsA .absolute = true ∧ mode ≠ .accumulator) :
    Balanced targets h h [.instruction i] := by
  have plain : m.keepsStack = true ∧ (m == .pha) = false ∧ (m == .pla) = false ∧
      (m == .jmp || m.isBranch) = false := by
    rcases level with level | rfl
    · cases m <;> first | decide | cases level
    · decide
  obtain ⟨keeps, notPush, notPull, straight⟩ := plain
  have entry := Instruction.entry?_of_find? found
  have height : Line.heightAfter h (.instruction i) = h := by
    have push : m ≠ .pha := beq_eq_false_iff_ne.mp notPush
    have pull : m ≠ .pla := beq_eq_false_iff_ne.mp notPull
    simp [Line.heightAfter, Line.pushes, Line.pulls, entry, push, pull]
  have stays : Balanced targets h (Line.heightAfter h (.instruction i)) [.instruction i] := by
    refine .single _ (Line.fits_of_find? found keeps bare) ?_
    intro name goes
    rw [Line.goesTo, Instruction.steers, entry, Option.any_some, straight] at goes
    cases goes
  rwa [height] at stays

end

end Found

end Code

namespace Lowering

open Code (Line Instruction Balanced heights)
open Cpu (Mnemonic Mode)
open Symbols (Table scratchCell)

/-- What a step of code generation finds. -/
structure Stand where
  acc : Bool
  /-- The number of bytes that are pushed. -/
  height : Nat

namespace Stand

/-- Where nothing is pushed, the accumulator is in use. -/
def Sound (p : Stand) : Prop :=
  p.height = 0 → p.acc = true

def push (p : Stand) (needed : Bool) : Stand :=
  ⟨p.acc, if needed then p.height + 1 else p.height⟩

def use (p : Stand) (acc : Bool) : Stand :=
  ⟨acc, p.height⟩

variable {p : Stand}

theorem Sound.raised (sound : p.Sound) (free : p.acc = false) : p.height ≠ 0 := by
  intro zero
  cases free.symm.trans (sound zero)

/-- Once the accumulator is pushed as needed, it may be changed. -/
theorem Sound.raised_push (sound : p.Sound) : (p.push p.acc).height ≠ 0 := by
  change (if p.acc then p.height + 1 else p.height) ≠ 0
  cases acc : p.acc with
  | true => exact Nat.succ_ne_zero _
  | false => exact sound.raised acc

theorem sound_of_raised (raised : p.height ≠ 0) : p.Sound :=
  fun zero => absurd zero raised

end Stand

namespace Place

variable {full acc : Bool}

/-- The place is not the scratch cell if that is in use. -/
def Clear (full : Bool) (place : Place) : Prop :=
  full = true → place.isScratch = false ∧ place.name ≠ scratchCell

/-- The place is neither the accumulator nor the scratch cell if these are in use. -/
structure Kept (acc full : Bool) (place : Place) : Prop where
  acc : acc = true → place.isAccumulator = false
  clear : place.Clear full

variable {place : Place} {table : Table} {high : Bool} {mode : Mode} {operand : String}

theorem clear_of_unnamed (unnamed : place.name = "") (other : place.isScratch = false) :
    place.Clear full := by
  intro _
  rw [unnamed]
  exact ⟨other, by decide⟩

theorem Kept.of_unnamed (unnamed : place.name = "") (other : place.isScratch = false)
    (free : place.isAccumulator = false) : place.Kept acc full :=
  ⟨fun _ => free, clear_of_unnamed unnamed other⟩

/-- A value may come back in the accumulator only if nobody needs it. -/
theorem Kept.accumulator (free : acc = false) (signed : Bool) :
    Kept acc full (.accumulator signed) := by
  refine ⟨fun used => ?_, clear_of_unnamed rfl rfl⟩
  cases free.symm.trans used

theorem Kept.free (kept : place.Kept acc full) (held : place.isAccumulator = true) :
    acc = false := by
  cases acc with
  | false => rfl
  | true => cases held.symm.trans (kept.acc rfl)

/-- The places of variables. -/
theorem Kept.of_named (named : place.name ≠ scratchCell)
    (other : place.isScratch = false) (free : place.isAccumulator = false) : place.Kept acc full :=
  ⟨fun _ => free, fun _ => ⟨other, named⟩⟩

theorem ne_scratchCell {text : String} (char : Char) (inside : char ∈ text.toList)
    (foreign : char ∉ scratchCell.toList) : text ≠ scratchCell := by
  rintro rfl
  exact foreign inside

theorem byteOperand_ne_scratchCell (b : UInt8) : byteOperand b ≠ scratchCell :=
  ne_scratchCell '#' (by simp [byteOperand]) (by decide)

theorem operand?_ne_scratchCell (found : place.operand? table high = some (mode, operand))
    (other : place.isScratch = false) (named : place.name ≠ scratchCell) :
    operand ≠ scratchCell := by
  cases place with
  | x | y => cases found
  | scratch => cases other
  | nothing | accumulator =>
    cases found
    decide
  | label name =>
    cases found
    exact named
  | immediate value =>
    cases found
    exact byteOperand_ne_scratchCell _
  | cell name is8Bit offset =>
    cases found
    split
    · exact named
    · refine ne_scratchCell '+' ?_ (by decide)
      simp
  | indexedX name =>
    cases found
    refine ne_scratchCell ',' ?_ (by decide)
    simp
  | indexedY name =>
    rw [operand?] at found
    refine ne_scratchCell ',' ?_ (by decide)
    by_cases pointer : isPointer table name = true
    · rw [if_pos pointer] at found
      cases found
      simp
    · rw [if_neg pointer] at found
      cases found
      simp

end Place

/-- What a steady step does to the context. Unless it may make calls, it adds none. -/
structure Between (full : Bool) (own : List (Nat × String)) (targets : String → Nat → Prop)
    (p q : Stand) (calls : Prop) (c d : Context) : Prop where
  acc : d.accInUse = q.acc
  scratch : full = true → d.scratchInUse = true
  code : ∃ lines, d.code = c.code ++ lines ∧ Balanced targets p.height q.height lines ∧
    (∀ x ∈ own, (x.1, .label x.2) ∈ heights p.height lines) ∧
    (full = true → ∀ line ∈ lines, line.writes scratchCell = false) ∧
    (¬calls → ∀ line ∈ lines, line.isCall = false)

/--
The step adds balanced lines, with its own labels at these heights. If the scratch cell is in use,
it stays so and is not written. The property tells of what the step yields, and of whether it may
make calls.
-/
def Steady {α : Type} (full : Bool) (own : List (Nat × String)) (targets : String → Nat → Prop)
    (p q : Stand) (P : α → Prop → Prop) (m : Gen α) : Prop :=
  ∀ scope c a d, scope.symbols.Defined → c.accInUse = p.acc →
    (full = true → c.scratchInUse = true) → m scope c = .ok a d →
      ∃ calls, P a calls ∧ Between full own targets p q calls c d

/-- The step is steady and makes no calls. -/
abbrev Tacit {α : Type} (full : Bool) (own : List (Nat × String)) (targets : String → Nat → Prop)
    (p q : Stand) (P : α → Prop) (m : Gen α) : Prop :=
  Steady full own targets p q (fun a calls => P a ∧ ¬calls) m

/-- A step yields something, whatever it is. -/
abbrev Any {α : Type} : α → Prop := fun _ => True

/-- A tacit step that places no labels and ends at the stand where it begins. -/
abbrev Tame {α : Type} (full : Bool) (targets : String → Nat → Prop) (p : Stand) (m : Gen α) :
    Prop :=
  Tacit full [] targets p p Any m

/-- Such a step for a value that keeps clear of what is in use. -/
abbrev Finds (full : Bool) (targets : String → Nat → Prop) (p : Stand) (m : Gen Place) : Prop :=
  Tacit full [] targets p p (Place.Kept p.acc full) m

namespace Steady

variable {cause : Cause} {m : Mnemonic} {mode : Mode} {operand label : String} {place : Place}
variable {α β : Type} {full : Bool} {own others : List (Nat × String)}
  {targets : String → Nat → Prop} {p q r : Stand}
variable {P R : α → Prop → Prop} {f : α → Gen β} {condition : Prop}

theorem of_same {m : Gen α} (same : ∀ scope c a d, scope.symbols.Defined → c.accInUse = p.acc →
      (full = true → c.scratchInUse = true) → m scope c = .ok a d →
        P a False ∧ d.code = c.code ∧ d.accInUse = q.acc ∧ (full = true → d.scratchInUse = true))
    (level : q.height = p.height) : Steady full [] targets p q P m := by
  intro scope c a d defined acc scratch ok
  obtain ⟨holds, code, after, kept⟩ := same scope c a d defined acc scratch ok
  refine ⟨False, holds, after, kept, [], ?_, ?_, List.forall_mem_nil _,
    fun _ => List.forall_mem_nil _, fun _ => List.forall_mem_nil _⟩
  · rw [code, List.append_nil]
  · rw [level]
    exact .nil

theorem pure {a : α} (holds : P a False) : Steady full [] targets p p P (Pure.pure a) := by
  refine of_same (fun scope c b d _ acc scratch ok => ?_) rfl
  cases ok
  exact ⟨holds, rfl, acc, scratch⟩

theorem give {P : α → Prop} {a : α} (holds : P a) : Tacit full [] targets p p P (Pure.pure a) :=
  .pure ⟨holds, id⟩

theorem done {a : α} : Tame full targets p (Pure.pure a : Gen α) :=
  .give trivial

theorem fail (cause : Cause) : Steady full own targets p q P (fail cause : Gen α) := by
  intro scope c a d _ _ _ ok
  cases ok

theorem throw (failure : Failure) : Steady full own targets p q P (throw failure : Gen α) := by
  intro scope c a d _ _ _ ok
  cases ok

theorem join {P : β → Prop → Prop} {m : Gen α} (first : Steady full own targets p r R m)
    (second : ∀ a calls, R a calls →
      Steady full others targets r q (fun b more => P b (calls ∨ more)) (f a)) :
    Steady full (own ++ others) targets p q P (m >>= f) := by
  intro scope c b e defined acc scratch ok
  obtain ⟨a, d, begins, ends⟩ := bind_inv ok
  obtain ⟨calls, yielded, inUse, kept, lines, code, balanced, placed, spared, silent⟩ :=
    first scope c a d defined acc scratch begins
  obtain ⟨more, holds, stillInUse, stillKept, further, code', balanced', placed', spared',
      silent'⟩ :=
    second a calls yielded scope d b e defined inUse kept ends
  refine ⟨calls ∨ more, holds, stillInUse, stillKept, lines ++ further, ?_,
    balanced.append balanced', fun x inside => ?_, fun used line inside => ?_,
    fun none line inside => ?_⟩
  · rw [code', code, List.append_assoc]
  · rw [Code.heights_append, balanced.ends]
    rcases List.mem_append.mp inside with early | late
    · exact List.mem_append_left _ (placed x early)
    · exact List.mem_append_right _ (placed' x late)
  · rcases List.mem_append.mp inside with early | late
    · exact spared used line early
    · exact spared' used line late
  · rcases List.mem_append.mp inside with early | late
    · exact silent (fun called => none (.inl called)) line early
    · exact silent' (fun called => none (.inr called)) line late

theorem mono {m : Gen α} (steady : Steady full own targets p q P m)
    (implies : ∀ a calls, P a calls → R a calls) : Steady full own targets p q R m := by
  intro scope c a d defined acc scratch ok
  obtain ⟨calls, holds, between⟩ := steady scope c a d defined acc scratch ok
  exact ⟨calls, implies a calls holds, between⟩

theorem imp {P R : α → Prop} {m : Gen α} (tacit : Tacit full own targets p q P m)
    (implies : ∀ a, P a → R a) : Tacit full own targets p q R m :=
  tacit.mono fun a _ => And.imp_left (implies a)

theorem loud {P : α → Prop} {m : Gen α} (tacit : Tacit full own targets p q P m) :
    Steady full own targets p q (fun _ _ => True) m :=
  tacit.mono fun _ _ _ => trivial

/-- The first step may make calls, and all labels are placed by the second step. -/
theorem after {P : β → Prop → Prop} {m : Gen α} (first : Steady full [] targets p r R m)
    (second : ∀ a calls, R a calls →
      Steady full own targets r q (fun b more => P b (calls ∨ more)) (f a)) :
    Steady full own targets p q P (m >>= f) :=
  join first second

/-- The first step makes no calls. -/
theorem joinTacit {P : β → Prop → Prop} {R : α → Prop} {m : Gen α}
    (first : Tacit full own targets p r R m)
    (second : ∀ a, R a → Steady full others targets r q P (f a)) :
    Steady full (own ++ others) targets p q P (m >>= f) := by
  refine join first fun a calls ⟨holds, silent⟩ => (second a holds).mono fun b more yields => ?_
  rwa [eq_false silent, false_or]

/-- All labels are placed by the second step. -/
theorem bind {P : β → Prop → Prop} {R : α → Prop} {m : Gen α}
    (first : Tacit full [] targets p r R m)
    (second : ∀ a, R a → Steady full own targets r q P (f a)) :
    Steady full own targets p q P (m >>= f) :=
  joinTacit first second

/-- All labels are placed by the first step. -/
theorem first {P : β → Prop → Prop} {R : α → Prop} {m : Gen α}
    (tacit : Tacit full own targets p r R m)
    (second : ∀ a, R a → Steady full [] targets r q P (f a)) :
    Steady full own targets p q P (m >>= f) := by
  have both := joinTacit tacit second
  rwa [List.append_nil] at both

/-- Nothing is handed on to the second step. -/
theorem seq {P : β → Prop → Prop} {R : α → Prop} {m : Gen α} {n : Gen β}
    (first : Tacit full [] targets p r R m) (second : Steady full own targets r q P n) :
    Steady full own targets p q P (m >>= fun _ => n) :=
  .bind first fun _ _ => second

theorem ite_of [Decidable condition] {m n : Gen α}
    (yes : condition → Steady full own targets p q P m)
    (no : ¬condition → Steady full own targets p q P n) :
    Steady full own targets p q P (if condition then m else n) :=
  iteInduction yes no

theorem ite [Decidable condition] {m n : Gen α} (yes : Steady full own targets p q P m)
    (no : Steady full own targets p q P n) :
    Steady full own targets p q P (if condition then m else n) :=
  .ite_of (fun _ => yes) fun _ => no

theorem check_of {P : β → Prop → Prop} [Decidable condition] {rest : Unit → Gen β}
    (steady : ¬condition → ∀ u, Steady full own targets p q P (rest u)) :
    Steady full own targets p q P (if condition then Lowering.fail cause >>= rest else rest
      ()) := by
  refine .ite_of (fun _ scope c a d _ _ _ ok => ?_) fun fails => steady fails ()
  obtain ⟨_, _, ⟨⟩, -⟩ := bind_inv ok

theorem check {P : β → Prop → Prop} [Decidable condition] {rest : Unit → Gen β}
    (steady : ∀ u, Steady full own targets p q P (rest u)) :
    Steady full own targets p q P (if condition then Lowering.fail cause >>= rest else rest ()) :=
  .check_of fun _ => steady

/-- Labels that the step places itself may be gone to within it. -/
theorem enclose {m : Gen α}
    (steady : Steady full own (fun name height => (height, name) ∈ own ∨ targets name height)
      p q P m) : Steady full [] targets p q P m := by
  intro scope c a d defined acc scratch ok
  obtain ⟨calls, holds, inUse, kept, lines, code, balanced, placed, rest⟩ :=
    steady scope c a d defined acc scratch ok
  refine ⟨calls, holds, inUse, kept, lines, code, balanced.enclose ?_, nofun, rest⟩
  exact fun name height inside => placed (height, name) inside

section Reading

theorem get : Tacit full [] targets p p
    (fun c => c.accInUse = p.acc ∧ (full = true → c.scratchInUse = true)) (get : Gen Context) := by
  refine of_same (fun scope c a d _ acc scratch ok => ?_) rfl
  cases ok
  exact ⟨⟨⟨acc, scratch⟩, id⟩, rfl, acc, scratch⟩

theorem read : Tacit full [] targets p p (fun scope => scope.symbols.Defined)
    (read : Gen Scope) := by
  refine of_same (fun scope c a d defined acc scratch ok => ?_) rfl
  cases ok
  exact ⟨⟨defined, id⟩, rfl, acc, scratch⟩

theorem symbols : Tacit full [] targets p p Table.Defined symbols :=
  .bind .read fun _ defined => .give defined

theorem inHigh : Tame full targets p inHigh :=
  .bind .get fun _ _ => .done

theorem accInUse : Tacit full [] targets p p (· = p.acc) accInUse :=
  .bind .get fun _ found => .give found.1

/-- A change of the context that adds no lines and frees nothing. -/
theorem modify {f : Context → Context} (code : ∀ c, (f c).code = c.code)
    (acc : ∀ c, (f c).accInUse = c.accInUse) (scratch : ∀ c, (f c).scratchInUse = c.scratchInUse) :
    Tame full targets p (modify f : Gen Unit) := by
  refine of_same (fun _ c _ _ _ before used ok => ?_) rfl
  cases ok
  exact ⟨⟨trivial, id⟩, code c, (acc c).trans before, fun full => (scratch c).trans (used full)⟩

/-- A step that needs the accumulator to be free. -/
theorem whenFree {P : β → Prop → Prop} {rest : Unit → Gen β} (sound : p.Sound)
    (steady : p.acc = false → p.height ≠ 0 → ∀ u, Steady full own targets p q P (rest u)) :
    Steady full own targets p q P (Lowering.accInUse >>= fun acc =>
      if acc then Lowering.fail cause >>= rest else rest ()) := by
  refine .bind .accInUse fun acc found => .check_of fun used => ?_
  have free : p.acc = false := found ▸ eq_false_of_ne_true used
  exact steady free (sound.raised free)

theorem setAccInUse (inUse : Bool) :
    Tacit full [] targets p (p.use inUse) Any (setAccInUse inUse) := by
  refine of_same (fun _ _ _ _ _ _ scratch ok => ?_) rfl
  cases ok
  exact ⟨⟨trivial, id⟩, rfl, rfl, scratch⟩

theorem setScratchInUse : Tame full targets p (setScratchInUse true) := by
  refine of_same (fun _ _ _ _ _ acc _ ok => ?_) rfl
  cases ok
  exact ⟨⟨trivial, id⟩, rfl, acc, fun _ => rfl⟩

theorem setFlags (flags : Flags) : Tame full targets p (setFlags flags) :=
  modify (fun _ => rfl) (fun _ => rfl) fun _ => rfl

theorem setHigh (high : Bool) : Tame full targets p (setHigh high) :=
  modify (fun _ => rfl) (fun _ => rfl) fun _ => rfl

theorem track (m : Mnemonic) (place : Place) : Tame full targets p (track m place) :=
  modify (fun _ => rfl) (fun _ => rfl) fun _ => rfl

theorem nextIf : Tame full targets p nextIf :=
  .seq (.modify (fun _ => rfl) (fun _ => rfl) fun _ => rfl) <| .bind .get fun _ _ =>
    .done

theorem withHigh {P : α → Prop → Prop} {step : Gen α} (high : Bool)
    (steady : Steady full [] targets p q P step) :
    Steady full [] targets p q P (withHigh high step) := by
  refine .bind .inHigh fun _ _ => .seq (.setHigh _) <| .after steady fun _ calls holds => ?_
  refine .seq (.setHigh _) (.pure ?_)
  rwa [or_false]

end Reading

section Adding

theorem addLines {lines : List Line} (balanced : Balanced targets p.height q.height lines)
    (same : p.acc = q.acc)
    (spared : ∀ line ∈ lines, line.writes scratchCell = false ∧ line.isCall = false) :
    Tacit full [] targets p q Any (addLines lines) := by
  intro scope c a d _ acc scratch ok
  cases ok
  exact ⟨False, ⟨trivial, id⟩, acc.trans same, scratch, lines, rfl, balanced, nofun,
    fun _ line inside => (spared line inside).1, fun _ line inside => (spared line inside).2⟩

/-- A level instruction that is known to exist. -/
theorem addTimes (level : m.isLevel = true) (other : mode ≠ .accumulator)
    (bare : p.height = 0 → m.keepsA .absolute = true)
    (spared : m.writes = true → operand ≠ scratchCell) (count : Nat) :
    Tame full targets p (addTimes count m mode operand) := by
  unfold Lowering.addTimes
  split
  · next i found =>
    refine .addLines ?_ rfl ?_
    · induction count with
      | zero => exact .nil
      | succ count ih =>
        have one : Balanced targets p.height p.height [.instruction i] :=
          .of_find? found (.inl level) fun zero => ⟨bare zero, other⟩
        exact one.append ih
    · intro line inside
      rw [(List.mem_replicate.mp inside).2]
      exact ⟨Line.writes_of_find? found spared, Line.isCall_of_level found level⟩
  · exact .throw _

theorem emitByte (level : m.isLevel = true) (bare : p.height = 0 → m.keepsA .absolute = true)
    (b : UInt8) : Tame full targets p (emitByte m b) :=
  .seq (.addTimes level (by decide) bare (fun _ => Place.byteOperand_ne_scratchCell b) 1) <|
    .track _ _

theorem emitImplied (level : m.isLevel = true) (bare : p.height = 0 → m.keepsA .absolute = true) :
    Tame full targets p (emitImplied m) :=
  .seq (.addTimes level (by decide) bare (fun _ => by decide) 1) (.track _ _)

theorem addOne {i : Instruction}
    (found : Instruction.find? (.known m) mode operand = some i) (keeps : m.keepsStack = true)
    (bare : p.height = 0 → m.keepsA .absolute = true ∧ mode ≠ .accumulator)
    (aimed : ∀ name, Line.goesTo name (.instruction i) = true → targets name p.height)
    (spared : m.writes = false) (other : (Line.instruction i).isCall = false) :
    Tacit full [] targets p ⟨p.acc, Line.heightAfter p.height (.instruction i)⟩ Any
      (Lowering.addTimes 1 m mode operand) := by
  unfold Lowering.addTimes
  rw [found]
  refine .addLines (.single _ (Line.fits_of_find? found keeps bare) aimed) rfl fun line inside => ?_
  rw [(List.mem_replicate.mp inside).2]
  exact ⟨Line.writes_of_find? found (fun writing => nomatch spared.symm.trans writing), other⟩

theorem push : Tacit full [] targets p (p.push true) Any (Lowering.emitImplied .pha) :=
  .bind (addOne (m := .pha) rfl rfl (fun _ => ⟨rfl, by decide⟩) (fun _ goes => by cases goes) rfl
    rfl)
    fun _ _ => .track _ _

theorem pull : Tacit full [] targets (p.push true) p Any (Lowering.emitImplied .pla) :=
  .bind (addOne (m := .pla) rfl rfl (fun zero => by cases zero) (fun _ goes => by cases goes) rfl
    rfl)
    fun _ _ => .track _ _

theorem save (needed : Bool) : Tacit full [] targets p (p.push needed) Any (save needed) := by
  unfold Lowering.save
  cases needed with
  | true => exact .push
  | false => exact .done

theorem emitJump (target : targets label p.height) :
    Tame full targets p (emitJump label) := by
  refine addOne (Instruction.find?_jump label) rfl (fun _ => ⟨rfl, by decide⟩) (fun name goes => ?_)
    rfl rfl
  rwa [← eq_of_beq (show (label == name) = true from goes)]

theorem emitBranch (branches : m.isBranch = true)
    (target : targets label p.height) : Tame full targets p (emitBranch m label) := by
  have found := Instruction.find?_branch m label branches
  have keeps : m.keepsStack = true ∧ m.keepsA .absolute = true ∧ m.writes = false ∧
      (m == .jsr) = false := by
    cases m <;> first | decide | cases branches
  have level : Line.heightAfter p.height (.instruction (.branch m label)) = p.height := by
    cases m <;> first | rfl | cases branches
  have goes : Tacit full [] targets p
      ⟨p.acc, Line.heightAfter p.height (.instruction (.branch m label))⟩ Any
      (Lowering.emitBranch m label) := by
    refine addOne found keeps.1 (fun _ => ⟨keeps.2.1, by decide⟩) (fun name goes => ?_) keeps.2.2.1
      keeps.2.2.2
    obtain ⟨-, same⟩ := Bool.and_eq_true_iff.mp goes
    rwa [← eq_of_beq (show (label == name) = true from same)]
  rwa [level] at goes

theorem putLabel (name : String) :
    Tacit full [(p.height, name)] targets p p Any (putLabel name) := by
  intro scope c a d _ acc scratch ok
  cases ok
  refine ⟨False, ⟨trivial, id⟩, acc, scratch, [.label name], rfl, .single (.label name) rfl nofun,
    ?_, ?_, ?_⟩
  · intro x inside
    cases List.mem_singleton.mp inside
    exact List.mem_singleton_self _
  · intro _ line inside
    rw [List.mem_singleton.mp inside]
    rfl
  · intro _ line inside
    rw [List.mem_singleton.mp inside]
    rfl

theorem labelled {P : β → Prop → Prop} (name : String) {f : Unit → Gen β}
    (rest : ∀ u, Steady full own targets p q P (f u)) :
    Steady full ((p.height, name) :: own) targets p q P (Lowering.putLabel name >>= f) :=
  joinTacit (putLabel name) fun u _ => rest u

theorem emit_of (level : m.isLevel = true ∨ m = .jsr)
    (bare : p.height = 0 → m.keepsA .absolute = true ∧ place.isAccumulator = false)
    (spared : full = true →
      place.isScratch = false ∧ (m.writes = true → place.name ≠ scratchCell)) :
    Steady full [] targets p p (fun _ calls => m.isLevel = true → ¬calls) (emit m place) := by
  intro scope c a d _ acc scratch ok
  obtain ⟨mode, operand, i, addressed, found, rfl⟩ := emit_eq_ok ok
  refine ⟨¬m.isLevel = true, fun level called => called level, acc, ?_, [.instruction i], rfl,
    .of_find? found level ?_, nofun, ?_, ?_⟩
  · intro used
    change (c.scratchInUse && !(place.isScratch && !isStore m)) = true
    rw [scratch used, (spared used).1]
    rfl
  · intro zero
    exact ⟨(bare zero).1, (mode_of_operand? addressed).2 (bare zero).2⟩
  · intro used line inside
    rw [List.mem_singleton.mp inside]
    exact Line.writes_of_find? found fun writing =>
      Place.operand?_ne_scratchCell addressed (spared used).1 ((spared used).2 writing)
  · intro level line inside
    rw [List.mem_singleton.mp inside]
    exact Line.isCall_of_level found (not_not.mp level)

theorem emitLevel (level : m.isLevel = true)
    (bare : p.height = 0 → m.keepsA .absolute = true ∧ place.isAccumulator = false)
    (spared : full = true → place.isScratch = false ∧
      (m.writes = true → place.name ≠ scratchCell)) :
    Tame full targets p (Lowering.emit m place) :=
  (emit_of (.inl level) bare spared).mono fun _ _ quiet => ⟨trivial, quiet level⟩

/-- An instruction that may change the accumulator. -/
theorem emit (raised : p.height ≠ 0) (level : m.isLevel = true)
    (clear : place.Clear full) : Tame full targets p (emit m place) :=
  emitLevel level (fun zero => absurd zero raised) fun used =>
    ⟨(clear used).1, fun _ => (clear used).2⟩

section

variable (sound : p.Sound)
  (level : m.isLevel = true)
  (keeps : m.keepsA .absolute = true)
  (kept : place.Kept p.acc full)

include sound level keeps kept

/-- An instruction that keeps the accumulator. -/
theorem emitKept : Tame full targets p (Lowering.emit m place) :=
  emitLevel level (fun zero => ⟨keeps, kept.acc (sound zero)⟩) fun used =>
    ⟨(kept.clear used).1, fun _ => (kept.clear used).2⟩

theorem emitTimes (count : Nat) : Tame full targets p (emitTimes m place count) := by
  induction count with
  | zero => exact .done
  | succ count ih => exact .seq (.emitKept sound level keeps kept) ih

end

theorem loadA (raised : p.height ≠ 0) (clear : place.Clear full) :
    Tame full targets p (loadA place) := by
  have bare {m : Mnemonic} (zero : p.height = 0) : m.keepsA .absolute = true := absurd zero raised
  unfold Lowering.loadA
  split
  · exact .done
  · exact .emitImplied rfl bare
  · exact .emitImplied rfl bare
  all_goals first | exact .emit raised rfl clear | exact .fail _

end Adding

section Holding

/-- A store to the scratch cell, which is free. -/
theorem emitScratch (level : m.isLevel = true) (keeps : m.keepsA .absolute = true)
    (signed : Bool) : Tacit false [] targets p p Any (Lowering.emit m (.scratch signed)) :=
  emitLevel level (fun _ => ⟨keeps, rfl⟩) fun used => by cases used

theorem kept_scratch (acc signed : Bool) : Place.Kept acc false (.scratch signed) :=
  ⟨fun _ => rfl, fun used => by cases used⟩

theorem storeOf?_level (found : storeOf? place = some m) :
    m.isLevel = true ∧ m.keepsA .absolute = true := by
  cases place <;> cases found <;> exact ⟨rfl, rfl⟩

theorem spill (kept : place.Kept p.acc full) :
    Finds full targets p (spill place) := by
  refine .bind .get fun c found => .check_of fun free _ => ?_
  cases full with
  | true => exact absurd (found.2 rfl) free
  | false =>
    split
    · exact .give kept
    · next m stores =>
      obtain ⟨level, keeps⟩ := storeOf?_level stores
      exact .seq (.emitScratch level keeps _) <| .seq .setScratchInUse <|
        .give (kept_scratch _ _)

/--
The new value is in the accumulator only if nobody needs the old one. With the scratch cell in use
there is no place for it unless nothing was pushed.
-/
theorem restore {pushed : Bool} (signed : Bool) (free : pushed = false → p.acc = false) :
    Tacit full [] targets (p.push pushed) p
      (fun place => place.Kept p.acc full ∧ (full = true → pushed = false))
        (restore pushed signed) := by
  unfold Lowering.restore
  cases pushed with
  | false => exact .give ⟨.accumulator (free rfl) signed, fun _ => rfl⟩
  | true =>
    refine .bind .get fun c found => .check_of fun clear _ => ?_
    cases full with
    | true => exact absurd (found.2 rfl) clear
    | false =>
      exact .seq (.emitScratch rfl rfl _) <| .seq .setScratchInUse <|
        .seq .pull <| .give ⟨kept_scratch _ _, nofun⟩

/-- A number is taken, and labels are placed and gone to under it. -/
theorem opening {P : α → Prop → Prop} {f : Nat → Gen α} (own : Nat → List (Nat × String))
    (steady : ∀ n, Steady full (own n)
      (fun name height => (height, name) ∈ own n ∨ targets name height) p q P (f n)) :
    Steady full [] targets p q P (Lowering.nextIf >>= f) :=
  .bind .nextIf fun n _ => .enclose (steady n)

end Holding

end Steady

end Lowering

end Backend6502
