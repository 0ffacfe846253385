import Backend6502.Proofs.Execution
import Backend6502.Proofs.Generation
import Backend6502.Proofs.Numerals

/-!
# Straight code, and how it reaches a byte

Instructions that leave control alone change the state of the processor and nothing else, so that
together they are a function on states. `Emits` speaks of a step of code generation that adds such
instructions: what it yields, the context it leaves and the function that its instructions are.

An instruction that is emitted for a place works on that place: on the byte in its operand, on the
scratch cell, or on the cell of a variable, whose address is a single byte in the zero page. An
index is added to the address of an element, and to the word that a pointer holds.
-/

namespace Backend6502.Cpu

/-- Does the instruction always go on with the next one? -/
def Mnemonic.isStraight : Mnemonic → Bool
  | .jmp | .jsr | .rts | .rti | .brk => false
  | m => !m.isBranch

end Backend6502.Cpu

namespace Backend6502.Code

open Cpu (Mnemonic State)

variable {lines : List Line} {code : List Instruction}

namespace Instruction

/-- Is it one of the table that always goes on with the next one? -/
def isStraight (i : Instruction) : Bool :=
  i.mnemonic?.any Mnemonic.isStraight

def effect (w : Surroundings) (i : Instruction) (s : State) : State :=
  match i.mnemonic? with
  | some m => s.execute m (w.access i s)
  | none => s

theorem flow_of_isStraight {i : Instruction} (straight : i.isStraight = true) (w : Surroundings)
    (s : State) : i.flow w s = .next (i.effect w s) := by
  unfold isStraight effect mnemonic? at *
  cases op : i.op with
  | spelled text =>
    rw [op] at straight
    cases straight
  | known m =>
    rw [op] at straight
    rw [flow_known op]
    cases m <;> first | rfl | cases straight

end Instruction

def effects (w : Surroundings) : List Instruction → State → State
  | [], s => s
  | i :: rest, s => effects w rest (i.effect w s)

theorem effects_append (w : Surroundings) (first second : List Instruction) :
    effects w (first ++ second) = effects w second ∘ effects w first := by
  funext s
  induction first generalizing s with
  | nil => rfl
  | cons i rest ih => exact ih (i.effect w s)

theorem Steps.straight {w : Surroundings} (straight : ∀ i ∈ code, i.isStraight = true)
    (rest : List Line) (s : State) :
    Steps w lines ⟨code.map .instruction ++ rest, s⟩ ⟨rest, effects w code s⟩ := by
  induction code generalizing s with
  | nil => exact .refl _
  | cons i others ih =>
    have flows := i.flow_of_isStraight (straight i List.mem_cons_self) w s
    refine .head (Point.step?_of_next flows) ?_
    exact ih (fun j inside => straight j (List.mem_cons_of_mem i inside)) _

theorem Steps.toEnd {w : Surroundings} (straight : ∀ i ∈ code, i.isStraight = true) (s : State) :
    Steps w lines ⟨code.map .instruction, s⟩ ⟨[], effects w code s⟩ := by
  rw [← List.append_nil (code.map _)]
  exact .straight straight [] s

theorem labelNames_map_instruction (code : List Instruction) :
    labelNames (code.map .instruction) = [] := by
  induction code with
  | nil => rfl
  | cons i rest ih => exact ih

end Backend6502.Code

namespace Backend6502.Lowering

open Code (Instruction Surroundings effects effects_append)
open Cpu (Mnemonic State)

/-- What is said of what a step yields, of the context after it and of what its code does. -/
abbrev Report (α : Type) : Type :=
  α → Context → (State → State) → Prop

/--
If the step goes through, it adds straight code, and `Q` holds of what it yields, of the context
after it and of what the code does.
-/
def Emits {α : Type} (w : Surroundings) (scope : Scope) (c : Context) (m : Gen α)
    (Q : Report α) : Prop :=
  ∀ a d, m scope c = .ok a d →
    ∃ code : List Instruction, d.code = c.code ++ code.map .instruction ∧
      (∀ i ∈ code, i.isStraight = true) ∧ Q a d (effects w code)

namespace Emits

variable {α β : Type} {w : Surroundings} {scope : Scope} {c : Context}
variable {m : Gen α} {P : Report α} {cause : Cause} {p : Prop}

theorem mono {Q : Report α} (emits : Emits w scope c m P)
    (implies : ∀ a d g, P a d g → Q a d g) : Emits w scope c m Q := by
  intro a d ok
  obtain ⟨code, added, straight, holds⟩ := emits a d ok
  exact ⟨code, added, straight, implies a d _ holds⟩

theorem of_same {Q : Report α}
    (same : ∀ a d, m scope c = .ok a d → d.code = c.code ∧ Q a d id) : Emits w scope c m Q := by
  intro a d ok
  obtain ⟨code, holds⟩ := same a d ok
  refine ⟨[], ?_, ?_, holds⟩
  · rw [code, List.map_nil, List.append_nil]
  · exact fun i inside => absurd inside List.not_mem_nil

theorem pure {a : α} {Q : Report α} (holds : Q a c id) :
    Emits w scope c (pure a) Q := by
  refine of_same fun b d ok => ?_
  cases ok
  exact ⟨rfl, holds⟩

theorem fail {Q : Report α} : Emits w scope c (fail cause) Q := by
  intro a d ok
  cases ok

theorem bind {f : α → Gen β} {Q : Report β}
    (first : Emits w scope c m P)
    (second : ∀ a d g, P a d g → Emits w scope d (f a) fun b e h => Q b e (h ∘ g)) :
    Emits w scope c (m >>= f) Q := by
  intro b e ok
  obtain ⟨a, d, begins, ends⟩ := bind_inv ok
  obtain ⟨code, added, straight, holds⟩ := first a d begins
  obtain ⟨others, further, alsoStraight, holdsAfter⟩ := second a d _ holds b e ends
  refine ⟨code ++ others, ?_, ?_, ?_⟩
  · rw [further, added, List.append_assoc, List.map_append]
  · intro i inside
    exact (List.mem_append.mp inside).elim (straight i) (alsoStraight i)
  · rw [effects_append]
    exact holdsAfter

theorem ite [Decidable p] {n : Gen α} {Q : Report α}
    (yes : p → Emits w scope c m Q) (no : ¬p → Emits w scope c n Q) :
    Emits w scope c (if p then m else n) Q :=
  iteInduction (motive := (Emits w scope c · Q)) yes no

theorem check [Decidable p] {rest : Unit → Gen α} {Q : Report α}
    (passed : ¬p → Emits w scope c (rest ()) Q) :
    Emits w scope c (if p then Lowering.fail cause >>= rest else rest ()) Q :=
  .ite (fun _ => .bind (P := fun _ _ _ => False) .fail fun _ _ _ => False.elim) passed

theorem modify {f : Context → Context} {k : Unit → Gen α}
    {Q : Report α} (code : (f c).code = c.code)
    (rest : Emits w scope (f c) (k ()) Q) : Emits w scope c (modify f >>= k) Q := by
  intro a d ok
  obtain ⟨added, same, others⟩ := rest a d ok
  exact ⟨added, by rw [same, code], others⟩

/-- A step that leaves the context alone. -/
theorem reading {m : Gen β} {f : β → Gen α} {P : β → Prop}
    {Q : Report α}
    (same : ∀ b d, m scope c = .ok b d → d = c ∧ P b)
    (rest : ∀ b, P b → Emits w scope c (f b) Q) : Emits w scope c (m >>= f) Q := by
  intro a e ok
  obtain ⟨b, d, begins, ends⟩ := bind_inv ok
  obtain ⟨unchanged, holds⟩ := same b d begins
  cases unchanged
  exact rest b holds a e ends

section Reads

variable {Q : Report α}

theorem get {k : Context → Gen α} (rest : Emits w scope c (k c) Q) :
    Emits w scope c (get >>= k) Q := rest

theorem symbols {k : Symbols.Table → Gen α} (rest : Emits w scope c (k scope.symbols) Q) :
    Emits w scope c (symbols >>= k) Q := rest

theorem inHigh {k : Bool → Gen α} (rest : Emits w scope c (k c.high) Q) :
    Emits w scope c (inHigh >>= k) Q := rest

theorem accInUse {k : Bool → Gen α} (rest : Emits w scope c (k c.accInUse) Q) :
    Emits w scope c (accInUse >>= k) Q := rest

end Reads

end Emits

end Backend6502.Lowering

namespace Backend6502.Cpu

theorem wordOf_bytes (word : UInt16) : wordOf word.toUInt8 (word >>> 8).toUInt8 = word := by
  apply UInt16.eq_of_toBitVec_eq
  apply BitVec.eq_of_getLsbD_eq
  intro i small
  simp only [wordOf, UInt16.toBitVec_or, UInt16.toBitVec_shiftLeft, UInt8.toBitVec_toUInt16,
    UInt16.toBitVec_toUInt8, UInt16.toBitVec_shiftRight]
  by_cases low : i < 8
  · simp [low, small]
  · have back : 8 + (i - 8) = i := by omega
    simp [low, small, back]
    omega

end Backend6502.Cpu

namespace Backend6502.Code

open Lowering (byteOperand)

theorem Instruction.immediate?_byteOperand {i : Instruction} {b : UInt8}
    (mode : i.mode = .immediate) (operand : i.operand = byteOperand b) : i.immediate? = some b := by
  have shown : i.operand.toList = '#' :: (toString b.toNat).toList := by
    rw [operand, byteOperand, String.toList_append]
    rfl
  have digits : literal? (toString b.toNat).toList = some (b.toNat : Int) := by
    unfold literal?
    split
    · next dollar => exact absurd dollar (Text.toString_ne_of_head (by decide) b.toNat)
    · exact Text.signed?_toString (Nat.lt_trans b.toNat_lt (by decide))
  have back : UInt8.ofInt (b.toNat : Int) = b := by
    apply UInt8.toNat_inj.mp
    have small := b.toNat_lt
    simp only [UInt8.ofInt, UInt8.toNat_ofNat']
    omega
  simp only [immediate?, mode, shown, digits, Option.map_some, back]

end Backend6502.Code

namespace Backend6502.Lowering

open Code (Instruction Surroundings)
open Cpu (Mnemonic Mode State Access)
open Symbols (Table scratchCell)

variable {table : Table} {place : Place} {m : Mnemonic} {mode : Mode}

def scratchAddress (w : Surroundings) : UInt16 :=
  (w.address scratchCell).toUInt8.toUInt16

def cellAddress (w : Surroundings) (table : Table) (name : String) (offset : Int64) : UInt16 :=
  let word := w.address (if offset = 0 then name else name ++ "+" ++ toString offset)
  if memoryMode table name .zeroPage .absolute = .zeroPage then word.toUInt8.toUInt16 else word

namespace Place

variable {place : Place} {table : Table} {s : State}

/-- What an instruction works on that addresses a place without an index. -/
def access (w : Surroundings) (table : Table) : Place → Access
  | .immediate value => .value (lowByte value)
  | .scratch _ => .address (scratchAddress w)
  | .cell name _ offset _ => .address (cellAddress w table name offset)
  | .accumulator _ => .accumulator
  | _ => .none

def isDirect : Place → Bool
  | .nothing | .immediate _ | .scratch _ | .cell .. | .accumulator _ => true
  | _ => false

/-- What an instruction works on that addresses a place, in a state that the index is taken from. -/
def reach (w : Surroundings) (table : Table) (s : State) : Place → Access
  | .indexedX name _ =>
    let word := w.address (name ++ ",X")
    .address (if memoryMode table name .zeroPageX .absoluteX = .zeroPageX
      then (word.toUInt8 + s.x).toUInt16 else word + s.x.toUInt16)
  | .indexedY name _ =>
    .address (s.readWord (w.address ("(" ++ name ++ "),Y")).toUInt8.toUInt16 + s.y.toUInt16)
  | place => place.access w table

/-- Is the place addressed, and if Y is added, then to a pointer? -/
def isReached (table : Table) : Place → Bool
  | .indexedX .. => true
  | .indexedY name _ => isPointer table name
  | place => place.isDirect

theorem reach_of_isDirect (direct : place.isDirect = true) (w : Surroundings) (table : Table)
    (s : State) : place.isReached table = true ∧ place.reach w table s = place.access w table := by
  cases place <;> first | exact ⟨direct, rfl⟩ | cases direct

def byte (w : Surroundings) (table : Table) (s : State) : Place → UInt8
  | .x => s.x
  | .y => s.y
  | place => s.load (place.access w table)

theorem load_access {w : Surroundings} (direct : place.isDirect = true) :
    s.load (place.access w table) = place.byte w table s := by
  cases place with
  | x | y => cases direct
  | _ => rfl

def seen (w : Surroundings) (table : Table) (s : State) : Place → UInt8
  | .x => s.x
  | .y => s.y
  | place => s.load (place.reach w table s)

theorem seen_eq_byte {w : Surroundings} (plain : place.isIndexed = false) :
    place.seen w table s = place.byte w table s := by
  cases place <;> first | rfl | cases plain

def isReadable (table : Table) : Place → Bool
  | .x | .y => true
  | .nothing | .accumulator _ => false
  | place => place.isReached table

/-- What a place stands for in a pass: in the one for high bytes a constant is its second byte. -/
def inPass (high : Bool) : Place → Place
  | .immediate value => .immediate (if high then value >>> 8 else value)
  | place => place

theorem inPass_false (place : Place) : place.inPass false = place := by
  cases place <;> rfl

theorem isDirect_inPass (place : Place) (high : Bool) :
    (place.inPass high).isDirect = place.isDirect := by
  cases place <;> rfl

theorem isReached_inPass (place : Place) (table : Table) (high : Bool) :
    (place.inPass high).isReached table = place.isReached table := by
  cases place <;> rfl

/-- A pass addresses a place as code outside of it addresses what the place stands for. -/
theorem operand?_inPass (place : Place) (table : Table) (high : Bool) :
    (place.inPass high).operand? table false = place.operand? table high := by
  cases place <;> rfl

end Place

theorem access_of_operand? {w : Surroundings} {i : Instruction}
    (reached : place.isReached table = true)
    (found : place.operand? table false = some (i.mode, i.operand)) (s : State) :
    w.access i s = place.reach w table s := by
  have word (other : i.mode ≠ .immediate) : w.operandWord i = w.address i.operand := by
    unfold Surroundings.operandWord Instruction.immediate?
    split
    · next read =>
      split at read
      · next mode _ => exact absurd mode other
      · cases read
    · rfl
  unfold Surroundings.access
  cases place with
  | nothing | accumulator signed =>
    obtain ⟨mode, -⟩ := Prod.mk.inj (Option.some.inj found)
    rw [← mode]
    rfl
  | immediate value =>
    obtain ⟨mode, operand⟩ := Prod.mk.inj (Option.some.inj found)
    have byte := Instruction.immediate?_byteOperand mode.symm operand.symm
    rw [Surroundings.operandWord, byte, ← mode]
    exact congrArg Access.value (UInt8.toUInt8_toUInt16 _)
  | scratch signed =>
    obtain ⟨mode, operand⟩ := Prod.mk.inj (Option.some.inj found)
    rw [word (by rw [← mode]; decide), ← mode, ← operand]
    rfl
  | cell name is8Bit offset signed =>
    obtain ⟨mode, operand⟩ := Prod.mk.inj (Option.some.inj found)
    change _ = Access.address (cellAddress w table name offset)
    rw [cellAddress]
    rcases memoryMode_eq table name .zeroPage .absolute with short | long
    · rw [short] at mode
      rw [word (by rw [← mode]; decide), ← mode, ← operand, if_pos short]
      rfl
    · have wide : memoryMode table name .zeroPage .absolute ≠ .zeroPage := by
        rw [long]
        decide
      rw [long] at mode
      rw [word (by rw [← mode]; decide), ← mode, ← operand, if_neg wide]
      exact congrArg Access.address (Cpu.wordOf_bytes _)
  | indexedX name signed =>
    obtain ⟨mode, operand⟩ := Prod.mk.inj (Option.some.inj found)
    rw [Place.reach]
    rcases memoryMode_eq table name .zeroPageX .absoluteX with short | long
    · rw [short] at mode
      rw [word (by rw [← mode]; decide), ← mode, ← operand, if_pos short]
      rfl
    · have wide : memoryMode table name .zeroPageX .absoluteX ≠ .zeroPageX := by
        rw [long]
        decide
      rw [long] at mode
      rw [word (by rw [← mode]; decide), ← mode, ← operand, if_neg wide]
      exact congrArg (Access.address <| · + s.x.toUInt16) (Cpu.wordOf_bytes _)
  | indexedY name signed =>
    rw [Place.operand?, if_pos (show isPointer table name = true from reached)] at found
    obtain ⟨mode, operand⟩ := Prod.mk.inj (Option.some.inj found)
    rw [word (by rw [← mode]; decide), ← mode, ← operand]
    rfl
  | x | y | label => cases reached

/-- Can it be addressed with X in the zero page? -/
def indexesX (m : Mnemonic) : Bool :=
  (Cpu.Encoding.inMode? m .zeroPageX).isSome

/-- The mode of an instruction is the one that was asked for, unless there is a longer one only. -/
theorem mode_of_find? {row : Cpu.Encoding} (straight : m.isStraight = true)
    (short : mode = .zeroPageX → indexesX m = true) (noY : mode ≠ .zeroPageY)
    (found : Cpu.Encoding.find? m mode = some row) : row.mode = mode := by
  have narrow : Cpu.Encoding.inMode? m .zeroPage = none →
      Cpu.Encoding.inMode? m .absolute = none := by
    cases m <;> first | decide | cases straight
  unfold Cpu.Encoding.find? at found
  split at found
  · next listed =>
    cases found
    exact beq_iff_eq.mp (List.find?_some (p := fun row : Cpu.Encoding => row.mode == mode) listed)
  · next missing =>
    cases mode with
    | zeroPage => exact absurd found (by simp [Mode.wide?, narrow missing])
    | zeroPageX =>
      have listed := short rfl
      rw [indexesX, missing] at listed
      cases listed
    | zeroPageY => exact absurd rfl noY
    | _ => cases found

/-- The instruction of a place that is reached has the mode that was asked for. -/
theorem operand?_indexed {high : Bool} {operand : String} (reached : place.isReached table = true)
    (indexes : place.isIndexed = true → indexesX m = true)
    (found : place.operand? table high = some (mode, operand)) :
    (mode = .zeroPageX → indexesX m = true) ∧ mode ≠ .zeroPageY := by
  cases place with
  | cell name is8Bit offset signed =>
    cases found
    rcases memoryMode_eq table name .zeroPage .absolute with short | long
    · rw [short]
      exact ⟨by simp, by simp⟩
    · rw [long]
      exact ⟨by simp, by simp⟩
  | indexedX name signed =>
    cases found
    refine ⟨fun _ => indexes rfl, ?_⟩
    rcases memoryMode_eq table name .zeroPageX .absoluteX with short | long
    · rw [short]
      simp
    · rw [long]
      simp
  | indexedY name signed =>
    rw [Place.operand?, if_pos (show isPointer table name = true from reached)] at found
    cases found
    exact ⟨by simp, by simp⟩
  | nothing | immediate | scratch | accumulator =>
    cases found
    exact ⟨by simp, by simp⟩
  | x | y | label => cases reached

namespace Emits

variable {w : Surroundings} {scope : Scope} {c : Context}
variable {m : Mnemonic} {operand : String} {place : Place}

section

variable (straight : m.isStraight = true)

include straight

theorem addInstruction {row : Cpu.Encoding} :
    Emits w scope c (addLine (.instruction (.ofRow (.known m) operand row))) fun _ d g =>
      (∃ code, d = { c with code }) ∧
        ∀ s, g s = s.execute m (w.access (.ofRow (.known m) operand row) s) := by
  intro _ d ok
  cases ok
  refine ⟨[.ofRow (.known m) operand row], rfl, ?_, ⟨_, rfl⟩, fun s => rfl⟩
  intro j inside
  rw [List.mem_singleton.mp inside]
  exact straight

theorem addFixed {mode : Mode} (noX : mode ≠ .zeroPageX) (noY : mode ≠ .zeroPageY) :
    Emits w scope c (addFixed m mode operand) fun _ d g => (∃ code, d = { c with code }) ∧
      ∃ i : Instruction, i.mode = mode ∧ i.operand = operand ∧
        ∀ s, g s = s.execute m (w.access i s) := by
  unfold Lowering.addFixed addTimes
  cases found : Instruction.find? (.known m) mode operand with
  | none =>
    intro _ _ ok
    cases ok
  | some i =>
    obtain ⟨row, listed, rfl⟩ := Option.map_eq_some_iff.mp found
    have same := mode_of_find? straight (fun short => absurd short noX) noY listed
    exact (addInstruction straight).mono fun _ d g ⟨context, run⟩ => ⟨context, _, same, rfl, run⟩

theorem emitImplied : Emits w scope c (emitImplied m) fun _ d g =>
      (∃ code, d = { c with code, flags := c.flags.after m .nothing }) ∧
        ∀ s, g s = s.execute m .none := by
  refine .bind (.addFixed straight nofun nofun) ?_
  rintro _ d g ⟨⟨code, rfl⟩, i, mode, -, run⟩
  refine .modify rfl (.pure ⟨⟨code, rfl⟩, fun s => ?_⟩)
  rw [Function.comp_apply, run, Surroundings.access, mode]
  rfl

theorem emitByte (b : UInt8) : Emits w scope c (emitByte m b) fun _ d g =>
      (∃ code, d = { c with code, flags := c.flags.after m .nothing }) ∧
        ∀ s, g s = s.execute m (.value b) := by
  refine .bind (.addFixed straight nofun nofun) ?_
  rintro _ d g ⟨⟨code, rfl⟩, i, mode, operand, run⟩
  refine .modify rfl (.pure ⟨⟨code, rfl⟩, fun s => ?_⟩)
  have byte := Instruction.immediate?_byteOperand mode operand
  rw [Function.comp_apply, run, Surroundings.access, Surroundings.operandWord, byte, mode]
  exact congrArg (s.execute m <| .value ·) (UInt8.toUInt8_toUInt16 b)

theorem emitAt (reached : place.isReached scope.symbols = true)
    (indexes : place.isIndexed = true → indexesX m = true) :
    Emits w scope c (emit m place) fun _ d g =>
      (∃ code, d = { c with
        code
        scratchInUse := c.scratchInUse && (!place.isScratch || isStore m)
        flags := c.flags.after m place }) ∧
      ∀ s, g s = s.execute m ((place.inPass c.high).reach w scope.symbols s) := by
  refine .symbols (.inHigh ?_)
  cases addressed : place.operand? scope.symbols c.high with
  | none => exact .fail
  | some reached =>
    obtain ⟨mode, operand⟩ := reached
    dsimp only
    cases found : Instruction.find? (.known m) mode operand with
    | none => exact .fail
    | some i =>
      obtain ⟨row, listed, rfl⟩ := Option.map_eq_some_iff.mp found
      obtain ⟨short, noY⟩ := operand?_indexed reached indexes addressed
      have same : row.mode = mode := mode_of_find? straight short noY listed
      have reads (s : State) := access_of_operand? (w := w)
        (i := .ofRow (.known m) operand row)
        ((place.isReached_inPass scope.symbols c.high).trans reached)
        (by rw [Place.operand?_inPass, addressed, ← same]; rfl) s
      refine .bind (.addInstruction straight) fun _ d g ⟨⟨code, same⟩, run⟩ => ?_
      cases same
      have run (s : State) :
          g s = s.execute m ((place.inPass c.high).reach w scope.symbols s) := by
        rw [run, reads]
      have kept : (!place.isScratch || isStore m) = !(place.isScratch && !isStore m) := by
        cases place.isScratch <;> cases isStore m <;> rfl
      rw [kept]
      refine .ite (fun frees => ?_) fun keeps => ?_
      · refine .modify rfl (.modify rfl (.pure ⟨⟨code, ?_⟩, run⟩))
        rw [frees, Bool.not_true, Bool.and_false]
      · refine .modify rfl (.pure ⟨⟨code, ?_⟩, run⟩)
        rw [eq_false_of_ne_true keeps, Bool.not_false, Bool.and_true]

/-- An instruction that addresses a place without an index. -/
theorem emitPass (direct : place.isDirect = true) : Emits w scope c (emit m place) fun _ d g =>
      (∃ code, d = { c with
        code
        scratchInUse := c.scratchInUse && (!place.isScratch || isStore m)
        flags := c.flags.after m place }) ∧
      ∀ s, g s = s.execute m ((place.inPass c.high).access w scope.symbols) := by
  have plain : ¬place.isIndexed = true := by
    cases place <;> first | exact Bool.false_ne_true | cases direct
  have reached (s : State) :=
    Place.reach_of_isDirect ((place.isDirect_inPass c.high).trans direct) w scope.symbols s
  rw [Place.isReached_inPass] at reached
  refine (emitAt straight (reached {}).1 fun indexed => absurd indexed plain).mono
    fun _ d g ⟨context, run⟩ => ⟨context, fun s => ?_⟩
  rw [run, (reached s).2]

/-- Outside of the pass for high bytes a place stands for itself. -/
theorem emit (direct : place.isDirect = true)
    (low : c.high = false) : Emits w scope c (emit m place) fun _ d g =>
      (∃ code, d = { c with
        code
        scratchInUse := c.scratchInUse && (!place.isScratch || isStore m)
        flags := c.flags.after m place }) ∧
      ∀ s, g s = s.execute m (place.access w scope.symbols) := by
  refine (emitPass straight direct).mono fun _ d g ⟨context, run⟩ => ⟨context, fun s => ?_⟩
  rw [run, low, Place.inPass_false]

end

end Emits

end Backend6502.Lowering
