import Backend6502.Lowering.Stmt
import Backend6502.Proofs.Ground
import Backend6502.Proofs.KnownRegisters
import Backend6502.Proofs.Placement

/-!
# What the flags are believed to show

Code generation keeps track of which byte the sign and zero flags show. What it believes is carried
from one emission to the next (`Emission.after`). Along a run through the emitted lines the belief
is true at every line but a label, where nothing is known of where control comes from
(`Emission.Tracked`); behind the last line it is what code generation goes by (`emitAll_shows`).
-/

namespace Backend6502

namespace Cpu.State

theorem stackTop_lt (s : State) : s.stackTop < 0x200 := by
  have small := s.sp.toNat_lt
  rw [UInt16.lt_iff_toNat_lt, stackTop, UInt16.toNat_or, UInt8.toNat_toUInt16]
  exact Nat.or_lt_two_pow (n := 9) (by decide) (Nat.lt_trans small (by decide))

/-- Sums set the flags by what they leave in the accumulator. -/
theorem exists_setA_adc (s : State) (place : Access) : ∃ carry overflow b,
    s.execute .adc place = { s with carry, overflow }.setA b := by
  rw [execute]
  split
  · exact ⟨_, _, _, rfl⟩
  · exact ⟨_, _, _, rfl⟩

theorem exists_setA_sbc (s : State) (place : Access) : ∃ carry overflow b,
    s.execute .sbc place = { s with carry, overflow }.setA b := by
  rw [execute]
  split
  · exact ⟨_, _, _, rfl⟩
  · exact ⟨_, _, _, rfl⟩

end Cpu.State

namespace Lowering

open Code (Line Instruction Surroundings Steps Point)
open Cpu (Mnemonic State Access)
open Symbols (Table)

/-- One emission of code generation. -/
inductive Emission where
  /-- An instruction that addresses a place, in the pass for high bytes or outside of it. -/
  | addressed (m : Mnemonic) (place : Place) (high : Bool)
  | byte (m : Mnemonic) (b : UInt8)
  | implied (m : Mnemonic)
  | branch (m : Mnemonic) (target : String)
  | jump (target : String)
  | label (name : String)
  | verbatim (text : String)

namespace Emission

def step : Emission → Gen Unit
  | .addressed m place high => withHigh high (emit m place)
  | .byte m b => emitByte m b
  | .implied m => emitImplied m
  | .branch m target => emitBranch m target
  | .jump target => emitJump target
  | .label name => putLabel name
  | .verbatim text => asmStmt text

/-- The mnemonic and the place of an instruction that is tracked. -/
def operation? : Emission → Option (Mnemonic × Place)
  | .addressed m place _ => some (m, place)
  | .byte m _ | .implied m => some (m, .nothing)
  | .branch .. | .jump _ | .label _ | .verbatim _ => none

def after (flags : Flags) : Emission → Flags
  | .addressed m place _ => flags.after m place
  | .byte m _ | .implied m => flags.after m .nothing
  | .branch .. | .jump _ => flags
  | .label _ | .verbatim _ => .unknown

theorem after_of_operation? {e : Emission} {m : Mnemonic} {place : Place}
    (operates : e.operation? = some (m, place)) (flags : Flags) :
    e.after flags = flags.after m place := by
  cases e <;> cases operates <;> rfl

def line? (table : Table) : Emission → Option Line
  | .addressed m place high =>
    (place.operand? table high).bind fun (mode, operand) =>
      (Instruction.find? (.known m) mode operand).map .instruction
  | .byte m b => (Instruction.find? (.known m) .immediate (byteOperand b)).map .instruction
  | .implied m => (Instruction.find? (.known m) .implied "").map .instruction
  | .branch m target => (Instruction.find? (.known m) .relative target).map .instruction
  | .jump target => (Instruction.find? (.known .jmp) .absolute target).map .instruction
  | .label name => some (.label name)
  | .verbatim text => some (.verbatim text)

end Emission

def emitAll : List Emission → Gen Unit
  | [] => return
  | e :: rest => do
    e.step
    emitAll rest

section Steps

variable {scope : Scope} {c d : Context} {u : Unit}

theorem Emission.step_eq_ok {e : Emission} (ok : e.step scope c = .ok u d) :
    ∃ line, e.line? scope.symbols = some line ∧ d.code = c.code ++ [line] ∧
      d.flags = e.after c.flags := by
  cases e with
  | addressed m place high =>
    obtain ⟨_, c', ⟨⟩, ok⟩ := bind_inv ok
    obtain ⟨_, c', ⟨⟩, ok⟩ := bind_inv ok
    obtain ⟨_, c', begins, ok⟩ := bind_inv ok
    obtain ⟨mode, operand, i, addressed, found, rfl⟩ := emit_eq_ok begins
    cases ok
    refine ⟨.instruction i, ?_, rfl, rfl⟩
    rw [line?, show place.operand? scope.symbols high = _ from addressed]
    exact congrArg (Option.map Line.instruction) found
  | byte m b | implied m =>
    obtain ⟨_, c', begins, ok⟩ := bind_inv ok
    obtain ⟨i, found, rfl⟩ := addFixed_eq_ok begins
    cases ok
    exact ⟨.instruction i, by rw [line?, found]; rfl, rfl, rfl⟩
  | branch m target =>
    obtain ⟨i, found, rfl⟩ := addFixed_eq_ok ok
    exact ⟨.instruction i, by rw [line?, found]; rfl, rfl, rfl⟩
  | jump target =>
    cases ok
    exact ⟨.instruction (.jump target), rfl, rfl, rfl⟩
  | label name =>
    cases ok
    exact ⟨.label name, rfl, rfl, rfl⟩
  | verbatim text =>
    cases ok
    exact ⟨.verbatim text, rfl, rfl, rfl⟩

theorem emitAll_eq_ok {emissions : List Emission} (ok : emitAll emissions scope c = .ok u d) :
    ∃ lines, List.Forall₂ (fun e line => e.line? scope.symbols = some line) emissions lines ∧
      d.code = c.code ++ lines ∧ d.flags = emissions.foldl Emission.after c.flags := by
  induction emissions generalizing c with
  | nil =>
    cases ok
    exact ⟨[], .nil, (List.append_nil _).symm, rfl⟩
  | cons e rest ih =>
    obtain ⟨_, c', begins, ok⟩ := bind_inv ok
    obtain ⟨line, made, code, flags⟩ := e.step_eq_ok begins
    obtain ⟨lines, others, further, last⟩ := ih ok
    refine ⟨line :: lines, .cons made others, ?_, ?_⟩
    · rw [further, code, List.append_assoc]
      rfl
    · rw [last, flags]
      rfl

end Steps

/-!
Which variable a byte of memory belongs to is up to an `owner`; a byte that no variable has is
nobody's.
-/

section Owner

variable {owner : UInt16 → Option String} {w : Surroundings} {table : Table} {s t : State}
  {flags : Flags}

/-- What is believed of the flags is true, and a cell that they show belongs to its variable. -/
def Flags.Holds (owner : UInt16 → Option String) (w : Surroundings) (table : Table) (s : State) :
    Flags → Prop
  | .unknown => True
  | .accumulator => s.Shows s.a
  | .x => s.Shows s.x
  | .y => s.Shows s.y
  | .cell name _ offset => owner (cellAddress w table name offset) = some name ∧
      s.Shows (s.read (cellAddress w table name offset))

/-- A cell lies in the variable that it names. -/
def Place.Owned (owner : UInt16 → Option String) (w : Surroundings) (table : Table) :
    Place → Prop
  | .cell name _ offset _ => owner (cellAddress w table name offset) = some name
  | _ => True

/-- The flags can show the byte at the place, in memory or in the accumulator. -/
def Place.isTracked : Place → Bool
  | .cell .. | .accumulator _ => true
  | _ => false

/--
A register is stored in the variable that the place names, or where no variable lies; what is pushed
goes where no variable lies.
-/
structure Respects (owner : UInt16 → Option String) (m : Mnemonic) (place : Place)
    (access : Access) (s : State) : Prop where
  stores : isStore m = true → ∀ address, access = .address address →
    owner address = none ∨ owner address = some place.name
  pushes : m = .pha ∨ m = .php → owner s.stackTop = none

namespace Flags.Holds

variable {address : UInt16} {place : Place} {access : Access}

section

variable (holds : flags.Holds owner w table s)

include holds

/-- A write to where no cell of the same variable lies leaves the belief true. -/
theorem write (b : UInt8)
    (apart : ∀ name is8Bit offset, flags = .cell name is8Bit offset → owner address ≠ some name) :
    flags.Holds owner w table (s.write address b) := by
  cases flags with
  | cell name is8Bit offset =>
    obtain ⟨owned, shows⟩ := holds
    have elsewhere : address ≠ cellAddress w table name offset := by
      rintro rfl
      exact apart _ _ _ rfl owned
    refine ⟨owned, ?_⟩
    rw [State.read_write, if_neg elsewhere]
    exact shows
  | _ => exact holds

theorem push (b : UInt8) (free : owner s.stackTop = none) :
    flags.Holds owner w table (s.push b) := by
  have written : flags.Holds owner w table (s.write s.stackTop b) := by
    refine holds.write b fun name _ _ _ => ?_
    rw [free]
    nofun
  cases flags <;> exact written

/-- A register that is stored is shown where it is stored, if it was shown before. -/
theorem store {source : Flags} {b : UInt8} (value : source.Holds owner w table s → s.Shows b)
    (reached : place.isTracked = true → .address address = place.access w table)
    (owned : place.Owned owner w table)
    (respects : owner address = none ∨ owner address = some place.name) :
    (flags.afterStore source place).Holds owner w table (s.write address b) := by
  rcases afterStore_cases flags source place with forgotten | ⟨kept, apart⟩ | ⟨same, moved, written⟩
  · rw [forgotten]
    trivial
  · rw [kept]
    refine holds.write b fun name is8Bit offset shown => ?_
    rcases respects with free | own
    · rw [free]
      nofun
    · rw [own]
      exact fun same => apart name is8Bit offset shown (Option.some.inj same).symm
  · obtain ⟨name, is8Bit, offset, signed, rfl⟩ := written
    have own : address = cellAddress w table name offset := Access.address.inj (reached rfl)
    rw [moved]
    refine ⟨owned, ?_⟩
    rw [own, State.read_write, if_pos rfl]
    exact value (same ▸ holds)

end

/-- What is worked on in place is shown afterwards. -/
theorem modified (s : State) (b : UInt8)
    (reached : place.isTracked = true → access = place.access w table)
    (owned : place.Owned owner w table) (operand : place.isIndexRegister = false) :
    (Flags.ofPlace place).Holds owner w table ((s.store access b).setNZ b) := by
  cases place with
  | x | y => cases operand
  | accumulator signed =>
    rw [reached rfl]
    exact ⟨rfl, rfl⟩
  | cell name is8Bit offset signed =>
    rw [reached rfl]
    refine ⟨owned, ?_⟩
    have stored : (s.write (cellAddress w table name offset) b).read
        (cellAddress w table name offset) = b := by
      rw [State.read_write, if_pos rfl]
    change State.Shows _ ((s.write _ b).read _)
    rw [stored]
    exact ⟨rfl, rfl⟩
  | _ => trivial

/-- The belief stays true over an instruction. -/
theorem execute (holds : flags.Holds owner w table s) {m : Mnemonic}
    (reached : place.isTracked = true → access = place.access w table)
    (operand : place.isIndexRegister = false)
    (addressed : isStore m = true → ∃ address, access = .address address)
    (owned : place.Owned owner w table) (respects : Respects owner m place access s) :
    (flags.after m place).Holds owner w table (s.execute m access) := by
  cases m with
  | lda =>
    cases place with
    | cell name is8Bit offset signed =>
      rw [reached rfl]
      exact ⟨owned, rfl, rfl⟩
    | _ => exact ⟨rfl, rfl⟩
  | adc =>
    obtain ⟨carry, overflow, b, sum⟩ := s.exists_setA_adc access
    rw [sum]
    exact ⟨rfl, rfl⟩
  | sbc =>
    obtain ⟨carry, overflow, b, difference⟩ := s.exists_setA_sbc access
    rw [difference]
    exact ⟨rfl, rfl⟩
  | and | ora | eor | pla | txa | tya | ldx | inx | dex | tax | tsx | ldy | iny | dey | tay =>
    exact ⟨rfl, rfl⟩
  | asl | lsr | rol | ror | inc | dec => exact modified _ _ reached owned operand
  | sta | stx | sty =>
    obtain ⟨address, rfl⟩ := addressed rfl
    exact holds.store id reached owned (respects.stores rfl address rfl)
  | pha => exact holds.push _ (respects.pushes (.inl rfl))
  | php => exact holds.push _ (respects.pushes (.inr rfl))
  | clc | sec | nop | txs => cases flags <;> exact holds
  | _ => trivial

end Flags.Holds

namespace Emission

variable {e : Emission} {line : Line}
variable {m : Mnemonic} {mode : Cpu.Mode} {operand : String} {i : Instruction} {place : Place}

/-- What is asked of an emission whose line stands at this instruction, in this state. -/
def Keeps (owner : UInt16 → Option String) (access : Access) (s : State) (e : Emission) : Prop :=
  ∀ m place, e.operation? = some (m, place) → Respects owner m place access s

/-- The cell that an emission addresses lies in its variable. -/
def Owned (owner : UInt16 → Option String) (w : Surroundings) (table : Table) (e : Emission) :
    Prop :=
  ∀ m place, e.operation? = some (m, place) → place.Owned owner w table

theorem address_of_isStore (found : Instruction.find? (.known m) mode operand = some i)
    (stores : isStore m = true) (w : Surroundings) (s : State) :
    ∃ address, w.access i s = .address address := by
  obtain ⟨row, listed, rfl⟩ := Option.map_eq_some_iff.mp found
  have inside := (Cpu.Encoding.inMode?_eq_some (Cpu.Encoding.inMode?_of_find? listed)).1
  have all : m.encodings.all fun row =>
      row.mode != .implied && row.mode != .accumulator && row.mode != .immediate := by
    cases m <;> first | decide | cases stores
  have memory := List.all_eq_true.mp all row inside
  rw [Surroundings.access]
  change ∃ address, s.access row.mode _ _ = .address address
  cases mode : row.mode with
  | implied | accumulator | immediate =>
    rw [mode] at memory
    cases memory
  | _ => exact ⟨_, rfl⟩

/-- A cell or the accumulator is what the instruction works on. -/
theorem access_of_isTracked {high : Bool} (straight : m.isStraight = true)
    (tracked : place.isTracked = true)
    (addressed : place.operand? table high = some (mode, operand))
    (found : Instruction.find? (.known m) mode operand = some i) (s : State) :
    w.access i s = place.access w table := by
  have direct : place.isDirect = true := by
    cases place <;> first | rfl | cases tracked
  have low : place.operand? table false = some (mode, operand) := by
    cases place <;> first | exact addressed | cases tracked
  obtain ⟨row, listed, rfl⟩ := Option.map_eq_some_iff.mp found
  obtain ⟨reached, same⟩ := Place.reach_of_isDirect direct w table s
  have plain : ¬place.isIndexed = true := by
    cases place <;> first | exact Bool.false_ne_true | cases tracked
  obtain ⟨short, noY⟩ := operand?_indexed reached (fun indexed => absurd indexed plain) low
  have mode : row.mode = mode := mode_of_find? straight short noY listed
  rw [← same]
  exact access_of_operand? reached (by rw [low, ← mode]; rfl) s

theorem exists_instruction (made : e.line? table = some line)
    (operates : e.operation? = some (m, place)) : ∃ i, line = .instruction i ∧ i.op = .known m ∧
      place.isIndexRegister = false ∧
      (∀ s, m.isStraight = true → place.isTracked = true → w.access i s = place.access w table) ∧
      ∀ s, isStore m = true → ∃ address, w.access i s = .address address := by
  cases e with
  | branch | jump | label | verbatim => cases operates
  | addressed m place high =>
    cases operates
    obtain ⟨⟨mode, operand⟩, addressed, made⟩ := Option.bind_eq_some_iff.mp made
    obtain ⟨i, found, rfl⟩ := Option.map_eq_some_iff.mp made
    refine ⟨i, rfl, ?_, ?_, fun s straight tracked =>
      access_of_isTracked straight tracked addressed found s, fun s stores =>
      address_of_isStore found stores w s⟩
    · obtain ⟨row, -, rfl⟩ := Option.map_eq_some_iff.mp found
      rfl
    · cases place <;> first | rfl | cases addressed
  | byte m b | implied m =>
    cases operates
    obtain ⟨i, found, rfl⟩ := Option.map_eq_some_iff.mp made
    refine ⟨i, rfl, ?_, rfl, nofun, fun s stores => address_of_isStore found stores w s⟩
    obtain ⟨row, -, rfl⟩ := Option.map_eq_some_iff.mp found
    rfl

/-- Where control goes on with the next line, the belief stays true. -/
theorem holds_next (made : e.line? table = some line) (flows : line.flow w s = .next t)
    (holds : (∃ name, line = .label name) ∨ flags.Holds owner w table s)
    (owned : e.Owned owner w table)
    (keeps : ∀ i, line = .instruction i → e.Keeps owner (w.access i s) s) :
    (e.after flags).Holds owner w table t := by
  cases operates : e.operation? with
  | some operation =>
    obtain ⟨m, place⟩ := operation
    obtain ⟨i, rfl, op, operand, reached, addressed⟩ :=
      @exists_instruction w table e line m place made operates
    rw [after_of_operation? operates]
    by_cases straight : m.isStraight = true
    · change i.flow w s = .next t at flows
      rw [Instruction.flow_known op, Instruction.flowAs_straight straight] at flows
      cases flows
      exact (holds.resolve_left nofun).execute (reached s straight) operand (addressed s)
        (owned m place operates) (keeps i rfl m place operates)
    · have forgotten : flags.after m place = .unknown := by
        cases m <;> first | rfl | exact absurd rfl straight
      rw [forgotten]
      trivial
  | none =>
    cases e with
    | addressed | byte | implied => cases operates
    | label | verbatim => trivial
    | jump target =>
      cases made
      cases flows
    | branch m target =>
      obtain ⟨i, found, rfl⟩ := Option.map_eq_some_iff.mp made
      obtain ⟨row, listed, rfl⟩ := Option.map_eq_some_iff.mp found
      have branches : m.isBranch = true := by
        cases m <;> first | rfl | cases listed
      change Instruction.flowAs w s _ m = .next t at flows
      rw [Instruction.flowAs_branch branches] at flows
      split at flows
      · cases flows
      · cases flows
        exact holds.resolve_left nofun

end Emission

section Runs

variable {emissions : List Emission} {lines : List Line} {p q : Point}

def believed (flags : Flags) (emissions : List Emission) (k : Nat) : Flags :=
  (emissions.take k).foldl Emission.after flags

/-- The belief is true at a point of a run through the lines. Nothing is said at a label. -/
def Tracked (owner : UInt16 → Option String) (w : Surroundings) (table : Table) (flags : Flags)
    (emissions : List Emission) (lines : List Line) (p : Point) : Prop :=
  ∃ k, p.rest = lines.drop k ∧ ((∃ name rest, p.rest = .label name :: rest) ∨
    (believed flags emissions k).Holds owner w table p.cpu)

/--
At every line of the run the emission that has added it stores into the variable that it names, or
where no variable lies, and pushes only where none lies.
-/
def KeepsAlong (owner : UInt16 → Option String) (w : Surroundings) (emissions : List Emission)
    (lines : List Line) (p : Point) : Prop :=
  ∀ k e i s, emissions[k]? = some e → lines[k]? = some (.instruction i) →
    Steps w lines p ⟨lines.drop k, s⟩ → e.Keeps owner (w.access i s) s

theorem KeepsAlong.step (keeps : KeepsAlong owner w emissions lines p)
    (step : p.step? w lines = some q) : KeepsAlong owner w emissions lines q :=
  fun k e i s emission line steps => keeps k e i s emission line (.head step steps)

namespace Tracked

section

variable (made : List.Forall₂ (fun e line => Emission.line? table e = some line) emissions lines)
  (owned : ∀ e ∈ emissions, e.Owned owner w table)
  (keeps : KeepsAlong owner w emissions lines p)
  (tracked : Tracked owner w table flags emissions lines p)

include made owned keeps tracked

theorem step (step : p.step? w lines = some q) : Tracked owner w table flags emissions lines q := by
  obtain ⟨k, here, holds⟩ := tracked
  obtain ⟨rest, s⟩ := p
  cases rest with
  | nil => cases step
  | cons line rest =>
    have inside : k < lines.length := by
      refine Nat.lt_of_not_le fun past => ?_
      rw [List.drop_eq_nil_of_le past] at here
      cases here
    rw [List.drop_eq_getElem_cons inside] at here
    obtain ⟨same, further⟩ := List.cons.inj here
    have emitted : k < emissions.length := made.length_eq ▸ inside
    have makes := made.get emitted inside
    simp only [List.get_eq_getElem, ← same] at makes
    unfold Point.step? at step
    simp only at step
    cases flows : line.flow w s with
    | stop =>
      rw [flows] at step
      cases step
    | next t =>
      rw [flows] at step
      cases step
      refine ⟨k + 1, further, .inr ?_⟩
      have grown : believed flags emissions (k + 1) =
          emissions[k].after (believed flags emissions k) := by
        rw [believed, believed, List.take_succ_eq_append_getElem emitted, List.foldl_append]
        rfl
      rw [grown]
      refine Emission.holds_next makes flows ?_ (owned _ (List.getElem_mem emitted)) ?_
      · exact holds.imp_left fun ⟨name, _, first⟩ => ⟨name, (List.cons.inj first).1⟩
      · rintro i rfl
        refine keeps k _ i s (List.getElem?_eq_getElem emitted) ?_ ?_
        · rw [List.getElem?_eq_getElem inside, ← same]
        · rw [List.drop_eq_getElem_cons inside, ← same, ← further]
          exact .refl _
    | jump label =>
      rw [flows] at step
      obtain ⟨found, target, rfl⟩ := Option.map_eq_some_iff.mp step
      obtain ⟨above, whole⟩ := Code.fromLabel?_suffix target
      obtain ⟨below, first⟩ := Code.fromLabel?_head target
      exact ⟨above.length, by rw [← whole, List.drop_left], .inl ⟨label, below, first⟩⟩

theorem steps (run : Steps w lines p q) : Tracked owner w table flags emissions lines q := by
  induction run with
  | refl => exact tracked
  | head first _ ih => exact ih (keeps.step first) (tracked.step made owned keeps first)

end

end Tracked

/-- A run comes in at the first line, where the belief is true, or at a label. -/
def Enters (owner : UInt16 → Option String) (w : Surroundings) (table : Table) (flags : Flags)
    (lines : List Line) (p : Point) : Prop :=
  p.rest = lines ∧ flags.Holds owner w table p.cpu ∨
    ∃ name rest, p.rest = .label name :: rest ∧ p.rest <:+ lines

theorem Enters.tracked (enters : Enters owner w table flags lines p) :
    Tracked owner w table flags emissions lines p := by
  rcases enters with ⟨start, holds⟩ | ⟨name, rest, first, ⟨above, whole⟩⟩
  · exact ⟨0, start, .inr holds⟩
  · exact ⟨above.length, by rw [← whole, List.drop_left], .inl ⟨name, rest, first⟩⟩

theorem Flags.Holds.shows (holds : flags.Holds owner w table s) {place : Place}
    (shows : flags.shows place = true) : s.Shows (place.byte w table s) := by
  obtain ⟨known, same⟩ := Bool.and_eq_true_iff.mp shows
  rw [eq_of_beq same] at holds known
  cases place with
  | accumulator | x | y => exact holds
  | cell => exact holds.2
  | _ => cases known

/--
Take any sequence of emissions that goes through, and a run through their lines that comes to their
end: from the first line, where the flags show what they are believed to show, or from a label.
Cells lie in the variables that they name, registers are stored there or where no variable lies, and
they are pushed where no variable lies. Then the sign and zero flags are those of the byte at every
place that code generation believes them to show.
-/
theorem emitAll_shows {scope : Scope} {c d : Context} {place : Place}
    (ok : emitAll emissions scope c = .ok () d) (added : d.code = c.code ++ lines)
    (owned : ∀ e ∈ emissions, e.Owned owner w scope.symbols)
    (enters : Enters owner w scope.symbols c.flags lines p)
    (keeps : KeepsAlong owner w emissions lines p) (ends : Steps w lines p ⟨[], t⟩)
    (shows : d.flags.shows place = true) : t.Shows (place.byte w scope.symbols t) := by
  obtain ⟨made, emitted, code, last⟩ := emitAll_eq_ok ok
  cases List.append_cancel_left (code.symm.trans added)
  obtain ⟨k, past, holds⟩ := enters.tracked.steps emitted owned keeps ends
  have whole : believed c.flags emissions k = d.flags := by
    have length := emitted.length_eq
    have reached := List.drop_eq_nil_iff.mp past.symm
    rw [believed, List.take_of_length_le (by omega), last]
  rw [whole] at holds
  exact (holds.resolve_left fun ⟨_, _, label⟩ => by cases label).shows shows

end Runs

end Owner

def pairScope : Scope where
  symbols := { vars := [{ name := "a", size := 1 }, { name := "v", size := 1 }] }
  function := { name := "main" }

/-- The two variables in memory, with `v` at an address of choice. -/
def pairPlaces (v : UInt16) : Surroundings where
  address
    | "a" => 0x200
    | "v" => v
    | _ => 0x80
  verbatim _ _ := none
  call _ _ := none

def pairOwner (v address : UInt16) : Option String :=
  if address = 0x200 then some "a" else if address = v then some "v" else none

/-- Counts `v` down to zero, and stores and pushes the accumulator each time. -/
def countdownEmissions : List Emission :=
  [.label ".here1", .addressed .dec (.cell "v" true 0 false) false,
    .addressed .sta (.cell "a" true 0 false) false, .implied .pha, .branch .bne ".here1"]

def countdownLines : List Line :=
  countdownEmissions.filterMap (Emission.line? pairScope.symbols)

/-- There are two rounds to go. -/
def countdownStart : State where
  a := 7
  memory := ({} : Cpu.Memory).write 0x201 2

/-- After the loop the flags show `v`, over a store, a push and a branch. -/
theorem countdownEmissions_shows :
    ∃ d t, emitAll countdownEmissions pairScope {} = .ok () d ∧
      d.flags.shows (.cell "v" true 0 false) = true ∧
      Steps (pairPlaces 0x201) countdownLines ⟨countdownLines, countdownStart⟩ ⟨[], t⟩ ∧
      t.Shows (t.read 0x201) := by
  have goes : goesThrough (emitAll countdownEmissions) pairScope {} (fun d =>
      decide (d.code = countdownLines) && d.flags.shows (.cell "v" true 0 false)) = true := by
    decide +kernel
  obtain ⟨_, d, ok, accepted⟩ := exists_of_goesThrough goes
  obtain ⟨code, shows⟩ := Bool.and_eq_true_iff.mp accepted
  have ends : Steps (pairPlaces 0x201) countdownLines ⟨countdownLines, countdownStart⟩
      ⟨[],
        (Point.after (pairPlaces 0x201) countdownLines 10
          ⟨countdownLines, countdownStart⟩).cpu⟩ := by
    have past : (Point.after (pairPlaces 0x201) countdownLines 10
        ⟨countdownLines, countdownStart⟩).rest = [] := by decide +kernel
    rw [← past]
    exact .after 10 _
  have owned : ∀ e ∈ countdownEmissions,
      e.Owned (pairOwner 0x201) (pairPlaces 0x201) pairScope.symbols := by
    intro e inside
    simp only [countdownEmissions, List.mem_cons, List.not_mem_nil, or_false] at inside
    rcases inside with rfl | rfl | rfl | rfl | rfl <;> rintro m place ⟨⟩ <;> trivial
  have keeps : KeepsAlong (pairOwner 0x201) (pairPlaces 0x201) countdownEmissions countdownLines
      ⟨countdownLines, countdownStart⟩ := by
    intro k e i s emission line _ m place operates
    rcases k with _ | _ | _ | _ | _ | k <;> cases emission <;> cases operates
    · exact ⟨nofun, nofun⟩
    · refine ⟨fun _ address reached => .inr ?_, nofun⟩
      cases line
      cases reached
      decide +kernel
    · refine ⟨nofun, fun _ => ?_⟩
      have low := s.stackTop_lt
      have apart {address : UInt16} (high : ¬address < 0x200) : s.stackTop ≠ address := by
        rintro rfl
        exact high low
      rw [pairOwner, if_neg (apart (by decide)), if_neg (apart (by decide))]
  exact ⟨d, _, ok, shows, ends,
    emitAll_shows ok (of_decide_eq_true code) owned (.inl ⟨rfl, trivial⟩) keeps ends shows⟩

/-- Increments `v` and pushes the accumulator. -/
def pushEmissions : List Emission :=
  [.addressed .inc (.cell "v" true 0 false) false, .implied .pha]

/-- The accumulator goes to the byte at `0x1FD` when it is pushed. -/
def pushStart : State where
  a := 5
  sp := 0xFD
  memory := ({} : Cpu.Memory).write 0x1FD 255

/-- A push into a variable changes the byte that the flags are believed to show. -/
theorem not_shows_without_pushes :
    ¬ ∀ (owner : UInt16 → Option String) (w : Surroundings) (scope : Scope) (c d : Context)
        (emissions : List Emission) (lines : List Line) (p : Point) (t : State) (place : Place),
      emitAll emissions scope c = .ok () d → d.code = c.code ++ lines →
      (∀ e ∈ emissions, e.Owned owner w scope.symbols) → owner (scratchAddress w) = none →
      Enters owner w scope.symbols c.flags lines p →
      (∀ k e i s m target, emissions[k]? = some e → lines[k]? = some (.instruction i) →
        Steps w lines p ⟨lines.drop k, s⟩ → e.operation? = some (m, target) → isStore m = true →
        ∀ address, w.access i s = .address address →
          owner address = none ∨ owner address = some target.name) →
      Steps w lines p ⟨[], t⟩ → d.flags.shows place = true →
        t.Shows (place.byte w scope.symbols t) := by
  intro always
  let w := pairPlaces 0x1FD
  have goes : goesThrough (emitAll pushEmissions) pairScope {} (fun d =>
      (Point.after w d.code 2 ⟨d.code, pushStart⟩).rest.isEmpty &&
        (Point.after w d.code 2 ⟨d.code, pushStart⟩).cpu.zero &&
        (Place.cell "v" true 0 false).byte w pairScope.symbols
          (Point.after w d.code 2 ⟨d.code, pushStart⟩).cpu == 5 &&
        d.flags.shows (.cell "v" true 0 false)) = true := by
    decide +kernel
  obtain ⟨_, d, ok, accepted⟩ := exists_of_goesThrough goes
  obtain ⟨accepted, shows⟩ := Bool.and_eq_true_iff.mp accepted
  obtain ⟨accepted, value⟩ := Bool.and_eq_true_iff.mp accepted
  obtain ⟨past, zero⟩ := Bool.and_eq_true_iff.mp accepted
  have ends : Steps w d.code ⟨d.code, pushStart⟩
      ⟨[], (Point.after w d.code 2 ⟨d.code, pushStart⟩).cpu⟩ := by
    rw [← List.isEmpty_iff.mp past]
    exact .after 2 _
  have shown := always (pairOwner 0x1FD) w pairScope {} d pushEmissions d.code _ _ _ ok rfl
    (by
      intro e inside
      simp only [pushEmissions, List.mem_cons, List.not_mem_nil, or_false] at inside
      rcases inside with rfl | rfl <;> rintro m place ⟨⟩ <;> trivial)
    (by decide) (.inl ⟨rfl, trivial⟩)
    (by
      intro k e i s m target emission _ _ operates stores
      rcases k with _ | _ | k <;> cases emission <;> cases operates <;> cases stores)
    ends shows
  rw [eq_of_beq value] at shown
  rw [shown.1] at zero
  cases zero

end Lowering

end Backend6502
