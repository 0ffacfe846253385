import Backend6502.Proofs.ByteAccess
import Backend6502.Proofs.Placement
import Backend6502.Proofs.Targets

/-!
# Flags that nobody reads, and what the optimizer knows

Two states that differ in some flags stay alike as long as no instruction reads these flags. `Reads`
follows the ways that control can take to an instruction that reads them, past nothing that sets
them anew. It takes for granted that nobody reads flags across a call or a return.

Along a run, the registers that the optimizer takes for known hold what it takes them to hold.
Control that comes by a jump comes to a label, where nothing is taken for known.
-/

namespace Backend6502.Cpu

/-- Flags that are set together. -/
inductive Flag where
  | signs
  | carry
  deriving DecidableEq

namespace Flag

def reads : Flag → Mnemonic → Bool
  | .signs, .beq | .signs, .bne | .signs, .bmi | .signs, .bpl => true
  | .carry, .bcc | .carry, .bcs | .carry, .adc | .carry, .sbc | .carry, .rol | .carry, .ror => true
  | _, .php | _, .brk => true
  | _, _ => false

def sets : Flag → Mnemonic → Bool
  | .signs, .lda | .signs, .ldx | .signs, .ldy | .signs, .tax | .signs, .tay | .signs, .txa
  | .signs, .tya | .signs, .tsx | .signs, .inx | .signs, .iny | .signs, .dex | .signs, .dey
  | .signs, .inc | .signs, .dec | .signs, .and | .signs, .ora | .signs, .eor | .signs, .bit
  | .signs, .pla | .carry, .clc | .carry, .sec => true
  | _, .adc | _, .sbc | _, .asl | _, .lsr | _, .rol | _, .ror | _, .cmp | _, .cpx | _, .cpy
  | _, .plp => true
  | _, _ => false

def Same : Flag → State → State → Prop
  | .signs, s, t => t.negative = s.negative ∧ t.zero = s.zero
  | .carry, s, t => t.carry = s.carry

theorem Same.trans {f : Flag} {s t u : State} (first : f.Same s t) (second : f.Same t u) :
    f.Same s u := by
  cases f with
  | signs => exact ⟨second.1.trans first.1, second.2.trans first.2⟩
  | carry => exact Eq.trans second first

end Flag

namespace State

def withSigns (s : State) (negative zero : Bool) : State :=
  { s with negative, zero }

def withCarry (s : State) (carry : Bool) : State :=
  { s with carry }

end State

namespace Flag

variable {m : Mnemonic} (f : Flag) (s t : State)

/-- The first state, with the flag as it is in the second one. -/
def patch : Flag → State → State → State
  | .signs, s, t => s.withSigns t.negative t.zero
  | .carry, s, t => s.withCarry t.carry

theorem execute_patch (straight : m.isStraight = true) (unread : f.reads m = false)
    (place : Access) : (f.patch s t).execute m place =
      if f.sets m then s.execute m place else f.patch (s.execute m place) t := by
  cases f with
  | signs =>
    cases m with
    | adc | sbc =>
      change (if s.decimal then _ else _) = (if s.decimal then _ else _)
      cases place <;> rfl
    | php => cases unread
    | jmp | jsr | rts | rti | brk | bcc | bcs | beq | bne | bmi | bpl | bvc | bvs => cases straight
    | _ => cases place <;> rfl
  | carry =>
    cases m with
    | adc | sbc | rol | ror | php => cases unread
    | jmp | jsr | rts | rti | brk | bcc | bcs | beq | bne | bmi | bpl | bvc | bvs => cases straight
    | _ => cases place <;> rfl

/-- An instruction that does not read the flag leaves a difference in it, or removes it. -/
theorem exists_patch (straight : m.isStraight = true) (same : f.reads m = true → f.Same s t)
    (place : Access) :
    ∃ u, (f.patch s t).execute m place = f.patch (s.execute m place) u ∧
      (f.sets m = true ∨ f.Same s t → f.Same (s.execute m place) u) := by
  have own (s : State) : f.patch s s = s ∧ f.Same s s := by
    cases f
    · exact ⟨rfl, rfl, rfl⟩
    · exact ⟨rfl, rfl⟩
  by_cases alike : f.Same s t
  · have unchanged : f.patch s t = s := by
      cases f with
      | signs => rw [patch, alike.1, alike.2]; rfl
      | carry => rw [patch, show t.carry = s.carry from alike]; rfl
    rw [unchanged]
    exact ⟨_, (own _).1.symm, fun _ => (own _).2⟩
  · have result :=
      f.execute_patch s t straight (Bool.eq_false_iff.mpr fun reads => alike (same reads))
      place
    split at result
    · exact ⟨_, result.trans (own _).1.symm, fun _ => (own _).2⟩
    · next kept => exact ⟨t, result, fun sets => absurd sets (not_or.mpr ⟨kept, alike⟩)⟩

end Flag

namespace State

/-- Two states differ in the sign, zero and carry flags at most. -/
def UpToFlags (s t : State) : Prop :=
  t = (s.withSigns t.negative t.zero).withCarry t.carry

namespace UpToFlags

variable {s t : State}

theorem refl (s : State) : UpToFlags s s := rfl

theorem trans {u : State} (first : UpToFlags s t) (second : UpToFlags t u) : UpToFlags s u := by
  unfold UpToFlags at first second ⊢
  rw [second, first]
  rfl

section

variable (alike : UpToFlags s t)

include alike

theorem eq_of_same (same : ∀ f : Flag, f.Same s t) : t = s := by
  obtain ⟨negative, zero⟩ := same .signs
  have carry : t.carry = s.carry := same .carry
  rw [alike, negative, zero, carry]
  rfl

theorem access (mode : Mode) (low high : UInt8) :
    t.access mode low high = s.access mode low high := by
  rw [alike]
  cases mode <;> rfl

theorem takes {m : Mnemonic}
    (same : ∀ f : Flag, f.reads m = true → f.Same s t) : t.takes m = s.takes m := by
  cases m with
  | bcc | bcs =>
    have carry : t.carry = s.carry := same .carry rfl
    simp only [State.takes, carry]
  | beq | bne =>
    have zero : t.zero = s.zero := (same .signs rfl).2
    simp only [State.takes, zero]
  | bmi | bpl =>
    have negative : t.negative = s.negative := (same .signs rfl).1
    simp only [State.takes, negative]
  | bvc | bvs => rw [alike]; rfl
  | _ => rfl

/-- An instruction that reads none of the flags that differ keeps states alike. -/
theorem execute {m : Mnemonic} (straight : m.isStraight = true)
    (same : ∀ f : Flag, f.reads m = true → f.Same s t) (place : Access) :
    UpToFlags (s.execute m place) (t.execute m place) ∧
      ∀ f : Flag, f.sets m = true ∨ f.Same s t →
        f.Same (s.execute m place) (t.execute m place) := by
  -- From the one state to the other by the signs first, then by the carry.
  let middle := Flag.signs.patch s t
  obtain ⟨u, signs, signsSame⟩ := Flag.signs.exists_patch s t straight (same .signs) place
  obtain ⟨v, carry, carrySame⟩ := Flag.carry.exists_patch middle t straight (same .carry) place
  have result :
      t.execute m place = Flag.carry.patch (Flag.signs.patch (s.execute m place) u) v := by
    rw [← signs, ← carry]
    exact congrArg (fun t => State.execute m place t) alike
  constructor
  · unfold UpToFlags
    rw [result]
    rfl
  · intro f kept
    rw [result]
    cases f with
    | signs => exact signsSame kept
    | carry =>
      have among := congrArg State.carry signs
      exact Eq.trans (carrySame kept) among

end

end UpToFlags

end State

end Backend6502.Cpu

namespace Backend6502.Code

open Cpu (Mnemonic Flag State)

variable {i : Instruction} {m : Mnemonic}

theorem Instruction.flowAs_straight {w : Surroundings} {s : State}
    (straight : m.isStraight = true) : i.flowAs w s m = .next (s.execute m (w.access i s)) := by
  cases m <;> first | rfl | cases straight

theorem Instruction.entry?_of_mnemonic? (found : i.mnemonic? = some m) : i.op.entry? = some m := by
  rw [op_of_mnemonic? found]
  rfl

namespace Line

def reads (f : Flag) : Line → Bool
  | .instruction i => i.op.entry?.any f.reads
  | .verbatim _ => true
  | .label _ | .comment _ | .removed => false

/-- Can control go on to the next line with the flags as they were? -/
def passes (f : Flag) : Line → Bool
  | .instruction i => i.op.entry?.any fun m => (m.isStraight || m.isBranch) && !f.sets m
  | .verbatim _ => false
  | .label _ | .comment _ | .removed => true

end Line

/-- Flags may be read on the way from here through some lines, before they are set again. -/
inductive Reads (f : Flag) (lines : List Line) : List Line → Prop where
  | here {line : Line} {rest : List Line} (reads : line.reads f = true) :
      Reads f lines (line :: rest)
  | next {line : Line} {rest : List Line} (passes : line.passes f = true)
      (later : Reads f lines rest) : Reads f lines (line :: rest)
  | jump {line : Line} {rest found : List Line} {label : String} (goes : line.goesTo label = true)
      (target : fromLabel? label lines = some found) (later : Reads f lines found) :
      Reads f lines (line :: rest)

namespace Reads

variable {f : Flag} {lines rest : List Line}

theorem of_silent {line : Line} (silent : line.isSilent = true)
    (reads : Reads f lines (line :: rest)) : Reads f lines rest := by
  cases reads with
  | here reads => cases line <;> first | (cases silent; done) | cases reads
  | next _ later => exact later
  | jump goes => cases line <;> first | (cases silent; done) | cases goes

theorem of_silents {gap : List Line} (silent : ∀ line ∈ gap, line.isSilent = true)
    (reads : Reads f lines (gap ++ rest)) : Reads f lines rest := by
  induction gap with
  | nil => exact reads
  | cons line gap ih =>
    obtain ⟨head, others⟩ := List.forall_mem_cons.mp silent
    exact ih others (reads.of_silent head)

theorem of_jump {label : String} (reads : Reads f lines (.instruction (.jump label) :: rest)) :
    ∃ found, fromLabel? label lines = some found ∧ Reads f lines found := by
  cases reads with
  | here reads => cases f <;> cases reads
  | next passes => cases passes
  | jump goes target later =>
    cases eq_of_beq (show (label == _) = true from goes)
    exact ⟨_, target, later⟩

end Reads

/--
An instruction with dead signs before it does not read them, and they stay dead if it keeps them.
-/
theorem entry?_of_flagsLive {rest : List Line} (dead : flagsLive (.instruction i :: rest) = false) :
    ∃ m, i.op.entry? = some m ∧ Flag.signs.reads m = false ∧ (m == .jmp || m.isBranch) = false ∧
      (Flag.signs.sets m = false → m.isStraight = true → flagsLive rest = false) := by
  rw [flagsLive, Instruction.flagUse] at dead
  cases found : i.mnemonic? with
  | none =>
    rw [found] at dead
    cases dead
  | some m =>
    rw [found] at dead
    refine ⟨m, Instruction.entry?_of_mnemonic? found, ?_⟩
    cases m with
    | beq | bne | bmi | bpl | bcc | bcs | bvc | bvs | php | jmp | brk | cld | cli | clv | sed
    | sei => cases dead
    | sta | stx | sty | pha | clc | sec | nop | txs => exact ⟨rfl, rfl, fun _ _ => dead⟩
    | jsr | rts | rti => exact ⟨rfl, rfl, fun _ straight => nomatch straight⟩
    | _ => exact ⟨rfl, rfl, fun set => nomatch set⟩

theorem not_reads_of_flagsLive (lines : List Line) {rest : List Line}
    (dead : flagsLive rest = false) : ¬Reads .signs lines rest := by
  intro reads
  induction reads with
  | @here line rest reads =>
    cases line with
    | instruction i =>
      obtain ⟨m, entry, unread, -⟩ := entry?_of_flagsLive dead
      rw [Line.reads, entry, Option.any_some, unread] at reads
      cases reads
    | verbatim text => cases dead
    | label name => cases reads
    | comment text => cases reads
    | removed => cases reads
  | @next line rest passes _ ih =>
    cases line with
    | instruction i =>
      obtain ⟨m, entry, -, steady, later⟩ := entry?_of_flagsLive dead
      obtain ⟨-, branches⟩ := Bool.or_eq_false_iff.mp steady
      rw [Line.passes, entry, Option.any_some, branches, Bool.or_false, Bool.and_eq_true,
        Bool.not_eq_true'] at passes
      exact ih (later passes.2 passes.1)
    | verbatim text => cases passes
    | label name => cases dead
    | comment text => exact ih dead
    | removed => exact ih dead
  | @jump line rest found label goes =>
    cases line with
    | instruction i =>
      obtain ⟨m, entry, -, steady, -⟩ := entry?_of_flagsLive dead
      rw [Line.goesTo, Instruction.steers, entry, Option.any_some, steady] at goes
      cases goes
    | _ => cases goes

/-- The effect of calls does not depend on the sign, zero and carry flags. -/
def Surroundings.IsBlind (w : Surroundings) : Prop :=
  ∀ label s t, State.UpToFlags s t → w.call label t = w.call label s

/-- On the way from here through some lines, two states differ in flags that are not read. -/
structure Blurs (lines rest : List Line) (s t : State) : Prop where
  alike : State.UpToFlags s t
  flags : ∀ f : Flag, Reads f lines rest → f.Same s t

namespace Blurs

variable {w : Surroundings} {lines rest : List Line} {line : Line} {s t : State}

theorem refl (lines rest : List Line) (s : State) : Blurs lines rest s s where
  alike := .refl s
  flags f _ := by
    cases f with
    | signs => exact ⟨rfl, rfl⟩
    | carry => rfl

theorem next (passes : ∀ f, line.passes f = true) (blurs : Blurs lines (line :: rest) s t) :
    Blurs lines rest s t :=
  ⟨blurs.alike, fun f reads => blurs.flags f (.next (passes f) reads)⟩

theorem jump {label : String} {found : List Line} (goes : line.goesTo label = true)
    (target : fromLabel? label lines = some found) (blurs : Blurs lines (line :: rest) s t) :
    Blurs lines found s t :=
  ⟨blurs.alike, fun f reads => blurs.flags f (.jump goes target reads)⟩

/-- A line does the same in states that differ in flags that are not read from there on. -/
theorem flow (blind : w.IsBlind) (blurs : Blurs lines (line :: rest) s t) :
    (line.flow w s = .stop ∧ line.flow w t = .stop) ∨
      (∃ label, line.flow w s = .jump label ∧ line.flow w t = .jump label) ∨
      ∃ s' t', line.flow w s = .next s' ∧ line.flow w t = .next t' ∧ Blurs lines rest s' t' := by
  cases line with
  | label name | comment text | removed =>
    exact .inr (.inr ⟨s, t, rfl, rfl, blurs.next fun _ => rfl⟩)
  | verbatim text =>
    cases blurs.alike.eq_of_same fun f => blurs.flags f (.here rfl)
    cases effect : w.verbatim text s with
    | none => exact .inl (by simp [Line.flow, effect])
    | some after => exact .inr (.inr ⟨after, after, by simp [Line.flow, effect],
        by simp [Line.flow, effect], .refl lines rest after⟩)
  | instruction i =>
    change (i.flow w s = _ ∧ i.flow w t = _) ∨
      (∃ label, i.flow w s = _ ∧ i.flow w t = _) ∨
      ∃ s' t', i.flow w s = _ ∧ i.flow w t = _ ∧ _
    unfold Instruction.flow
    cases entry : i.op.entry? with
    | none => exact .inl ⟨rfl, rfl⟩
    | some m =>
      dsimp only
      have same (f : Flag) (reads : f.reads m = true) : f.Same s t :=
        blurs.flags f (.here (by rw [Line.reads, entry]; exact reads))
      have later (f : Flag) (kept : (m.isStraight || m.isBranch) = true) (set : f.sets m = false)
          (reads : Reads f lines rest) : f.Same s t := by
        refine blurs.flags f (.next ?_ reads)
        rw [Line.passes, entry, Option.any_some, kept, set]
        rfl
      by_cases straight : m.isStraight = true
      · have place : w.access i t = w.access i s := blurs.alike.access _ _ _
        obtain ⟨alike, kept⟩ := blurs.alike.execute straight same (w.access i s)
        refine .inr (.inr ⟨_, _, Instruction.flowAs_straight straight,
          Instruction.flowAs_straight straight, ?_⟩)
        rw [place]
        refine ⟨alike, fun f reads => kept f ?_⟩
        cases set : f.sets m with
        | true => exact .inl rfl
        | false => exact .inr (later f (by rw [straight, Bool.true_or]) set reads)
      · by_cases branches : m.isBranch = true
        · rw [Instruction.flowAs_branch branches, Instruction.flowAs_branch branches,
            blurs.alike.takes same]
          cases s.takes m with
          | true => exact .inr (.inl ⟨_, rfl, rfl⟩)
          | false =>
            refine .inr (.inr ⟨s, t, rfl, rfl, blurs.alike, fun f reads => ?_⟩)
            refine later f (by rw [branches, Bool.or_true]) ?_ reads
            cases f <;> cases m <;> first | rfl | cases branches
        · cases m with
          | jmp => exact .inr (.inl ⟨_, rfl, rfl⟩)
          | jsr =>
            have called := blind i.operand s t blurs.alike
            simp only [Instruction.flowAs, called]
            cases w.call i.operand s with
            | none => exact .inl ⟨rfl, rfl⟩
            | some after => exact .inr (.inr ⟨after, after, rfl, rfl, .refl lines rest after⟩)
          | rts | rti | brk => exact .inl ⟨rfl, rfl⟩
          | bcc | bcs | beq | bne | bmi | bpl | bvc | bvs => exact absurd rfl branches
          | _ => exact absurd rfl straight

end Blurs

end Backend6502.Code

namespace Backend6502

namespace Cpu

/-- Is the address found without a look into memory? -/
def Mode.isDirect : Mode → Bool
  | .zeroPage | .zeroPageX | .zeroPageY | .absolute | .absoluteX | .absoluteY => true
  | _ => false

/-- The register that a compare reads. -/
def State.compared (s : State) : Mnemonic → Option UInt8
  | .cmp => some s.a
  | .cpx => some s.x
  | .cpy => some s.y
  | _ => none

end Cpu

namespace Code

open Cpu (Mnemonic Mode State Access)

variable {w : Surroundings} {i : Instruction} {m : Mnemonic} {s : State}

namespace Surroundings

variable {w : Surroundings} {s : State} {i : Instruction}

theorem access_of_immediate? {value : UInt8} (found : i.immediate? = some value) :
    w.access i s = .value value := by
  have mode : i.mode = .immediate := by
    unfold Instruction.immediate? at found
    split at found
    · next mode _ => exact mode
    · cases found
  rw [access, mode, operandWord, found]
  change Access.value value.toUInt16.toUInt8 = _
  rw [UInt8.toUInt8_toUInt16]

theorem mode_of_access (same : w.access i s = .accumulator) : i.mode = .accumulator := by
  unfold access State.access at same
  split at same <;> first | assumption | cases same

/-- Only shifts from the table work on the accumulator. -/
theorem access_ne_accumulator (tabled : i.IsTabled) {m : Mnemonic} (found : i.mnemonic? = some m)
    (other : (m == .asl || m == .lsr || m == .rol || m == .ror) = false) :
    w.access i s ≠ .accumulator := by
  obtain ⟨entry, row, op, inMode, -⟩ := tabled.row
  rw [Instruction.op_of_mnemonic? found] at op
  cases op
  intro same
  rw [mode_of_access same] at inMode
  cases m <;> first | (cases inMode; done) | cases other

end Surroundings

namespace Known

/-- The registers hold what they are known to hold. -/
structure Holds (k : Known) (s : State) : Prop where
  a : ∀ value, k.a = some value → s.a = value
  x : ∀ value, k.x = some value → s.x = value
  y : ∀ value, k.y = some value → s.y = value

theorem holds_nothing (s : State) : Holds {} s :=
  ⟨nofun, nofun, nofun⟩

namespace Holds

variable {m : Mnemonic}
variable {k : Known} {s : State}

theorem setNZ (holds : k.Holds s) (b : UInt8) : k.Holds (s.setNZ b) :=
  ⟨holds.a, holds.x, holds.y⟩

theorem compared (holds : k.Holds s) {held : UInt8}
    (found : k.compared m = some held) : s.compared m = some held := by
  cases m with
  | cmp => exact congrArg some (holds.a held found)
  | cpx => exact congrArg some (holds.x held found)
  | cpy => exact congrArg some (holds.y held found)
  | _ => cases found

theorem step {w : Surroundings} {i : Instruction} (holds : k.Holds s)
    (tabled : i.IsTabled) (found : i.mnemonic? = some m) (straight : m.isStraight = true) :
    (k.step i).Holds (s.execute m (w.access i s)) := by
  have incremented {register : Option UInt8} {content : UInt8} (f : UInt8 → UInt8)
      (known : ∀ value, register = some value → content = value) :
      ∀ value, register.map f = some value → f content = value := by
    intro value found
    obtain ⟨before, same, rfl⟩ := Option.map_eq_some_iff.mp found
    rw [known before same]
  have forgotten {content : UInt8} : ∀ value, none = some value → content = value := by
    intro value known
    cases known
  have stored {place : Access} {b : UInt8} (memory : place ≠ .accumulator) :
      k.Holds (s.store place b) := by
    cases place with
    | accumulator => exact absurd rfl memory
    | none | value => exact holds
    | address => exact ⟨holds.a, holds.x, holds.y⟩
  have shifted {place : Access} {b : UInt8} {out : Bool} (memory : place ≠ .accumulator) :
      k.Holds (s.shiftTo place b out) := by
    cases place with
    | accumulator => exact absurd rfl memory
    | none | value | address => exact ⟨holds.a, holds.x, holds.y⟩
  have shiftedBy (b : UInt8) (out : Bool) :
      Holds (if i.mode = .accumulator then { k with a := none } else k)
        (s.shiftTo (w.access i s) b out) := by
    split
    · next mode =>
      rw [Surroundings.access, mode]
      exact ⟨forgotten, holds.x, holds.y⟩
    · next mode => exact shifted fun same => mode (Surroundings.mode_of_access same)
  rw [Known.step, found]
  cases m with
  | lda =>
    refine ⟨?_, holds.x, holds.y⟩
    intro value known
    rw [Surroundings.access_of_immediate? known]
    rfl
  | ldx =>
    refine ⟨holds.a, ?_, holds.y⟩
    intro value known
    rw [Surroundings.access_of_immediate? known]
    rfl
  | ldy =>
    refine ⟨holds.a, holds.x, ?_⟩
    intro value known
    rw [Surroundings.access_of_immediate? known]
    rfl
  | tax => exact ⟨holds.a, holds.a, holds.y⟩
  | tay => exact ⟨holds.a, holds.x, holds.a⟩
  | txa => exact ⟨holds.x, holds.x, holds.y⟩
  | tya => exact ⟨holds.y, holds.x, holds.y⟩
  | inx => exact ⟨holds.a, incremented (· + 1) holds.x, holds.y⟩
  | dex => exact ⟨holds.a, incremented (· - 1) holds.x, holds.y⟩
  | iny => exact ⟨holds.a, holds.x, incremented (· + 1) holds.y⟩
  | dey => exact ⟨holds.a, holds.x, incremented (· - 1) holds.y⟩
  | adc =>
    have kept : (s.execute .adc (w.access i s)).x = s.x ∧
        (s.execute .adc (w.access i s)).y = s.y := by
      rw [State.execute]
      split <;> exact ⟨rfl, rfl⟩
    exact ⟨forgotten, fun value known => kept.1.trans (holds.x value known),
      fun value known => kept.2.trans (holds.y value known)⟩
  | sbc =>
    have kept : (s.execute .sbc (w.access i s)).x = s.x ∧
        (s.execute .sbc (w.access i s)).y = s.y := by
      rw [State.execute]
      split <;> exact ⟨rfl, rfl⟩
    exact ⟨forgotten, fun value known => kept.1.trans (holds.x value known),
      fun value known => kept.2.trans (holds.y value known)⟩
  | and | ora | eor | pla => exact ⟨forgotten, holds.x, holds.y⟩
  | asl | lsr | rol | ror => exact shiftedBy _ _
  | tsx => exact ⟨holds.a, forgotten, holds.y⟩
  | sta | stx | sty => exact stored (Surroundings.access_ne_accumulator tabled found rfl)
  | inc | dec =>
    exact (stored (Surroundings.access_ne_accumulator tabled found rfl)).setNZ _
  | cmp | cpx | cpy | bit | pha | php | plp | clc | sec | nop | txs =>
    exact ⟨holds.a, holds.x, holds.y⟩
  | cld | cli | clv | sed | sei => exact holds_nothing _
  | _ => cases straight

end Holds

end Known

/-- What stores and compares leave behind. -/
structure Instruction.Left (w : Surroundings) (i : Instruction) (s : State) : Prop where
  stored : i.mnemonic? = some .sta → i.mode.isDirect = true → s.load (w.access i s) = s.a
  /-- The zero flag tells whether the values that were compared are equal. -/
  compared : ∀ m held value, i.mnemonic? = some m → s.compared m = some held →
    i.immediate? = some value → s.zero = (held == value)

theorem Instruction.left_execute
    (found : i.mnemonic? = some m) (s : State) : i.Left w (s.execute m (w.access i s)) where
  stored stores direct := by
    cases found.symm.trans stores
    have placed : ∃ address, ∀ t : State, t.x = s.x → t.y = s.y →
        w.access i t = .address address := by
      unfold Surroundings.access State.access
      cases mode : i.mode <;> rw [mode] at direct <;> first
        | exact ⟨_, fun t x y => by rw [x]⟩
        | exact ⟨_, fun t x y => by rw [y]⟩
        | exact ⟨_, fun t x y => rfl⟩
        | cases direct
    obtain ⟨address, here⟩ := placed
    have after : s.execute .sta (w.access i s) = s.write address s.a := by
      rw [here s rfl rfl]
      rfl
    rw [after, here (s.write address s.a) rfl rfl]
    exact Cpu.Memory.read_write_self s.memory address s.a
  compared n held value compares register immediate := by
    cases found.symm.trans compares
    rw [Surroundings.access_of_immediate? immediate] at register ⊢
    cases m with
    | cmp | cpx | cpy =>
      cases register
      exact Cpu.sub_beq_zero _ _
    | _ => cases register

theorem Instruction.left_of_not_isStraight
    (found : i.mnemonic? = some m) (crooked : ¬m.isStraight = true) : i.Left w s where
  stored stores := by
    cases found.symm.trans stores
    exact absurd rfl crooked
  compared n held value compares register := by
    cases found.symm.trans compares
    cases m with
    | cmp | cpx | cpy => exact absurd rfl crooked
    | _ => cases register

/--
At this point of a run, with these lines before it, the registers hold what they are known to hold
and the instruction before it has left behind what it does. Nothing is said at a label.
-/
def Knows (w : Surroundings) (before rest : List Line) (s : State) : Prop :=
  (∃ name below, rest = .label name :: below) ∨
    (knownAfter before).Holds s ∧
      ∀ i above, nearestInstruction? before = some (i, above) → i.Left w s

theorem Knows.next {before rest : List Line} {line : Line} {after : State}
    (knows : Knows w before (line :: rest) s) (listed : Listed (line :: rest))
    (flow : line.flow w s = .next after) : Knows w (line :: before) rest after := by
  refine .inr ?_
  cases line with
  | label name | verbatim text => exact ⟨Known.holds_nothing _, fun i above found => by cases found⟩
  | comment text | removed =>
    cases flow
    rcases knows with ⟨_, _, label⟩ | facts
    · cases label
    · exact facts
  | instruction i =>
    rcases knows with ⟨_, _, label⟩ | ⟨holds, -⟩
    · cases label
    · change ((knownAfter before).step i).Holds after ∧ ∀ j above,
        some (i, before) = some (j, above) → _
      have last (left : i.Left w after) :
          ∀ j above, some (i, before) = some (j, above) → j.Left w after := by
        rintro j above ⟨⟩
        exact left
      change i.flow w s = .next after at flow
      cases found : i.mnemonic? with
      | none =>
        refine ⟨?_, last ⟨fun stores => ?_, fun m _ _ compares => ?_⟩⟩
        · rw [Known.step, found]
          exact Known.holds_nothing after
        · cases found.symm.trans stores
        · cases found.symm.trans compares
      | some m =>
        rw [Instruction.flow_known (Instruction.op_of_mnemonic? found)] at flow
        by_cases straight : m.isStraight = true
        · rw [Instruction.flowAs_straight straight] at flow
          cases flow
          have tabled : i.IsTabled := listed i List.mem_cons_self
          exact ⟨holds.step tabled found straight, last (Instruction.left_execute found s)⟩
        · refine ⟨?_, last (Instruction.left_of_not_isStraight found straight)⟩
          rw [Known.step, found]
          by_cases branches : m.isBranch = true
          · rw [Instruction.flowAs_branch branches] at flow
            split at flow
            · cases flow
            · cases flow
              cases m <;> first | exact holds | cases branches
          · cases m with
            | jsr => exact Known.holds_nothing after
            | jmp | rts | rti | brk => cases flow
            | bcc | bcs | beq | bne | bmi | bpl | bvc | bvs => exact absurd rfl branches
            | _ => exact absurd rfl straight

end Code

end Backend6502
