import Backend6502.Proofs.KnownRegisters

/-!
# The height of the stack along the lines

In the lines of an expression a push of the accumulator and the pull that belongs to it stand like a
pair of brackets, and no jump goes from one depth of brackets to another (`Balanced`). So the number
of bytes on the stack can be read off the lines before a point, whatever way a run has taken to it.
Outside of all brackets the accumulator is not touched. A run to the end of such lines gives back
the accumulator and the stack pointer, unless the byte that was pushed first is overwritten on the
way.
-/

namespace Backend6502

namespace Cpu

/-- Does an instruction leave the stack pointer alone, pushes and pulls of the accumulator apart? -/
def Mnemonic.keepsStack : Mnemonic → Bool
  | .php | .plp | .txs => false
  | _ => true

/-- Does an instruction in this mode leave the accumulator as it is? -/
def Mnemonic.keepsA (mode : Mode) : Mnemonic → Bool
  | .lda | .txa | .tya | .adc | .sbc | .and | .ora | .eor | .pla | .jsr => false
  | .asl | .lsr | .rol | .ror | .inc | .dec | .sta | .stx | .sty => mode != .accumulator
  | _ => true

namespace State

variable {s : State} {m : Mnemonic} {place : Access}

theorem sp_store (s : State) (place : Access) (b : UInt8) : (s.store place b).sp = s.sp := by
  cases place <;> rfl

theorem a_store (other : place ≠ .accumulator) (b : UInt8) : (s.store place b).a = s.a := by
  cases place with
  | accumulator => exact absurd rfl other
  | _ => rfl

theorem sp_execute (straight : m.isStraight = true) (keeps : m.keepsStack = true)
    (notPush : m ≠ .pha) (notPull : m ≠ .pla) : (s.execute m place).sp = s.sp := by
  cases m with
  | adc | sbc =>
    rw [execute]
    split <;> rfl
  | sta | stx | sty | inc | dec | asl | lsr | rol | ror => exact sp_store _ place _
  | php | plp | txs => cases keeps
  | pha => exact absurd rfl notPush
  | pla => exact absurd rfl notPull
  | bcc | bcs | beq | bne | bmi | bpl | bvc | bvs | jmp | jsr | rts | rti | brk => cases straight
  | _ => rfl

theorem a_execute {mode : Mode} (straight : m.isStraight = true) (keeps : m.keepsA mode = true)
    (elsewhere : mode ≠ .accumulator → place ≠ .accumulator) : (s.execute m place).a = s.a := by
  have memory (changes : (mode != .accumulator) = true) : place ≠ .accumulator :=
    elsewhere (bne_iff_ne.mp changes)
  cases m with
  | sta | stx | sty | inc | dec | asl | lsr | rol | ror => exact a_store (memory keeps) _
  | lda | txa | tya | adc | sbc | and | ora | eor | pla | jsr => cases keeps
  | bcc | bcs | beq | bne | bmi | bpl | bvc | bvs | jmp | rts | rti | brk => cases straight
  | _ => rfl

/-- The address that a push writes to at a stack pointer. -/
def slot (sp : UInt8) : UInt16 :=
  0x100 ||| sp.toUInt16

/-- The stack pointer below a number of pushed bytes. -/
def below (base : UInt8) (h : Nat) : UInt8 :=
  base - UInt8.ofNat h

theorem below_zero (base : UInt8) : below base 0 = base :=
  UInt8.sub_zero base

theorem below_succ (base : UInt8) (h : Nat) : below base (h + 1) = below base h - 1 := by
  rw [below, below, UInt8.ofNat_add]
  grind

theorem below_pred {h : Nat} (base : UInt8) (raised : h ≠ 0) :
    below base (h - 1) = below base h + 1 := by
  obtain ⟨h, rfl⟩ := Nat.exists_eq_succ_of_ne_zero raised
  rw [Nat.succ_sub_one, below_succ]
  exact (UInt8.sub_add_cancel _ 1).symm

/-- Up to a full page of bytes the stack pointer shows whether anything is pushed. -/
theorem below_eq_self {base : UInt8} {h : Nat} (room : h < 256) : below base h = base ↔ h = 0 := by
  constructor
  · intro same
    rw [below, UInt8.sub_eq_iff_eq_add, UInt8.left_eq_add] at same
    have none := congrArg UInt8.toNat same
    rwa [UInt8.toNat_ofNat', Nat.mod_eq_of_lt room] at none
  · rintro rfl
    exact below_zero base

end State

end Cpu

namespace Code

open Cpu (Mnemonic State)
open Cpu.State (slot below below_zero below_succ below_pred below_eq_self)

/-- Subroutines come back with the stack pointer that they are entered with. -/
def Surroundings.Returns (w : Surroundings) : Prop :=
  ∀ name s t, w.call name s = some t → t.sp = s.sp

namespace Line

def pushes : Line → Bool
  | .instruction i => i.op.entry? == some .pha
  | _ => false

def pulls : Line → Bool
  | .instruction i => i.op.entry? == some .pla
  | _ => false

def heightAfter (h : Nat) (line : Line) : Nat :=
  if line.pushes then h + 1 else if line.pulls then h - 1 else h

/--
May the line stand at this height? It moves the stack pointer by nothing but pushes and pulls of the
accumulator, and where nothing is pushed it keeps the accumulator.
-/
def fits (h : Nat) : Line → Bool
  | .instruction i => i.op.entry?.all fun m => m.keepsStack && (h != 0 || m.keepsA i.mode)
  | .verbatim _ => false
  | .label _ | .comment _ | .removed => true

/-- What a line that fits can do to the accumulator and the stack pointer. -/
inductive Moves (h : Nat) (line : Line) (s t : State) : Prop where
  | push (is : line.pushes = true) (height : line.heightAfter h = h + 1) (state : t = s.push s.a)
  | pull (raised : h ≠ 0) (height : line.heightAfter h = h - 1)
      (state : t = s.pull.2.setA s.pull.1)
  | stay (height : line.heightAfter h = h) (sp : t.sp = s.sp) (a : h = 0 → t.a = s.a)

variable {w : Surroundings} {s t : State} {h : Nat}

theorem moves_instruction {i : Instruction} {m : Mnemonic} (returns : w.Returns)
    (entry : i.op.entry? = some m) (keeps : m.keepsStack = true)
    (bare : h = 0 → m.keepsA i.mode = true) (next : i.flowAs w s m = .next t) :
    Moves h (.instruction i) s t := by
  have stays (notPush : m ≠ .pha) (notPull : m ≠ .pla) : heightAfter h (.instruction i) = h := by
    simp [heightAfter, pushes, pulls, entry, notPush, notPull]
  by_cases straight : m.isStraight = true
  · rw [Instruction.flowAs_straight straight] at next
    cases next
    by_cases push : m = .pha
    · cases push
      have is : pushes (.instruction i) = true := by rw [pushes, entry, beq_self_eq_true]
      exact .push is (if_pos is) rfl
    · by_cases pull : m = .pla
      · cases pull
        refine .pull (fun zero => Bool.noConfusion (bare zero)) ?_ rfl
        simp [heightAfter, pushes, pulls, entry]
      · exact .stay (stays push pull) (State.sp_execute straight keeps push pull) fun zero =>
          State.a_execute straight (bare zero) fun mode same =>
            mode (Surroundings.mode_of_access same)
  · by_cases branches : m.isBranch = true
    · rw [Instruction.flowAs_branch branches] at next
      split at next
      · cases next
      · cases next
        refine .stay (stays ?_ ?_) rfl fun _ => rfl
        · rintro rfl
          cases branches
        · rintro rfl
          cases branches
    · cases m with
      | jsr =>
        rw [Instruction.flowAs] at next
        cases called : w.call i.operand s with
        | none =>
          rw [called] at next
          cases next
        | some after =>
          rw [called] at next
          cases next
          exact .stay (stays (by decide) (by decide)) (returns _ s t called) fun zero =>
            Bool.noConfusion (bare zero)
      | jmp | rts | rti | brk => cases next
      | bcc | bcs | beq | bne | bmi | bpl | bvc | bvs => exact absurd rfl branches
      | _ => exact absurd rfl straight

/-- A line that fits and lets control go on pushes, pulls, or leaves both alone. -/
theorem moves_of_fits {line : Line} (returns : w.Returns) (fits : line.fits h = true)
    (next : line.flow w s = .next t) : line.Moves h s t := by
  cases line with
  | instruction i =>
    change i.flow w s = .next t at next
    unfold Instruction.flow at next
    cases entry : i.op.entry? with
    | none =>
      rw [entry] at next
      cases next
    | some m =>
      rw [entry] at next
      rw [Line.fits, entry, Option.all_some, Bool.and_eq_true] at fits
      refine moves_instruction returns entry fits.1 ?_ next
      rintro rfl
      exact fits.2
  | verbatim text => cases fits
  | label name | comment text | removed =>
    cases next
    exact .stay rfl rfl fun _ => rfl

end Line

def heightAfter (h : Nat) (lines : List Line) : Nat :=
  lines.foldl Line.heightAfter h

/-- Some lines with the height of the stack before each of them. -/
def heights : Nat → List Line → List (Nat × Line)
  | _, [] => []
  | h, line :: rest => (h, line) :: heights (line.heightAfter h) rest

theorem heightAfter_append (h : Nat) (first second : List Line) :
    heightAfter h (first ++ second) = heightAfter (heightAfter h first) second :=
  List.foldl_append

theorem heights_append (h : Nat) (first second : List Line) :
    heights h (first ++ second) = heights h first ++ heights (heightAfter h first) second := by
  induction first generalizing h with
  | nil => rfl
  | cons line rest ih =>
    rw [List.cons_append, heights, ih, heights, List.cons_append]
    rfl

theorem mem_heights (h : Nat) (above : List Line) (line : Line) (rest : List Line) :
    (heightAfter h above, line) ∈ heights h (above ++ line :: rest) := by
  rw [heights_append]
  exact List.mem_append_right _ List.mem_cons_self

theorem mem_labelNames_of_mem_heights {h k : Nat} {name : String} {lines : List Line}
    (inside : (k, .label name) ∈ heights h lines) : name ∈ labelNames lines := by
  induction lines generalizing h with
  | nil => cases inside
  | cons line rest ih =>
    rcases List.mem_cons.mp inside with here | later
    · cases here
      exact List.mem_cons_self
    · change name ∈ labelNames ([line] ++ rest)
      rw [labelNames_append]
      exact List.mem_append_right _ (ih later)

theorem height_unique {h j k : Nat} {name : String} {lines : List Line}
    (distinct : (labelNames lines).Nodup) (first : (j, .label name) ∈ heights h lines)
    (second : (k, .label name) ∈ heights h lines) : j = k := by
  induction lines generalizing h with
  | nil => cases first
  | cons line rest ih =>
    have split : labelNames (line :: rest) = labelNames [line] ++ labelNames rest :=
      labelNames_append [line] rest
    rw [split, List.nodup_append] at distinct
    obtain ⟨-, below, apart⟩ := distinct
    rcases List.mem_cons.mp first with here | later <;>
      rcases List.mem_cons.mp second with alsoHere | alsoLater
    · cases here
      cases alsoHere
      rfl
    · cases here
      exact absurd rfl
        (apart name List.mem_cons_self name (mem_labelNames_of_mem_heights alsoLater))
    · cases alsoHere
      exact absurd rfl (apart name List.mem_cons_self name (mem_labelNames_of_mem_heights later))
    · exact ih below later alsoLater

/--
The lines take the stack from one height to another. Each of them fits its height, and control goes
to labels among the lines or to targets, always at the height that it comes from.
-/
structure Balanced (targets : String → Nat → Prop) (h k : Nat) (lines : List Line) : Prop where
  ends : heightAfter h lines = k
  fits : ∀ x ∈ heights h lines, x.2.fits x.1 = true
  aimed : ∀ x ∈ heights h lines, ∀ name, x.2.goesTo name = true →
    targets name x.1 ∨ (x.1, .label name) ∈ heights h lines

namespace Balanced

variable {targets others : String → Nat → Prop} {h j k : Nat} {first second lines : List Line}

theorem nil : Balanced targets h h [] := by
  refine ⟨rfl, ?_, ?_⟩
  · intro x inside
    cases inside
  · intro x inside
    cases inside

theorem append (before : Balanced targets h j first) (after : Balanced targets j k second) :
    Balanced targets h k (first ++ second) := by
  have parts := heights_append h first second
  rw [before.ends] at parts
  refine ⟨?_, ?_, ?_⟩
  · rw [heightAfter_append, before.ends, after.ends]
  · intro x inside
    rw [parts] at inside
    rcases List.mem_append.mp inside with early | late
    · exact before.fits x early
    · exact after.fits x late
  · intro x inside name goes
    rw [parts] at inside ⊢
    rcases List.mem_append.mp inside with early | late
    · exact (before.aimed x early name goes).imp_right (List.mem_append_left _)
    · exact (after.aimed x late name goes).imp_right (List.mem_append_right _)

theorem single (line : Line) (fits : line.fits h = true)
    (aimed : ∀ name, line.goesTo name = true → targets name h) :
    Balanced targets h (line.heightAfter h) [line] := by
  refine ⟨rfl, ?_, ?_⟩
  · intro x inside
    cases List.mem_singleton.mp inside
    exact fits
  · intro x inside name goes
    cases List.mem_singleton.mp inside
    exact .inl (aimed name goes)

theorem enclose {inner : String → Nat → Prop}
    (balanced : Balanced (fun name height => inner name height ∨ targets name height) h k lines)
    (placed : ∀ name height, inner name height → (height, .label name) ∈ heights h lines) :
    Balanced targets h k lines := by
  refine ⟨balanced.ends, balanced.fits, ?_⟩
  intro x inside name goes
  rcases balanced.aimed x inside name goes with (mine | outer) | here
  · exact .inr (placed name x.1 mine)
  · exact .inl outer
  · exact .inr here

end Balanced

/-- The step from here leaves alone what was pushed first, and a push does not come round to it. -/
structure Spares (w : Surroundings) (lines : List Line) (base : UInt8) (p : Point) : Prop where
  kept : p.cpu.sp ≠ base → ∀ q, p.step? w lines = some q →
    q.cpu.read (slot base) = p.cpu.read (slot base)
  room : ∀ line rest, p.rest = line :: rest → line.pushes = true → p.cpu.sp - 1 ≠ base

/-- With `h` bytes on the stack the accumulator is at hand: in itself, or in the first of them. -/
structure Guards (base a : UInt8) (h : Nat) (s : State) : Prop where
  room : h < 256
  sp : s.sp = below base h
  bare : h = 0 → s.a = a
  pushed : h ≠ 0 → s.read (slot base) = a

namespace Guards

variable {base a : UInt8} {h : Nat} {s t : State}

theorem sp_eq_base (guards : Guards base a h s) : s.sp = base ↔ h = 0 := by
  rw [guards.sp]
  exact below_eq_self guards.room

theorem move {line : Line} (guards : Guards base a h s) (moves : line.Moves h s t)
    (kept : s.sp ≠ base → t.read (slot base) = s.read (slot base))
    (room : line.pushes = true → s.sp - 1 ≠ base) : Guards base a (line.heightAfter h) t := by
  have still (raised : h ≠ 0) : t.read (slot base) = a := by
    rw [kept fun same => raised (guards.sp_eq_base.mp same)]
    exact guards.pushed raised
  cases moves with
  | push is height state =>
    rw [height]
    have sp : t.sp = below base (h + 1) := by
      rw [state, below_succ, ← guards.sp]
      rfl
    have short : h + 1 ≠ 256 := by
      intro full
      apply room is
      rw [guards.sp, ← below_succ, full]
      exact UInt8.sub_zero base
    have room := guards.room
    refine ⟨by omega, sp, fun zero => absurd zero (Nat.succ_ne_zero h), fun _ => ?_⟩
    by_cases zero : h = 0
    · have here : slot base = s.stackTop := by
        rw [← guards.sp_eq_base.mpr zero]
        rfl
      rw [state, here]
      exact (Cpu.Memory.read_write_self s.memory s.stackTop s.a).trans (guards.bare zero)
    · exact still zero
  | pull raised height state =>
    rw [height]
    have sp : t.sp = below base (h - 1) := by
      rw [state, below_pred base raised, ← guards.sp]
      rfl
    have room : h - 1 < 256 := Nat.lt_of_le_of_lt (Nat.sub_le h 1) guards.room
    refine ⟨room, sp, fun last => ?_, fun _ => still raised⟩
    have top : s.drop.stackTop = slot base := by
      have last : t.sp = base := by rw [sp, last, below_zero]
      rw [state] at last
      change slot (s.sp + 1) = slot base
      rw [show s.sp + 1 = base from last]
    rw [state]
    change s.read s.drop.stackTop = a
    rw [top]
    exact guards.pushed raised
  | stay height sp keeps =>
    rw [height]
    exact ⟨guards.room, sp.trans guards.sp, fun zero => (keeps zero).trans (guards.bare zero),
      still⟩

end Guards

/-- At this point of a run the accumulator can be had back, by the lines above. -/
def Guarded (lines : List Line) (base a : UInt8) (p : Point) : Prop :=
  ∃ above, lines = above ++ p.rest ∧ Guards base a (heightAfter 0 above) p.cpu

namespace Balanced

variable {w : Surroundings} {lines : List Line} {base a : UInt8} {p q : Point}

section

variable (balanced : Balanced (fun _ _ => False) 0 0 lines)
  (distinct : (labelNames lines).Nodup)
  (returns : w.Returns)

include balanced distinct returns

theorem guarded_step (guarded : Guarded lines base a p)
    (spares : Spares w lines base p) (step : p.step? w lines = some q) :
    Guarded lines base a q := by
  obtain ⟨above, split, guards⟩ := guarded
  obtain ⟨rest, s⟩ := p
  cases rest with
  | nil => cases step
  | cons line rest =>
    have here : (heightAfter 0 above, line) ∈ heights 0 lines := by
      rw [split]
      exact mem_heights 0 above line rest
    have kept := fun raised => spares.kept raised q step
    rw [Point.step?] at step
    cases flow : line.flow w s with
    | next t =>
      simp only [flow, Option.some.injEq] at step
      cases step
      refine ⟨above ++ [line], by rw [split, List.append_assoc]; rfl, ?_⟩
      rw [heightAfter_append]
      exact guards.move (Line.moves_of_fits returns (balanced.fits _ here) flow) kept
        (spares.room line rest rfl)
    | jump name =>
      simp only [flow] at step
      obtain ⟨found, target, same⟩ := Option.map_eq_some_iff.mp step
      cases same
      obtain ⟨lower, rfl⟩ := fromLabel?_head target
      obtain ⟨higher, joined⟩ := fromLabel?_suffix target
      have there : (heightAfter 0 higher, .label name) ∈ heights 0 lines := by
        rw [← joined]
        exact mem_heights 0 higher (.label name) lower
      rcases balanced.aimed _ here name (Line.goesTo_of_flow flow) with nowhere | placed
      · exact nowhere.elim
      · refine ⟨higher, joined.symm, ?_⟩
        rw [height_unique distinct there placed]
        exact guards
    | stop =>
      simp only [flow] at step
      cases step

/-- Control that comes to the end of balanced lines brings both registers back. -/
theorem gives_back {s t : State}
    (along : Along w lines (Spares w lines s.sp) ⟨lines, s⟩ ⟨[], t⟩) : t.a = s.a ∧ t.sp = s.sp := by
  have begins : Guarded lines s.sp s.a ⟨lines, s⟩ :=
    ⟨[], rfl, by decide, (below_zero s.sp).symm, fun _ => rfl, fun raised => absurd rfl raised⟩
  have run {p q : Point} (along : Along w lines (Spares w lines s.sp) p q) :
      Guarded lines s.sp s.a p → Guarded lines s.sp s.a q := by
    induction along with
    | refl => exact id
    | head here first _ ih =>
      intro guarded
      exact ih (guarded_step balanced distinct returns guarded here first)
  obtain ⟨above, split, guards⟩ := run along begins
  rw [List.append_nil] at split
  have level : heightAfter 0 above = 0 := by
    rw [← split]
    exact balanced.ends
  exact ⟨guards.bare level, guards.sp_eq_base.mpr level⟩

end

end Balanced

end Code

end Backend6502
