import Backend6502.Lowering.Call
import Backend6502.Proofs.Generation
import Backend6502.Proofs.Placement
import Backend6502.Proofs.Targets
import Mathlib.Algebra.Order.Group.Multiset
import Mathlib.Tactic.Abel

/-!
# Deeds

What an expression does besides having a value is a deed: a call, a write to a target, or a step of
a target by one. The code of a deed is a block of lines. All other lines are quiet: they work on the
accumulator, the flags, the stack and the scratch cell, load Y with a byte for a pointer, or choose
where control goes on. A step of code generation that adds quiet lines leaves the pass, and what was
put off, as they are.

Lines are closed if control moves only onward in them. Code that is made of quiet lines, of blocks
and of closed stretches is run from one of these parts to the next. So each block is run once, and
those in a stretch at most once.
-/

namespace Backend6502

open Cpu (Mnemonic Mode State)
open Symbols (scratchCell)

/-- Is nothing but the accumulator, the flags, the stack, the scratch cell and Y changed? -/
def Cpu.Mnemonic.isQuiet (mode : Mode) (operand : String) : Mnemonic → Bool
  | .lda | .adc | .sbc | .and | .ora | .eor | .cmp | .cpx | .cpy | .bit | .clc | .sec | .pha | .pla
  | .txa | .tya | .nop => true
  | .ldy => mode == .immediate
  | .sta | .stx | .sty => operand == scratchCell
  | .asl | .lsr | .ror => mode == .accumulator
  | _ => false

/-- Does control stay in the code, if a subroutine that is called comes back? -/
def Cpu.Mnemonic.goesOn : Mnemonic → Bool
  | .rts | .rti | .brk => false
  | _ => true

namespace Code

variable {line : Line} {w : Surroundings}

/-- Is it an instruction that does no deed and goes on to the next line? -/
def Line.isQuiet : Line → Bool
  | .instruction i => i.op.entry?.any (Mnemonic.isQuiet i.mode i.operand)
  | _ => false

/-- Does it do nothing but steer control? -/
def Line.isSteering : Line → Bool
  | .instruction i => i.steers
  | .label _ => true
  | _ => false

/-- Can control go on from the line, to the next one or to a label? -/
def Line.goesOn : Line → Bool
  | .instruction i => i.op.entry?.any Mnemonic.goesOn
  | .verbatim _ => false
  | _ => true

/-- Does control go on to the next line? -/
def Line.fallsThrough : Line → Bool
  | .instruction i => i.op.entry?.any Mnemonic.goesOn && !i.steers
  | .verbatim _ => false
  | _ => true

theorem Line.isQuiet_of_find? {m : Mnemonic} {mode : Mode} {operand : String} {i : Instruction}
    (found : Instruction.find? (.known m) mode operand = some i)
    (quiet : ∀ row, Cpu.Encoding.find? m mode = some row → m.isQuiet row.mode operand = true) :
    (Line.instruction i).isQuiet = true := by
  obtain ⟨row, listed, rfl⟩ := Option.map_eq_some_iff.mp found
  exact quiet row listed

theorem Line.goesTo_of_fallsThrough (falls : line.fallsThrough = true) (label : String) :
    line.goesTo label = false := by
  cases line with
  | instruction i =>
    have stays : i.steers = false := by simpa using (Bool.and_eq_true_iff.mp falls).2
    rw [goesTo, stays, Bool.false_and]
  | _ => rfl

theorem Line.fallsThrough_of_isQuiet (quiet : line.isQuiet = true) : line.fallsThrough = true := by
  cases line with
  | instruction i =>
    obtain ⟨m, entry, isQuiet⟩ := (Option.any_eq_true _ _).mp quiet
    rw [fallsThrough, Instruction.steers, entry, Option.any_some, Option.any_some]
    cases m <;> first | rfl | cases isQuiet
  | _ => cases quiet

theorem Line.goesOn_of_fallsThrough (falls : line.fallsThrough = true) : line.goesOn = true := by
  cases line with
  | instruction i => exact (Bool.and_eq_true_iff.mp falls).1
  | verbatim => cases falls
  | _ => rfl

theorem Line.goesOn_of_isSteering (steers : line.isSteering = true) : line.goesOn = true := by
  cases line with
  | instruction i =>
    obtain ⟨m, entry, isSteering⟩ := (Option.any_eq_true _ _).mp steers
    rw [goesOn, entry, Option.any_some]
    cases m <;> first | rfl | cases isSteering
  | label => rfl
  | _ => cases steers

theorem Line.flow_of_goesOn (goesOn : line.goesOn = true)
    (returns : ∀ name s, (w.call name s).isSome = true) (s : State) : line.flow w s ≠ .stop := by
  cases line with
  | instruction i =>
    obtain ⟨m, entry, onward⟩ := (Option.any_eq_true _ _).mp goesOn
    change i.flow w s ≠ _
    rw [Instruction.flow, entry]
    dsimp only
    intro stops
    by_cases branches : m.isBranch = true
    · rw [Instruction.flowAs_branch branches] at stops
      split at stops <;> cases stops
    · cases m with
      | jsr =>
        obtain ⟨t, back⟩ := Option.isSome_iff_exists.mp (returns i.operand s)
        rw [Instruction.flowAs, back] at stops
        cases stops
      | rts | rti | brk => cases onward
      | bcc | bcs | beq | bmi | bne | bpl | bvc | bvs => exact absurd rfl branches
      | _ => cases stops
  | verbatim => cases goesOn
  | _ => exact Flow.noConfusion

theorem Line.flow_of_isQuiet (quiet : line.isQuiet = true) (w : Surroundings) (s : State) :
    ∃ t, line.flow w s = .next t := by
  cases line with
  | instruction i =>
    obtain ⟨m, entry, isQuiet⟩ := (Option.any_eq_true _ _).mp quiet
    refine ⟨s.execute m (w.access i s), ?_⟩
    change i.flow w s = _
    rw [Instruction.flow, entry]
    cases m <;> first | rfl | cases isQuiet
  | _ => cases quiet

/-- Every item is sound, and control goes onward from it, to a mark below it or to a target. -/
structure Forward {α : Type} (sound : α → Prop) (goesTo : String → α → Bool) (mark : String → α)
    (targets : String → Prop) (items : List α) : Prop where
  sound : ∀ item ∈ items, sound item
  onward : ∀ before item after label, items = before ++ item :: after →
    goesTo label item = true → mark label ∈ after ∨ targets label

namespace Forward

variable {α : Type} {sound : α → Prop} {goesTo : String → α → Bool} {mark : String → α}
  {targets others : String → Prop} {items first second : List α} {item : α}

theorem nil : Forward sound goesTo mark targets [] :=
  ⟨List.forall_mem_nil _, fun _ _ _ _ split => by simp at split⟩

theorem mono (forward : Forward sound goesTo mark targets items)
    (more : ∀ label, targets label → others label) : Forward sound goesTo mark others items where
  sound := forward.sound
  onward before item after label split goes :=
    (forward.onward before item after label split goes).imp_right (more label)

/-- What the first items leave open may be marked by the second ones. -/
theorem append (high : Forward sound goesTo mark others first)
    (low : Forward sound goesTo mark targets second)
    (placed : ∀ label, others label → mark label ∈ second ∨ targets label) :
    Forward sound goesTo mark targets (first ++ second) where
  sound item inside := (List.mem_append.mp inside).elim (high.sound item) (low.sound item)
  onward := by
    intro before item after label split goes
    rcases cut_append split with ⟨between, -, below⟩ | ⟨between, rfl, rfl⟩
    · exact low.onward between item after label below goes
    · rw [List.mem_append]
      rcases high.onward before item between label rfl goes with inside | opens
      · exact .inl (.inl inside)
      · exact (placed label opens).imp_left .inr

theorem single (here : sound item) (leads : ∀ label, goesTo label item = true → targets label) :
    Forward sound goesTo mark targets [item] where
  sound other inside := List.mem_singleton.mp inside ▸ here
  onward := by
    intro before other after label split goes
    cases before with
    | nil =>
      obtain ⟨rfl, rfl⟩ := List.cons.inj split
      exact .inr (leads label goes)
    | cons head before => simp at split

theorem tail (forward : Forward sound goesTo mark targets (item :: items)) :
    Forward sound goesTo mark targets items where
  sound other inside := forward.sound other (List.mem_cons_of_mem _ inside)
  onward before other after label split goes :=
    forward.onward (item :: before) other after label (congrArg (item :: ·) split) goes

end Forward

/-- Control stays in the lines, and goes onward in them or to a target outside. -/
abbrev Onward : (String → Prop) → List Line → Prop :=
  Forward (·.goesOn = true) Line.goesTo .label

/-- Control moves onward, and leaves the lines only at their end. -/
abbrev Closed : List Line → Prop :=
  Onward fun _ => False

theorem Onward.of_falls {targets : String → Prop} {lines : List Line}
    (falls : ∀ line ∈ lines, line.fallsThrough = true) : Onward targets lines where
  sound line inside := Line.goesOn_of_fallsThrough (falls line inside)
  onward := by
    rintro before line after label rfl goes
    cases (Line.goesTo_of_fallsThrough (falls line (by simp)) label).symm.trans goes

theorem Onward.label {targets : String → Prop} (name : String) : Onward targets [.label name] :=
  .single rfl nofun

section Running

variable {all lines rest : List Line}

theorem Closed.leaves {above : List Line} (closed : Closed lines)
    (once : (labelNames (lines ++ rest)).Nodup) {p : Point} {t : State}
    (steps : Steps w (above ++ (lines ++ rest)) p ⟨[], t⟩) :
    ∀ inner, inner <:+ lines → p.rest = inner ++ rest →
      ∃ u, Steps w (above ++ (lines ++ rest)) p ⟨rest, u⟩ ∧
        Steps w (above ++ (lines ++ rest)) ⟨rest, u⟩ ⟨[], t⟩ := by
  generalize target : (⟨[], t⟩ : Point) = q at steps
  induction steps with
  | refl q =>
    rintro inner - ahead
    cases target
    obtain ⟨-, rfl⟩ := List.append_eq_nil_iff.mp ahead.symm
    exact ⟨t, .refl _, .refl _⟩
  | @head p q r first others ih =>
    rintro inner inside ahead
    obtain ⟨code, s⟩ := p
    dsimp only at ahead
    cases inner with
    | nil =>
      cases ahead
      cases target
      exact ⟨s, .refl _, .head first others⟩
    | cons line inner =>
      have ⟨before, split⟩ := inside
      have onward : ∀ next, next <:+ inner → q.rest = next ++ rest →
          ∃ u, Steps w (above ++ (lines ++ rest)) ⟨code, s⟩ ⟨rest, u⟩ ∧
            Steps w (above ++ (lines ++ rest)) ⟨rest, u⟩ r := by
        intro next below same
        have ends : next <:+ lines := by
          exact below.trans ((List.suffix_cons line inner).trans inside)
        obtain ⟨u, steps, after⟩ := ih target next ends same
        exact ⟨u, .head first steps, after⟩
      subst ahead target
      unfold Point.step? at first
      dsimp only [List.cons_append] at first
      cases flow : line.flow w s with
      | next t =>
        rw [flow] at first
        cases first
        exact onward inner (List.suffix_refl _) rfl
      | stop =>
        rw [flow] at first
        cases first
      | jump label =>
        rw [flow] at first
        have goes := Line.goesTo_of_flow flow
        have placed := mem_labelNames.mpr
          ((closed.onward before line inner label split.symm goes).resolve_right id)
        obtain ⟨found, lands⟩ := exists_fromLabel? placed
        have notBelow : label ∉ labelNames rest := by
          intro below
          rw [← split] at once
          simp only [labelNames_append] at once
          have apart := (List.nodup_append.mp once).2.2
          refine apart label ?_ label below rfl
          refine List.mem_append_right _ ?_
          cases line <;> first | exact placed | exact List.mem_cons_of_mem _ placed
        have same : fromLabel? label (above ++ (lines ++ rest)) =
            some (.label label :: found ++ rest) := by
          rw [← split, ← List.append_assoc, fromLabel?_append,
            fromLabel?_eq_none.mpr notBelow, List.append_cons, ← List.append_assoc,
            fromLabel?_append, lands]
          rfl
        dsimp only at first
        rw [same] at first
        cases first
        exact onward _ (fromLabel?_suffix lands) rfl

/-- Control that moves onward comes nearer to the end with every step. -/
theorem Closed.exists_step (closed : Closed all)
    (returns : ∀ name s, (w.call name s).isSome = true) {s : State}
    (ahead : line :: rest <:+ all) :
    ∃ q, (⟨line :: rest, s⟩ : Point).step? w all = some q ∧ q.rest <:+ all ∧
      q.rest.length ≤ rest.length := by
  have below : rest <:+ all := (List.suffix_cons line rest).trans ahead
  have goesOn := closed.sound line (ahead.subset List.mem_cons_self)
  cases flow : line.flow w s with
  | next t => exact ⟨_, Point.step?_of_next flow, below, Nat.le_refl _⟩
  | stop => exact absurd flow (Line.flow_of_goesOn goesOn returns s)
  | jump label =>
    obtain ⟨before, rfl⟩ := ahead
    have goes := Line.goesTo_of_flow flow
    have inside := (closed.onward before line rest label rfl goes).resolve_right id
    obtain ⟨found, lands⟩ := exists_fromLabel? (mem_labelNames.mpr inside)
    have same : fromLabel? label (before ++ line :: rest) = some (.label label :: found) := by
      rw [List.append_cons, fromLabel?_append, lands]
    have ends := fromLabel?_suffix lands
    exact ⟨_, Point.step?_of_jump flow same, ends.trans below, ends.length_le⟩

/-- A run through closed code ends if subroutines come back. -/
theorem Closed.exists_steps (closed : Closed all)
    (returns : ∀ name s, (w.call name s).isSome = true) (count : Nat) :
    ∀ p : Point, p.rest.length ≤ count → p.rest <:+ all → ∃ t, Steps w all p ⟨[], t⟩ := by
  induction count with
  | zero =>
    rintro ⟨rest, s⟩ short -
    cases List.length_eq_zero_iff.mp (Nat.le_zero.mp short)
    exact ⟨s, .refl _⟩
  | succ count ih =>
    rintro ⟨rest, s⟩ short ahead
    cases rest with
    | nil => exact ⟨s, .refl _⟩
    | cons line rest =>
      obtain ⟨q, step, onward, nearer⟩ := closed.exists_step returns ahead
      obtain ⟨t, steps⟩ := ih q (nearer.trans (Nat.le_of_succ_le_succ short)) onward
      exact ⟨t, .head step steps⟩

end Running

end Code

namespace Lowering

open Code (Line Instruction Surroundings Steps Point Forward Onward Closed labelNames)
open Source (Expr)
open Symbols (Function)

variable {scope : Scope} {above rest : List Line} {t : State}

/-- What an expression does besides having a value. -/
inductive Deed where
  | call (name : String)
  /-- A byte of a target is written: of a word the low or the high one. -/
  | write (target : Expr) (high : Bool)
  /-- One is added to a target or subtracted from it. -/
  | step (target : Expr) (increments : Bool)

/-- The lines that do a deed once. -/
inductive Block (scope : Scope) : Deed → List Line → Prop where
  | call {name label : String} {f : Function} {c d : Context} {i : Instruction}
      (known : scope.symbols.getFunction? name = some f)
      (leads : callTarget f scope c = .ok label d)
      (calls : Instruction.find? (.known .jsr) .absolute label = some i) :
      Block scope (.call name) [.instruction i]
  | store {e : Expr} {place value : Place} {b a c d : Context} {u : Unit} {lines : List Line}
      (placed : target e scope b = .ok place a) (pass : b.high = c.high)
      (stores : store place value scope c = .ok u d) (added : d.code = c.code ++ lines) :
      Block scope (.write e c.high) lines
  | shift {e : Expr} {place : Place} {b a c d : Context} {u : Unit} {lines : List Line}
      {m : Mnemonic} {count : Nat} (isShift : m = .asl ∨ m = .lsr)
      (placed : target e scope b = .ok place a)
      (shifts : emitTimes m place count scope c = .ok u d) (added : d.code = c.code ++ lines) :
      Block scope (.write e false) lines
  | strobe {e : Expr} {c d : Context} {u : Unit} {lines : List Line}
      (strobes : strobe e scope c = .ok u d) (added : d.code = c.code ++ lines) :
      Block scope (.write e false) lines
  | step {e : Expr} {increments : Bool} {c d : Context} {u : Unit} {lines : List Line}
      (steps : step e increments scope c = .ok u d) (added : d.code = c.code ++ lines) :
      Block scope (.step e increments) lines

/-- A part of code: a line that does no deed, or the block of one. -/
inductive Part where
  | line (line : Line)
  | block (deed : Deed) (lines : List Line)

namespace Part

def lines : Part → List Line
  | .line l => [l]
  | .block _ lines => lines

def deeds : Part → Multiset Deed
  | .line _ => 0
  | .block deed _ => {deed}

def goesTo (label : String) : Part → Bool
  | .line l => l.goesTo label
  | .block _ _ => false

def IsSound (scope : Scope) : Part → Prop
  | .line l => (l.isQuiet || l.isSteering) = true
  | .block deed lines => Block scope deed lines ∧ Closed lines

end Part

def linesOf (parts : List Part) : List Line :=
  parts.flatMap Part.lines

def deedsIn : List Part → Multiset Deed
  | [] => 0
  | part :: rest => part.deeds + deedsIn rest

/-- The parts are sound, and control goes onward from part to part, or to a target outside. -/
abbrev Laid (scope : Scope) : (String → Prop) → List Part → Prop :=
  Forward (Part.IsSound scope) Part.goesTo fun label => .line (.label label)

/--
The lines are quiet lines, blocks for deeds that are sure, and stretches through which control may
take several ways, with blocks for deeds that are not.
-/
inductive Shows (scope : Scope) : List Line → Multiset Deed → Multiset Deed → Prop where
  | nil : Shows scope [] 0 0
  | quiet {line : Line} {rest : List Line} {sure unsure : Multiset Deed}
      (quiet : line.isQuiet = true) (others : Shows scope rest sure unsure) :
      Shows scope (line :: rest) sure unsure
  | block {deed : Deed} {lines rest : List Line} {sure unsure : Multiset Deed}
      (block : Block scope deed lines) (closed : Closed lines)
      (others : Shows scope rest sure unsure) :
      Shows scope (lines ++ rest) (deed ::ₘ sure) unsure
  | stretch {parts : List Part} {rest : List Line} {sure unsure : Multiset Deed}
      (laid : Laid scope (fun _ => False) parts) (others : Shows scope rest sure unsure) :
      Shows scope (linesOf parts ++ rest) sure (deedsIn parts + unsure)

/-- A run that does these deeds, one after the other. -/
inductive Accomplishes (w : Surroundings) (scope : Scope) (all : List Line) :
    Point → Multiset Deed → Point → Prop where
  | refl (p : Point) : Accomplishes w scope all p 0 p
  | line {line : Line} {rest : List Line} {s : State} {q r : Point} {deeds : Multiset Deed}
      (still : (line.isQuiet || line.isSteering) = true)
      (step : (⟨line :: rest, s⟩ : Point).step? w all = some q)
      (others : Accomplishes w scope all q deeds r) :
      Accomplishes w scope all ⟨line :: rest, s⟩ deeds r
  | block {deed : Deed} {lines rest : List Line} {s t : State} {r : Point} {deeds : Multiset Deed}
      (block : Block scope deed lines) (steps : Steps w all ⟨lines ++ rest, s⟩ ⟨rest, t⟩)
      (others : Accomplishes w scope all ⟨rest, t⟩ deeds r) :
      Accomplishes w scope all ⟨lines ++ rest, s⟩ (deed ::ₘ deeds) r

variable {parts : List Part}

section Parts

variable {targets others : String → Prop} {first second : List Part}

@[simp] theorem linesOf_append : linesOf (first ++ second) = linesOf first ++ linesOf second :=
  List.flatMap_append

theorem deedsIn_append : deedsIn (first ++ second) = deedsIn first + deedsIn second := by
  induction first with
  | nil => exact (zero_add _).symm
  | cons part rest ih =>
    change part.deeds + deedsIn (rest ++ second) = _
    rw [ih, ← add_assoc]
    rfl

theorem deedsIn_le_of_suffix (ends : second <:+ parts) : deedsIn second ≤ deedsIn parts := by
  obtain ⟨before, rfl⟩ := ends
  rw [deedsIn_append]
  exact Multiset.le_add_left _ _

theorem Laid.lines (laid : Laid scope targets parts) : Onward targets (linesOf parts) := by
  induction parts with
  | nil => exact .nil
  | cons part rest ih =>
    have sound := laid.sound part List.mem_cons_self
    have first : Onward (fun label => .label label ∈ linesOf rest ∨ targets label)
        part.lines := by
      cases part with
      | line line =>
        refine .single ?_ fun label goes => ?_
        · rcases Bool.or_eq_true_iff.mp sound with quiet | steers
          · exact Line.goesOn_of_fallsThrough (Line.fallsThrough_of_isQuiet quiet)
          · exact Line.goesOn_of_isSteering steers
        · exact (laid.onward [] _ rest label rfl goes).imp_left fun placed =>
            List.mem_flatMap.mpr ⟨_, placed, List.mem_cons_self⟩
      | block deed lines => exact sound.2.mono fun _ => False.elim
    exact first.append (ih laid.tail) fun _ => id

end Parts

variable {sure unsure : Multiset Deed}

section Composing

variable {first second : List Line} {alsoSure alsoUnsure : Multiset Deed}

theorem Shows.append (before : Shows scope first sure unsure)
    (after : Shows scope second alsoSure alsoUnsure) :
    Shows scope (first ++ second) (sure + alsoSure) (unsure + alsoUnsure) := by
  induction before with
  | nil =>
    rw [zero_add, zero_add]
    exact after
  | quiet quiet _ ih => exact .quiet quiet ih
  | block block closed _ ih =>
    rw [List.append_assoc, Multiset.cons_add]
    exact .block block closed ih
  | stretch laid _ ih =>
    rw [List.append_assoc, add_assoc]
    exact .stretch laid ih

theorem Shows.of_quiet (quiet : ∀ line ∈ first, line.isQuiet = true) : Shows scope first 0 0 := by
  induction first with
  | nil => exact .nil
  | cons line rest ih =>
    obtain ⟨here, others⟩ := List.forall_mem_cons.mp quiet
    exact .quiet here (ih others)

theorem Shows.of_block {deed : Deed} (block : Block scope deed first) (closed : Closed first) :
    Shows scope first {deed} 0 := by
  have shows := Shows.block block closed .nil
  rwa [List.append_nil] at shows

theorem Shows.of_stretch (laid : Laid scope (fun _ => False) parts) :
    Shows scope (linesOf parts) 0 (deedsIn parts) := by
  have shows := Shows.stretch laid .nil
  rwa [List.append_nil, add_zero] at shows

theorem Shows.exists_laid (shows : Shows scope first sure unsure) :
    ∃ parts, linesOf parts = first ∧ deedsIn parts = sure + unsure ∧
      Laid scope (fun _ => False) parts := by
  induction shows with
  | nil => exact ⟨[], rfl, (add_zero 0).symm, .nil⟩
  | @quiet line rest _ _ quiet _ ih =>
    obtain ⟨parts, rfl, same, laid⟩ := ih
    have still : Laid scope (fun _ => False) [.line line] := by
      refine .single (Bool.or_eq_true_iff.mpr (.inl quiet)) fun label goes => ?_
      have falls := Line.fallsThrough_of_isQuiet quiet
      cases (Line.goesTo_of_fallsThrough falls label).symm.trans goes
    exact ⟨.line line :: parts, rfl, (zero_add _).trans same, still.append laid fun _ => False.elim⟩
  | @block deed lines rest _ _ block closed _ ih =>
    obtain ⟨parts, rfl, same, laid⟩ := ih
    have alone : Laid scope (fun _ => False) [.block deed lines] :=
      .single ⟨block, closed⟩ fun _ goes => by cases goes
    refine ⟨.block deed lines :: parts, rfl, ?_, alone.append laid fun _ => False.elim⟩
    rw [Multiset.cons_add, ← same]
    rfl
  | @stretch parts rest _ _ laid _ ih =>
    obtain ⟨more, rfl, same, laid'⟩ := ih
    refine ⟨parts ++ more, linesOf_append, ?_, laid.append laid' fun _ => False.elim⟩
    rw [deedsIn_append, same, add_left_comm]

end Composing

section Running

variable {w : Surroundings} {all : List Line}

theorem Accomplishes.trans {p q r : Point} {deeds more : Multiset Deed}
    (first : Accomplishes w scope all p deeds q) (second : Accomplishes w scope all q more r) :
    Accomplishes w scope all p (deeds + more) r := by
  induction first with
  | refl =>
    rw [zero_add]
    exact second
  | line still step _ ih => exact .line still step (ih second)
  | block block steps _ ih =>
    rw [Multiset.cons_add]
    exact .block block steps (ih second)

theorem fromLabel?_of_part {before high low : List Part} {part : Part} {label : String}
    (same : all = above ++ (linesOf parts ++ rest))
    (once : (labelNames (linesOf parts ++ rest)).Nodup)
    (split : parts = before ++ part :: (high ++ .line (.label label) :: low)) :
    Code.fromLabel? label all = some (.label label :: (linesOf low ++ rest)) := by
  have apart : linesOf parts ++ rest = linesOf (before ++ part :: high) ++
      .label label :: (linesOf low ++ rest) := by
    rw [split]
    simp [linesOf, Part.lines]
  rw [apart] at once
  rw [same, apart, ← List.append_assoc]
  refine Code.fromLabel?_of_last label _ _ fun again => ?_
  rw [Code.labelNames_append, Code.labelNames_label] at once
  exact (List.nodup_cons.mp (List.nodup_append.mp once).2.1).1 again

/-- A run through a stretch does some of its deeds, each of them at most once. -/
theorem Laid.passes (laid : Laid scope (fun _ => False) parts)
    (same : all = above ++ (linesOf parts ++ rest))
    (once : (labelNames (linesOf parts ++ rest)).Nodup) (count : Nat) :
    ∀ inner, inner.length ≤ count → inner <:+ parts → ∀ s,
      Steps w all ⟨linesOf inner ++ rest, s⟩ ⟨[], t⟩ → ∃ u done, done ≤ deedsIn inner ∧
        Accomplishes w scope all ⟨linesOf inner ++ rest, s⟩ done ⟨rest, u⟩ ∧
          Steps w all ⟨rest, u⟩ ⟨[], t⟩ := by
  induction count with
  | zero =>
    rintro inner short - s steps
    cases List.length_eq_zero_iff.mp (Nat.le_zero.mp short)
    exact ⟨s, 0, Multiset.zero_le _, .refl _, steps⟩
  | succ count ih =>
    rintro inner short ends s steps
    cases inner with
    | nil => exact ⟨s, 0, Multiset.zero_le _, .refl _, steps⟩
    | cons part inner =>
      have below : inner <:+ parts := (List.suffix_cons part inner).trans ends
      have shorter : inner.length ≤ count := Nat.le_of_succ_le_succ short
      have sound := laid.sound part (ends.subset List.mem_cons_self)
      obtain ⟨before, split⟩ := ends
      cases part with
      | line line =>
        have onward {inner' : List Part} {s' : State} (ends : inner' <:+ inner)
            (step : (⟨line :: (linesOf inner ++ rest), s⟩ : Point).step? w all =
              some ⟨linesOf inner' ++ rest, s'⟩)
            (others : Steps w all ⟨linesOf inner' ++ rest, s'⟩ ⟨[], t⟩) :
            ∃ u done, done ≤ deedsIn (.line line :: inner) ∧
              Accomplishes w scope all ⟨linesOf (.line line :: inner) ++ rest, s⟩ done
                ⟨rest, u⟩ ∧ Steps w all ⟨rest, u⟩ ⟨[], t⟩ := by
          obtain ⟨u, done, bound, run, leaves⟩ :=
            ih inner' (ends.length_le.trans shorter) (ends.trans below) s' others
          refine ⟨u, done, bound.trans ?_, .line sound step run, leaves⟩
          exact deedsIn_le_of_suffix (ends.trans (List.suffix_cons _ _))
        cases steps with
        | head first others =>
          have step : (⟨line :: (linesOf inner ++ rest), s⟩ : Point).step? w all = some _ :=
            first
          cases flow : line.flow w s with
          | next s' =>
            cases step.symm.trans (Point.step?_of_next flow)
            exact onward (List.suffix_refl _) step others
          | stop =>
            unfold Point.step? at step
            dsimp only at step
            rw [flow] at step
            cases step
          | jump label =>
            have goes := Line.goesTo_of_flow flow
            have placed :=
              (laid.onward before _ inner label split.symm goes).resolve_right id
            obtain ⟨high, low, rfl⟩ := List.append_of_mem placed
            have lands := fromLabel?_of_part same once split.symm
            cases step.symm.trans (Point.step?_of_jump flow lands)
            exact onward (List.suffix_append _ _) step others
      | block deed lines =>
        obtain ⟨block, closed⟩ := sound
        have apart : linesOf parts ++ rest =
            linesOf before ++ (lines ++ (linesOf inner ++ rest)) := by
          rw [← split]
          simp [linesOf, Part.lines]
        rw [apart] at same once
        rw [Code.labelNames_append] at once
        rw [← List.append_assoc] at same
        subst same
        have first : linesOf (.block deed lines :: inner) ++ rest =
            lines ++ (linesOf inner ++ rest) :=
          List.append_assoc _ _ _
        rw [first] at steps ⊢
        obtain ⟨u, through, others⟩ := closed.leaves (List.nodup_append.mp once).2.1 steps lines
          (List.suffix_refl _) rfl
        obtain ⟨u', done, bound, run, leaves⟩ := ih inner shorter below u others
        exact ⟨u', deed ::ₘ done, Multiset.cons_le_cons deed bound, .block block through run,
          leaves⟩

/-- A run through the lines does the sure deeds, and of the other ones each at most once. -/
theorem Shows.accomplishes {lines : List Line}
    (shows : Shows scope lines sure unsure)
    (once : (labelNames lines).Nodup) {s : State}
    (steps : Steps w (above ++ lines) ⟨lines, s⟩ ⟨[], t⟩) :
    ∃ done, Accomplishes w scope (above ++ lines) ⟨lines, s⟩ done ⟨[], t⟩ ∧ sure ≤ done ∧
      done ≤ sure + unsure := by
  induction shows generalizing above s with
  | nil =>
    cases steps with
    | refl => exact ⟨0, .refl _, le_refl _, le_refl _⟩
    | head first => cases first
  | @quiet line rest _ _ quiet _ ih =>
    obtain ⟨t', flow⟩ := Line.flow_of_isQuiet quiet w s
    cases steps with
    | head first others =>
      have step : (⟨line :: rest, s⟩ : Point).step? w (above ++ line :: rest) =
          some ⟨rest, t'⟩ :=
        Point.step?_of_next flow
      cases first.symm.trans step
      have below : (labelNames rest).Nodup :=
        once.sublist ((List.sublist_cons_self line rest).filterMap _)
      rw [List.append_cons] at others step ⊢
      obtain ⟨done, run, least, most⟩ := ih below others
      exact ⟨done, .line (Bool.or_eq_true_iff.mpr (.inl quiet)) step run, least, most⟩
  | block block closed _ ih =>
    obtain ⟨u, through, others⟩ := closed.leaves once steps _ (List.suffix_refl _) rfl
    rw [Code.labelNames_append] at once
    rw [← List.append_assoc] at through others ⊢
    obtain ⟨done, run, least, most⟩ := ih (List.nodup_append.mp once).2.1 others
    refine ⟨_, .block block through run, Multiset.cons_le_cons _ least, ?_⟩
    rw [Multiset.cons_add]
    exact Multiset.cons_le_cons _ most
  | stretch laid _ ih =>
    obtain ⟨u, done, bound, through, others⟩ :=
      laid.passes rfl once _ _ (Nat.le_refl _) (List.suffix_refl _) s steps
    rw [Code.labelNames_append] at once
    rw [← List.append_assoc] at through others ⊢
    obtain ⟨more, run, least, most⟩ := ih (List.nodup_append.mp once).2.1 others
    refine ⟨_, through.trans run, least.trans (Multiset.le_add_left _ _), ?_⟩
    rw [add_left_comm]
    exact add_le_add bound most

end Running

end Lowering

end Backend6502

namespace Backend6502.Lowering

open Code (Line Instruction)
open Cpu (Mnemonic Mode)
open Symbols (Function)

/-- The lines that the step adds have the property. The pass and what was put off stay. -/
def Adds {α : Type} (P : Line → Prop) (m : Gen α) : Prop :=
  ∀ scope c a d, m scope c = .ok a d → d.high = c.high ∧ d.deferred = c.deferred ∧
    ∃ lines, d.code = c.code ++ lines ∧ ∀ line ∈ lines, P line

namespace Adds

variable {α β : Type} {P : Line → Prop}
variable {m : Mnemonic} {f : α → Gen β} {place : Place}

theorem of_code {m : Gen α} (same : ∀ scope c a d, m scope c = .ok a d →
    d.high = c.high ∧ d.deferred = c.deferred ∧ d.code = c.code) : Adds P m := by
  intro scope c a d ok
  obtain ⟨high, deferred, code⟩ := same scope c a d ok
  exact ⟨high, deferred, [], by rw [code, List.append_nil], List.forall_mem_nil _⟩

theorem of_same {m : Gen α} (same : ∀ scope c, ∃ a, m scope c = .ok a c) : Adds P m := by
  refine of_code fun scope c b d ok => ?_
  obtain ⟨a, reads⟩ := same scope c
  cases reads.symm.trans ok
  exact ⟨rfl, rfl, rfl⟩

theorem pure (a : α) : Adds P (Pure.pure a) :=
  of_same fun _ _ => ⟨a, rfl⟩

theorem fail (cause : Cause) : Adds P (fail cause : Gen α) := by
  intro scope c a d ok
  cases ok

theorem throw (failure : Failure) : Adds P (throw failure : Gen α) := by
  intro scope c a d ok
  cases ok

theorem bind_of {Q : α → Prop} {m : Gen α} (yields : Yields Q m) (first : Adds P m)
    (second : ∀ a, Q a → Adds P (f a)) : Adds P (m >>= f) := by
  intro scope c b e ok
  obtain ⟨a, d, begins, ends⟩ := bind_inv ok
  obtain ⟨high, deferred, lines, code, holds⟩ := first scope c a d begins
  obtain ⟨high', deferred', more, code', holds'⟩ :=
    second a (yields scope c a d begins) scope d b e ends
  refine ⟨high'.trans high, deferred'.trans deferred, lines ++ more, ?_, fun line inside => ?_⟩
  · rw [code', code, List.append_assoc]
  · rcases List.mem_append.mp inside with up | down
    · exact holds line up
    · exact holds' line down

theorem bind {m : Gen α} (first : Adds P m) (second : ∀ a, Adds P (f a)) : Adds P (m >>= f) :=
  .bind_of (fun _ _ _ _ _ => trivial) first fun a (_ : True) => second a

theorem seq {m : Gen α} {n : Gen β} (first : Adds P m) (second : Adds P n) :
    Adds P (m >>= fun _ => n) :=
  .bind first fun _ => second

theorem ite {p : Prop} [Decidable p] {m n : Gen α} (yes : Adds P m) (no : Adds P n) :
    Adds P (if p then m else n) :=
  iteInduction (fun _ => yes) fun _ => no

theorem get : Adds P (get : Gen Context) :=
  of_same fun _ c => ⟨c, rfl⟩

theorem read : Adds P (read : Gen Scope) :=
  of_same fun scope _ => ⟨scope, rfl⟩

theorem modify {f : Context → Context} (high : ∀ c, (f c).high = c.high)
    (deferred : ∀ c, (f c).deferred = c.deferred) (code : ∀ c, (f c).code = c.code) :
    Adds P (modify f : Gen Unit) := by
  refine of_code fun scope c a d ok => ?_
  cases ok
  exact ⟨high c, deferred c, code c⟩

theorem symbols : Adds P symbols := .bind .read fun _ => .pure _

theorem inHigh : Adds P inHigh := .bind .get fun _ => .pure _

theorem accInUse : Adds P accInUse := .bind .get fun _ => .pure _

theorem setScratchInUse (inUse : Bool) : Adds P (setScratchInUse inUse) :=
  .modify (fun _ => rfl) (fun _ => rfl) fun _ => rfl

theorem track (m : Mnemonic) (place : Place) : Adds P (track m place) :=
  .modify (fun _ => rfl) (fun _ => rfl) fun _ => rfl

theorem nextIf : Adds P nextIf :=
  .seq (.modify (fun _ => rfl) (fun _ => rfl) fun _ => rfl) <| .bind .get fun _ => .pure _

theorem withHigh {step : Gen α} (high : Bool) (adds : Adds P step) :
    Adds P (withHigh high step) := by
  intro scope c a _ ok
  obtain ⟨d, steps, rfl⟩ := withHigh_eq_ok ok
  obtain ⟨-, deferred, lines, code, holds⟩ := adds scope _ a d steps
  exact ⟨rfl, deferred, lines, code, holds⟩

theorem addLines {lines : List Line} (holds : ∀ line ∈ lines, P line) :
    Adds P (addLines lines) := by
  intro scope c a d ok
  cases ok
  exact ⟨rfl, rfl, lines, rfl, holds⟩

theorem addTimes {mode : Mode} {operand : String} (count : Nat)
    (holds : ∀ i, Instruction.find? (.known m) mode operand = some i → P (.instruction i)) :
    Adds P (addTimes count m mode operand) := by
  unfold Lowering.addTimes
  split
  · next i found =>
    refine .addLines fun line inside => ?_
    rw [List.eq_of_mem_replicate inside]
    exact holds i found
  · exact .throw _

theorem emitByte {b : UInt8}
    (holds : ∀ i, Instruction.find? (.known m) .immediate (byteOperand b) = some i →
      P (.instruction i)) : Adds P (emitByte m b) :=
  .seq (.addTimes 1 holds) (.track _ _)

theorem emitImplied
    (holds : ∀ i, Instruction.find? (.known m) .implied "" = some i → P (.instruction i)) :
    Adds P (emitImplied m) :=
  .seq (.addTimes 1 holds) (.track _ _)

theorem emit
    (holds : ∀ table high mode operand i, place.operand? table high = some (mode, operand) →
      Instruction.find? (.known m) mode operand = some i → P (.instruction i)) :
    Adds P (emit m place) := by
  refine .bind .symbols fun table => .bind .inHigh fun high => ?_
  split
  · exact .fail _
  · next mode operand addressed =>
    split
    · exact .fail _
    · next i found =>
      refine .seq (.addLines fun line inside => ?_) <| .ite ?_ (.track _ _)
      · rw [List.mem_singleton.mp inside]
        exact holds table high mode operand i addressed found
      · exact .seq (.setScratchInUse _) (.track _ _)

theorem emitTimes (count : Nat)
    (holds : ∀ table high mode operand i, place.operand? table high = some (mode, operand) →
      Instruction.find? (.known m) mode operand = some i → P (.instruction i)) :
    Adds P (emitTimes m place count) := by
  induction count with
  | zero => exact .pure ()
  | succ count ih => exact .seq (.emit holds) ih

theorem keepingA {step : Gen Unit}
    (push : ∀ i, Instruction.find? (.known .pha) .implied "" = some i → P (.instruction i))
    (pull : ∀ i, Instruction.find? (.known .pla) .implied "" = some i → P (.instruction i))
    (adds : Adds P step) : Adds P (keepingA step) := by
  have finish (needed : Bool) : Adds P (if needed = true then Lowering.emitImplied .pla else
      Pure.pure ()) :=
    .ite (.emitImplied pull) (.pure ())
  refine .bind .accInUse fun needed => .ite ?_ ?_
  · exact .seq (.emitImplied push) <| .bind adds fun _ => finish needed
  · exact .bind adds fun _ => finish needed

end Adds

abbrev Quiet {α : Type} (m : Gen α) : Prop :=
  Adds (fun line => line.isQuiet = true) m

/-- Is an instruction quiet in every mode? -/
def isMild : Mnemonic → Bool
  | .lda | .adc | .sbc | .and | .ora | .eor | .cmp | .cpx | .cpy | .bit | .clc | .sec | .pha | .pla
  | .txa | .tya | .nop => true
  | _ => false

theorem isQuiet_of_isMild {m : Mnemonic} {mode : Mode} {operand : String} {i : Instruction}
    (mild : isMild m = true) (found : Instruction.find? (.known m) mode operand = some i) :
    (Line.instruction i).isQuiet = true := by
  refine Line.isQuiet_of_find? found fun row _ => ?_
  cases m <;> first | rfl | cases mild

theorem mode_of_narrow {m : Mnemonic} {mode : Mode} {row : Cpu.Encoding}
    (narrow : mode.wide? = none) (found : Cpu.Encoding.find? m mode = some row) :
    row.mode = mode := by
  unfold Cpu.Encoding.find? at found
  split at found
  · next inMode =>
    cases found
    exact (Cpu.Encoding.inMode?_eq_some inMode).2
  · rw [narrow] at found
    cases found

namespace Adds

variable {m : Mnemonic}

theorem mild (mild : isMild m = true) (place : Place) : Quiet (Lowering.emit m place) :=
  Adds.emit fun _ _ _ _ _ _ found => isQuiet_of_isMild mild found

theorem mildByte (mild : isMild m = true) (b : UInt8) : Quiet (Lowering.emitByte m b) :=
  Adds.emitByte fun _ found => isQuiet_of_isMild mild found

theorem mildImplied (mild : isMild m = true) : Quiet (Lowering.emitImplied m) :=
  Adds.emitImplied fun _ found => isQuiet_of_isMild mild found

/-- Y is loaded with a byte before what a pointer points to is read or written. -/
theorem loadIndex (b : UInt8) : Quiet (Lowering.emitByte .ldy b) := by
  refine Adds.emitByte fun i found => Line.isQuiet_of_find? found fun row listed => ?_
  rw [mode_of_narrow rfl listed]
  rfl

theorem storeScratch (stores : isStore m = true) (signed : Bool) :
    Quiet (Lowering.emit m (.scratch signed)) := by
  refine Adds.emit fun table high mode operand i addressed found => ?_
  cases addressed
  refine Line.isQuiet_of_find? found fun row _ => ?_
  cases m <;> first | rfl | cases stores

theorem shiftAccumulator (shifts : m = .asl ∨ m = .lsr ∨ m = .ror) (signed : Bool) :
    Quiet (Lowering.emit m (.accumulator signed)) := by
  refine Adds.emit fun table high mode operand i addressed found => ?_
  cases addressed
  refine Line.isQuiet_of_find? found fun row listed => ?_
  rw [mode_of_narrow rfl listed]
  rcases shifts with rfl | rfl | rfl <;> rfl

theorem callTarget (f : Function) : Quiet (callTarget f) := by
  refine .bind .read fun _ => .ite (.pure _) <| .ite ?_ (.fail _)
  exact .seq (.modify (fun _ => rfl) (fun _ => rfl) fun _ => rfl) (.pure _)

end Adds

end Backend6502.Lowering
