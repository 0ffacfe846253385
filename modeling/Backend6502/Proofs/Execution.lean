import Backend6502.Code.Reach
import Backend6502.Cpu.Execute

/-!
# Execution of streams

How the lines of a stream run before they have addresses. Control is a list of the lines that are
still ahead, a branch or a jump goes on from the label that it names, and every other instruction
does what the processor does. What a stream cannot know lies in its `Surroundings`: the addresses of
names, and the effect of assembler text and of calls.
-/

namespace Backend6502.Cpu

theorem sub_beq_zero (a b : UInt8) : (a - b == 0) = (a == b) := by
  rw [Bool.eq_iff_iff, beq_iff_eq, beq_iff_eq, UInt8.sub_eq_iff_eq_add, UInt8.zero_add]

end Backend6502.Cpu

namespace Backend6502.Cpu.State

def takes (s : State) : Mnemonic → Bool
  | .bcc => !s.carry
  | .bcs => s.carry
  | .beq => s.zero
  | .bne => !s.zero
  | .bmi => s.negative
  | .bpl => !s.negative
  | .bvc => !s.overflow
  | .bvs => s.overflow
  | _ => false

end Backend6502.Cpu.State

namespace Backend6502.Code

open Cpu (Mnemonic State Access)

variable {lines : List Line}
variable {name : String} {found : List Line}

/-- What lies outside of a stream while it runs. -/
structure Surroundings where
  address : String → UInt16
  /-- What assembler text does; none if control does not come back. -/
  verbatim : String → State → Option State
  /-- What a called subroutine does; none if control does not come back. -/
  call : String → State → Option State

namespace Surroundings

/-- The two bytes after the opcode of an instruction, as a word. -/
def operandWord (w : Surroundings) (i : Instruction) : UInt16 :=
  match i.immediate? with
  | some b => b.toUInt16
  | none => w.address i.operand

def access (w : Surroundings) (i : Instruction) (s : State) : Access :=
  s.access i.mode (w.operandWord i).toUInt8 (w.operandWord i >>> 8).toUInt8

end Surroundings

/-- Where control goes after a line. -/
inductive Flow where
  | next (s : State)
  | jump (label : String)
  /-- Out of the stream, and not by a label. -/
  | stop

namespace Instruction

variable {s : State} {i : Instruction} {m : Mnemonic}

/-- Is it a conditional branch, in whatever spelling? -/
def isConditional (i : Instruction) : Bool :=
  i.op.entry?.any Mnemonic.isBranch

/-- Does the instruction do nothing but choose where control goes? -/
def steers (i : Instruction) : Bool :=
  i.op.entry?.any fun m => m == .jmp || m.isBranch

/-- Where control goes after an instruction with a mnemonic of the table. -/
def flowAs (w : Surroundings) (s : State) (i : Instruction) : Mnemonic → Flow
  | .jmp => .jump i.operand
  | .jsr =>
    match w.call i.operand s with
    | some s => .next s
    | none => .stop
  | .rts | .rti | .brk => .stop
  | m =>
    if m.isBranch then
      if s.takes m then .jump i.operand else .next s
    else .next (s.execute m (w.access i s))

def flow (w : Surroundings) (s : State) (i : Instruction) : Flow :=
  match i.op.entry? with
  | some m => i.flowAs w s m
  | none => .stop

variable {w : Surroundings}

theorem flow_known (op : i.op = .known m) : i.flow w s = i.flowAs w s m := by
  rw [flow, op]
  rfl

theorem flowAs_branch (branches : m.isBranch = true) :
    i.flowAs w s m = if s.takes m then .jump i.operand else .next s := by
  cases m <;> first | rfl | cases branches

theorem steers_of_flowAs {label : String} (jumps : i.flowAs w s m = .jump label) :
    (m == .jmp || m.isBranch) = true ∧ i.operand = label := by
  by_cases branches : m.isBranch = true
  · rw [flowAs_branch branches] at jumps
    split at jumps
    · cases jumps
      exact ⟨by rw [branches, Bool.or_true], rfl⟩
    · cases jumps
  · cases m with
    | jmp =>
      cases jumps
      exact ⟨rfl, rfl⟩
    | jsr =>
      simp only [flowAs] at jumps
      cases called : w.call i.operand s <;> simp [called] at jumps
    | bcc | bcs | beq | bmi | bne | bpl | bvc | bvs => exact absurd rfl branches
    | _ => cases jumps

end Instruction

namespace Line

def flow (w : Surroundings) (s : State) : Line → Flow
  | .instruction i => i.flow w s
  | .verbatim text =>
    match w.verbatim text s with
    | some s => .next s
    | none => .stop
  | .label _ | .comment _ | .removed => .next s

section Branches

variable {w : Surroundings} {s : State} {i : Instruction} {m : Mnemonic} (op : i.op = .known m)
  (branches : m.isBranch = true)

include op branches

theorem flow_taken (takes : s.takes m = true) : (instruction i).flow w s = .jump i.operand := by
  change i.flow w s = _
  rw [Instruction.flow_known op, Instruction.flowAs_branch branches, if_pos takes]

theorem flow_passed (passes : s.takes m = false) : (instruction i).flow w s = .next s := by
  change i.flow w s = _
  rw [Instruction.flow_known op, Instruction.flowAs_branch branches, passes,
    if_neg Bool.false_ne_true]

end Branches

/-- Does the line name this label as a place to go to? -/
def goesTo (label : String) : Line → Bool
  | .instruction i => i.steers && i.operand == label
  | _ => false

theorem goesTo_of_flow {w : Surroundings} {s : State} {line : Line} {label : String}
    (jumps : line.flow w s = .jump label) : line.goesTo label = true := by
  cases line with
  | instruction i =>
    change i.flow w s = .jump label at jumps
    unfold Instruction.flow at jumps
    cases entry : i.op.entry? with
    | none =>
      rw [entry] at jumps
      cases jumps
    | some m =>
      rw [entry] at jumps
      obtain ⟨steers, same⟩ := Instruction.steers_of_flowAs jumps
      rw [goesTo, Instruction.steers, entry, same, Option.any_some, steers]
      exact beq_self_eq_true label
  | verbatim text =>
    rw [flow] at jumps
    cases effect : w.verbatim text s with
    | none =>
      rw [effect] at jumps
      cases jumps
    | some after =>
      rw [effect] at jumps
      cases jumps
  | label name | comment text | removed => cases jumps

end Line

def labelNames (lines : List Line) : List String :=
  lines.filterMap Line.label?

@[simp] theorem labelNames_nil : labelNames [] = [] := rfl

@[simp] theorem labelNames_label (name : String) (rest : List Line) :
    labelNames (.label name :: rest) = name :: labelNames rest := rfl

@[simp] theorem labelNames_instruction (i : Instruction) (rest : List Line) :
    labelNames (.instruction i :: rest) = labelNames rest := rfl

@[simp] theorem labelNames_append (first second : List Line) :
    labelNames (first ++ second) = labelNames first ++ labelNames second :=
  List.filterMap_append

/-- The lines from a label on; of two lines with one label the later one counts. -/
def fromLabel? (name : String) : List Line → Option (List Line)
  | [] => none
  | line :: rest =>
    match fromLabel? name rest with
    | some found => some found
    | none => if line.isLabel name then some (line :: rest) else none

theorem fromLabel?_append (name : String) (first second : List Line) :
    fromLabel? name (first ++ second) =
      match fromLabel? name second with
      | some found => some found
      | none => (fromLabel? name first).map (· ++ second) := by
  induction first with
  | nil =>
    rw [List.nil_append]
    cases fromLabel? name second <;> rfl
  | cons line rest ih =>
    rw [List.cons_append, fromLabel?, ih]
    cases fromLabel? name second with
    | some found => rfl
    | none =>
      rw [fromLabel?]
      cases fromLabel? name rest with
      | some found => rfl
      | none =>
        by_cases same : line.isLabel name = true
        · simp [same]
        · simp [same]

theorem fromLabel?_eq_none :
    fromLabel? name lines = none ↔ name ∉ labelNames lines := by
  induction lines with
  | nil => simp [fromLabel?]
  | cons line rest ih =>
    rw [fromLabel?]
    cases found : fromLabel? name rest with
    | some lines =>
      have inside : name ∈ labelNames rest := by
        apply Classical.byContradiction
        intro outside
        rw [ih.mpr outside] at found
        cases found
      cases line <;> simp [labelNames, Line.label?] at inside ⊢
      · exact fun _ => inside
      all_goals exact inside
    | none =>
      have outside := ih.mp found
      cases line with
      | label text =>
        simp only [Line.isLabel, labelNames_label, List.mem_cons, outside, or_false,
          beq_iff_eq, ite_eq_right_iff, reduceCtorEq, imp_false]
        exact ⟨fun differs same => differs same.symm, fun differs same => differs same.symm⟩
      | instruction i => simpa [Line.isLabel] using outside
      | verbatim text => simpa [Line.isLabel, labelNames, Line.label?] using outside
      | comment text => simpa [Line.isLabel, labelNames, Line.label?] using outside
      | removed => simpa [Line.isLabel, labelNames, Line.label?] using outside

/-- A label that does not come again further down is found where it stands. -/
theorem fromLabel?_of_last (name : String) (first rest : List Line)
    (last : name ∉ labelNames rest) :
    fromLabel? name (first ++ .label name :: rest) = some (.label name :: rest) := by
  rw [fromLabel?_append, fromLabel?, fromLabel?_eq_none.mpr last]
  simp [Line.isLabel]

theorem fromLabel?_suffix (h : fromLabel? name lines = some found) :
    found <:+ lines := by
  induction lines with
  | nil => cases h
  | cons line rest ih =>
    rw [fromLabel?] at h
    cases inner : fromLabel? name rest with
    | some lower =>
      rw [inner] at h
      cases h
      exact (ih inner).trans (List.suffix_cons line rest)
    | none =>
      simp only [inner] at h
      split at h
      · cases h
        exact List.suffix_refl _
      · cases h

theorem fromLabel?_head (h : fromLabel? name lines = some found) :
    ∃ rest, found = .label name :: rest := by
  induction lines with
  | nil => cases h
  | cons line rest ih =>
    rw [fromLabel?] at h
    cases inner : fromLabel? name rest with
    | some lower =>
      rw [inner] at h
      cases h
      exact ih inner
    | none =>
      simp only [inner] at h
      split at h
      · next here =>
        cases h
        cases line with
        | label text => exact ⟨rest, by rw [eq_of_beq (show (text == name) = true from here)]⟩
        | _ => cases here
      · cases h

theorem fromLabel?_of_once {rest : List Line} (once : (labelNames lines).count name ≤ 1)
    (above : List Line) (split : lines = above ++ .label name :: rest) :
    fromLabel? name lines = some (.label name :: rest) := by
  rw [split]
  apply fromLabel?_of_last
  intro again
  have further := List.count_pos_iff.mpr again
  rw [split, labelNames_append, labelNames_label, List.count_append, List.count_cons_self] at once
  omega

theorem exists_fromLabel? (inside : name ∈ labelNames lines) :
    ∃ rest, fromLabel? name lines = some (.label name :: rest) := by
  cases found : fromLabel? name lines with
  | none => exact absurd inside (fromLabel?_eq_none.mp found)
  | some lower =>
    obtain ⟨rest, rfl⟩ := fromLabel?_head found
    exact ⟨rest, rfl⟩

/-- A point of a run: the lines ahead and the state of the processor. -/
structure Point where
  rest : List Line
  cpu : State

namespace Point

variable {lines rest : List Line} {line : Line} {s : State}

/-- The next point of a run through some lines; none if control leaves them. -/
def step? (w : Surroundings) (lines : List Line) (p : Point) : Option Point :=
  match p.rest with
  | [] => none
  | line :: rest =>
    match line.flow w p.cpu with
    | .next s => some ⟨rest, s⟩
    | .jump label => (fromLabel? label lines).map (⟨·, p.cpu⟩)
    | .stop => none

variable {w : Surroundings}

theorem step?_of_next {after : State}
    (next : line.flow w s = .next after) :
    (⟨line :: rest, s⟩ : Point).step? w lines = some ⟨rest, after⟩ := by
  simp only [step?, next]

theorem step?_of_jump {found : List Line}
    {label : String} (jumps : line.flow w s = .jump label)
    (target : fromLabel? label lines = some found) :
    (⟨line :: rest, s⟩ : Point).step? w lines = some ⟨found, s⟩ := by
  simp only [step?, jumps, target, Option.map_some]

/-- Where a run comes to within a number of steps. -/
def after (w : Surroundings) (lines : List Line) : Nat → Point → Point
  | 0, p => p
  | n + 1, p =>
    match p.step? w lines with
    | some q => after w lines n q
    | none => p

end Point

/-- Finitely many steps of a run through some lines. -/
inductive Steps (w : Surroundings) (lines : List Line) : Point → Point → Prop where
  | refl (p : Point) : Steps w lines p p
  | head {p q r : Point} (first : p.step? w lines = some q) (others : Steps w lines q r) :
      Steps w lines p r

namespace Steps

variable {w : Surroundings} {lines : List Line}

variable {p q : Point}

theorem single (step : p.step? w lines = some q) : Steps w lines p q :=
  .head step (.refl q)

variable {r : Point}

theorem trans (first : Steps w lines p q) (second : Steps w lines q r) :
    Steps w lines p r := by
  induction first with
  | refl => exact second
  | head step _ ih => exact .head step (ih second)

theorem unique (first : Steps w lines p q) (ends : q.step? w lines = none)
    (second : Steps w lines p r) (alsoEnds : r.step? w lines = none) : q = r := by
  induction first with
  | refl =>
    cases second with
    | refl => rfl
    | head step _ => exact absurd (ends.symm.trans step) nofun
  | head step _ ih =>
    cases second with
    | refl => exact absurd (alsoEnds.symm.trans step) nofun
    | head other rest =>
      cases step.symm.trans other
      exact ih ends rest

theorem after (n : Nat) (p : Point) : Steps w lines p (p.after w lines n) := by
  induction n generalizing p with
  | zero => exact .refl p
  | succ n ih =>
    rw [Point.after]
    split
    · next q step => exact .head step (ih q)
    · exact .refl p

/-- What a run comes to is what it comes to within some number of steps. -/
theorem exists_after (steps : Steps w lines p q) : ∃ n, p.after w lines n = q := by
  induction steps with
  | refl p => exact ⟨0, rfl⟩
  | head first _ ih =>
    obtain ⟨n, same⟩ := ih
    refine ⟨n + 1, ?_⟩
    rw [Point.after, first]
    exact same

/-- Once a run has ended, it stays where it is. -/
theorem after_of_ends {m n : Nat} (ends : (p.after w lines m).step? w lines = none)
    (later : m ≤ n) : p.after w lines n = p.after w lines m := by
  induction m generalizing p n with
  | zero =>
    have ends : p.step? w lines = none := ends
    cases n with
    | zero => rfl
    | succ n =>
      change Point.after w lines (n + 1) p = p
      rw [Point.after, ends]
  | succ m ih =>
    obtain ⟨n, rfl⟩ := Nat.exists_eq_add_of_le' (Nat.lt_of_lt_of_le (Nat.succ_pos m) later)
    rw [Point.after] at ends ⊢
    rw [Point.after]
    cases step : p.step? w lines with
    | none => rfl
    | some q =>
      rw [step] at ends
      exact ih ends (Nat.le_of_succ_le_succ later)

theorem all_of_ends {P : Point → Bool} (m : Nat)
    (ends : (p.after w lines m).step? w lines = none)
    (all : (List.range (m + 1)).all (fun n => P (p.after w lines n)) = true)
    (steps : Steps w lines p q) : P q = true := by
  obtain ⟨n, rfl⟩ := steps.exists_after
  rw [List.all_eq_true] at all
  rcases Nat.le_total n m with early | late
  · exact all n (List.mem_range.mpr (Nat.lt_succ_of_le early))
  · rw [after_of_ends ends late]
    exact all m (List.mem_range.mpr (Nat.lt_succ_self m))

end Steps

/-- Finitely many steps of a run through some lines, with `P` at every point that they leave. -/
inductive Along (w : Surroundings) (lines : List Line) (P : Point → Prop) :
    Point → Point → Prop where
  | refl (p : Point) : Along w lines P p p
  | head {p q r : Point} (here : P p) (first : p.step? w lines = some q)
      (others : Along w lines P q r) : Along w lines P p r

namespace Along

variable {w : Surroundings} {lines : List Line} {P Q : Point → Prop} {p q r : Point}

theorem single (here : P p) (step : p.step? w lines = some q) : Along w lines P p q :=
  .head here step (.refl q)

theorem trans (first : Along w lines P p q) (second : Along w lines P q r) :
    Along w lines P p r := by
  induction first with
  | refl => exact second
  | head here step _ ih => exact .head here step (ih second)

theorem mono (implies : ∀ p, P p → Q p) (along : Along w lines P p q) : Along w lines Q p q := by
  induction along with
  | refl => exact .refl _
  | head here step _ ih => exact .head (implies _ here) step ih

theorem steps (along : Along w lines P p q) : Steps w lines p q := by
  induction along with
  | refl => exact .refl _
  | head _ step _ ih => exact .head step ih

end Along

end Backend6502.Code
