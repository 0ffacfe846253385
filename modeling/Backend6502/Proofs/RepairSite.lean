import Backend6502.Code.Repair
import Backend6502.Proofs.Execution

/-!
# Sites of repairs, and what can be seen of a run

`trace` lists the labels, the assembler text and the instructions that a run visits, each with the
state in which this happens, and how control leaves the lines at last. Branches, jumps and labels
that are not asked for are not seen: they change nothing but where control is.

The lines that make a decision before its repair (`Site.Made`) and those that make it afterwards
(`Site.lines`) go to the target of the decision in the same states. In all other states both come
out at the same line, so the traces are the same (`Exchange.Agrees.shows_iff`).
-/

namespace Backend6502.Code

open Cpu (State)

/-- What can be seen at a point of a run. -/
inductive Event where
  | visit (line : Line) (s : State)
  /-- Control goes to a label that is not among the lines. -/
  | depart (label : String) (s : State)
  /-- Control runs past the last line. -/
  | finish (s : State)

namespace Line

/-- Is a visit of the line seen? Of the labels only those in `shown` are. -/
def isSeen (shown : List String) : Line → Bool
  | .instruction i => !i.steers
  | .verbatim _ => true
  | .label name => shown.contains name
  | .comment _ | .removed => false

end Line

/-- What can be seen at a point of a run through some lines. -/
def Point.event? (w : Surroundings) (lines : List Line) (shown : List String) (p : Point) :
    Option Event :=
  match p.rest with
  | [] => some (.finish p.cpu)
  | line :: _ =>
    if line.isSeen shown then some (.visit line p.cpu)
    else match line.flow w p.cpu with
      | .jump label =>
        if (fromLabel? label lines).isNone then some (.depart label p.cpu) else none
      | _ => none

def trace (w : Surroundings) (lines : List Line) (shown : List String) : Nat → Point → List Event
  | 0, _ => []
  | n + 1, p =>
    (p.event? w lines shown).toList ++
      match p.step? w lines with
      | none => []
      | some q => trace w lines shown n q

/-- Some first part of the run from the first line shows exactly these events. -/
def Shows (w : Surroundings) (lines : List Line) (shown : List String) (s : State)
    (events : List Event) : Prop :=
  ∃ n, trace w lines shown n ⟨lines, s⟩ = events

/-- A number of steps at which nothing is seen. -/
inductive Glides (w : Surroundings) (lines : List Line) (shown : List String) :
    Nat → Point → Point → Prop where
  | refl (p : Point) : Glides w lines shown 0 p p
  | step {n : Nat} {p q r : Point} (unseen : p.event? w lines shown = none)
      (step : p.step? w lines = some q) (others : Glides w lines shown n q r) :
      Glides w lines shown (n + 1) p r

namespace Glides

variable {w : Surroundings} {lines : List Line} {shown : List String}
variable {n k : Nat} {p q : Point} {line : Line} {rest : List Line} {s : State}

theorem trans {m : Nat} {r : Point} (first : Glides w lines shown m p q)
    (second : Glides w lines shown n q r) : Glides w lines shown (n + m) p r := by
  induction first with
  | refl => exact second
  | step unseen step _ ih => exact .step unseen step (ih second)

theorem trace_add (glides : Glides w lines shown k p q) (n : Nat) :
    trace w lines shown (n + k) p = trace w lines shown n q := by
  induction glides with
  | refl => rfl
  | step unseen step _ ih =>
    rw [← Nat.add_assoc, trace, unseen, step]
    exact ih

theorem trace_eq_nil (glides : Glides w lines shown k p q) (short : n ≤ k) :
    trace w lines shown n p = [] := by
  induction glides generalizing n with
  | refl =>
    rw [Nat.le_zero.mp short]
    rfl
  | step unseen step _ ih =>
    cases n with
    | zero => rfl
    | succ n =>
      rw [trace, unseen, step]
      exact ih (Nat.le_of_succ_le_succ short)

/-- A line that is not seen and leads to the next one in the same state is passed over. -/
theorem pass (unseen : line.isSeen shown = false) (next : line.flow w s = .next s) :
    Glides w lines shown 1 ⟨line :: rest, s⟩ ⟨rest, s⟩ := by
  refine .step ?_ (Point.step?_of_next next) (.refl _)
  simp [Point.event?, unseen, next]

theorem jump {found : List Line} {label : String} (unseen : line.isSeen shown = false)
    (jumps : line.flow w s = .jump label) (target : fromLabel? label lines = some found) :
    Glides w lines shown 1 ⟨line :: rest, s⟩ ⟨found, s⟩ := by
  refine .step ?_ (Point.step?_of_jump jumps target) (.refl _)
  simp [Point.event?, unseen, jumps, target]

/-- Comments and the places of removed instructions are passed over. -/
theorem silent {gap : List Line} (quiet : ∀ line ∈ gap, line.isSilent = true) :
    Glides w lines shown gap.length ⟨gap ++ rest, s⟩ ⟨rest, s⟩ := by
  induction gap with
  | nil => exact .refl _
  | cons line gap ih =>
    have here : Glides w lines shown 1 ⟨line :: (gap ++ rest), s⟩ ⟨gap ++ rest, s⟩ := by
      have quietLine := quiet line List.mem_cons_self
      cases line with
      | comment text => exact pass rfl rfl
      | removed => exact pass rfl rfl
      | label name => cases quietLine
      | instruction i => cases quietLine
      | verbatim text => cases quietLine
    exact here.trans (ih fun line inside => quiet line (List.mem_cons_of_mem _ inside))

end Glides

/-- Lines of which one part is put in the place of another. -/
structure Exchange where
  above : List Line
  old : List Line
  new : List Line
  below : List Line

namespace Exchange

variable {w : Surroundings} {shown : List String}
variable {e : Exchange} {rest other : List Line}

def source (e : Exchange) : List Line :=
  e.above ++ (e.old ++ e.below)

def result (e : Exchange) : List Line :=
  e.above ++ (e.new ++ e.below)

def back (e : Exchange) : Exchange :=
  { e with old := e.new, new := e.old }

/-- Lines ahead that lead to the same point outside of the exchanged part, or to its start. -/
inductive Beside (e : Exchange) : List Line → List Line → Prop where
  | above (rest : List Line) (outside : rest <:+ e.above) :
      Beside e (rest ++ (e.old ++ e.below)) (rest ++ (e.new ++ e.below))
  | below (rest : List Line) (outside : rest <:+ e.below) : Beside e rest rest

theorem Beside.back (beside : e.Beside rest other) : e.back.Beside other rest := by
  cases beside with
  | above rest outside => exact .above (e := e.back) rest outside
  | below rest outside => exact .below (e := e.back) rest outside

/--
The exchange decides alike: no line outside of it goes to a label inside, and from the start of
either part control glides to one and the same point outside.
-/
structure Agrees (e : Exchange) (w : Surroundings) (shown : List String) : Prop where
  apart : ∀ line ∈ e.above ++ e.below, ∀ label, line.goesTo label = true →
    label ∉ labelNames e.old ∧ label ∉ labelNames e.new
  meet : ∀ s, ∃ rest other, e.Beside rest other ∧
    (∃ n, Glides w e.source shown (n + 1) ⟨e.old ++ e.below, s⟩ ⟨rest, s⟩) ∧
    (∃ n, Glides w e.result shown (n + 1) ⟨e.new ++ e.below, s⟩ ⟨other, s⟩)

theorem Agrees.back (agrees : e.Agrees w shown) :
    e.back.Agrees w shown where
  apart line inside label names := (agrees.apart line inside label names).symm
  meet s := by
    obtain ⟨rest, other, beside, first, second⟩ := agrees.meet s
    exact ⟨other, rest, beside.back, second, first⟩

/-- A label outside of the exchanged part is found at the same place before and after. -/
theorem beside_fromLabel? (e : Exchange) {label : String} (old : label ∉ labelNames e.old)
    (new : label ∉ labelNames e.new) :
    (fromLabel? label e.source = none ∧ fromLabel? label e.result = none) ∨
      ∃ rest other, fromLabel? label e.source = some rest ∧
        fromLabel? label e.result = some other ∧ e.Beside rest other := by
  rw [source, result, fromLabel?_append, fromLabel?_append, fromLabel?_append, fromLabel?_append,
    fromLabel?_eq_none.mpr old, fromLabel?_eq_none.mpr new]
  cases low : fromLabel? label e.below with
  | some rest => exact .inr ⟨rest, rest, rfl, rfl, .below rest (fromLabel?_suffix low)⟩
  | none =>
    cases high : fromLabel? label e.above with
    | none => exact .inl ⟨rfl, rfl⟩
    | some rest => exact .inr ⟨_, _, rfl, rfl, .above rest (fromLabel?_suffix high)⟩

/-- Outside of the exchanged part, a line shows the same and leads to the same before and after. -/
theorem Agrees.line_beside (agrees : e.Agrees w shown)
    {line : Line} (outside : line ∈ e.above ++ e.below) (beside : e.Beside rest other) (s : State) :
    (⟨line :: rest, s⟩ : Point).event? w e.source shown =
        (⟨line :: other, s⟩ : Point).event? w e.result shown ∧
      (((⟨line :: rest, s⟩ : Point).step? w e.source = none ∧
          (⟨line :: other, s⟩ : Point).step? w e.result = none) ∨
        ∃ after otherAfter t, e.Beside after otherAfter ∧
          (⟨line :: rest, s⟩ : Point).step? w e.source = some ⟨after, t⟩ ∧
          (⟨line :: other, s⟩ : Point).step? w e.result = some ⟨otherAfter, t⟩) := by
  cases flow : line.flow w s with
  | next t =>
    refine ⟨by simp [Point.event?, flow], .inr ⟨rest, other, t, beside, ?_, ?_⟩⟩
    · exact Point.step?_of_next flow
    · exact Point.step?_of_next flow
  | stop => exact ⟨by simp [Point.event?, flow], .inl (by simp [Point.step?, flow])⟩
  | jump label =>
    obtain ⟨old, new⟩ := agrees.apart line outside label (Line.goesTo_of_flow flow)
    rcases e.beside_fromLabel? old new with
      ⟨gone, otherGone⟩ | ⟨after, otherAfter, found, otherFound, lands⟩
    · exact ⟨by simp [Point.event?, flow, gone, otherGone],
        .inl (by simp [Point.step?, flow, gone, otherGone])⟩
    · refine ⟨by simp [Point.event?, flow, found, otherFound],
        .inr ⟨after, otherAfter, s, lands, ?_, ?_⟩⟩
      · exact Point.step?_of_jump flow found
      · exact Point.step?_of_jump flow otherFound

/-- What a run shows before the exchange, a run beside it shows after the exchange. -/
theorem Agrees.trace_beside (agrees : e.Agrees w shown)
    (n : Nat) (beside : e.Beside rest other) (s : State) :
    ∃ m, trace w e.result shown m ⟨other, s⟩ = trace w e.source shown n ⟨rest, s⟩ := by
  -- The part before the exchange is crossed in one go, so the number of steps may drop by several.
  induction n using Nat.strongRecOn generalizing rest other s with
  | ind n ih =>
    have crossLine : ∀ {line : Line} {rest other : List Line},
        line ∈ e.above ++ e.below → e.Beside rest other →
        ∃ m, trace w e.result shown m ⟨line :: other, s⟩ =
          trace w e.source shown n ⟨line :: rest, s⟩ := by
      intro line rest other outside beside
      cases n with
      | zero => exact ⟨0, rfl⟩
      | succ n =>
        obtain ⟨sameEvent, ⟨ends, otherEnds⟩ | ⟨after, otherAfter, t, lands, step, otherStep⟩⟩ :=
          agrees.line_beside outside beside s
        · refine ⟨1, ?_⟩
          rw [trace, trace, sameEvent, ends, otherEnds]
        · obtain ⟨m, same⟩ := ih n (Nat.lt_succ_self n) lands t
          refine ⟨m + 1, ?_⟩
          rw [trace, trace, sameEvent, step, otherStep]
          exact congrArg _ same
    cases beside with
    | below rest outside =>
      cases rest with
      | nil =>
        cases n with
        | zero => exact ⟨0, rfl⟩
        | succ n => exact ⟨1, rfl⟩
      | cons line rest =>
        refine crossLine (List.mem_append_right _ (outside.subset List.mem_cons_self)) ?_
        exact .below rest ((List.suffix_cons line rest).trans outside)
    | above rest outside =>
      cases rest with
      | cons line rest =>
        refine crossLine (List.mem_append_left _ (outside.subset List.mem_cons_self)) ?_
        exact .above rest ((List.suffix_cons line rest).trans outside)
      | nil =>
        obtain ⟨after, otherAfter, lands, ⟨k, glides⟩, ⟨otherK, otherGlides⟩⟩ := agrees.meet s
        by_cases short : n ≤ k + 1
        · exact ⟨0, (glides.trace_eq_nil short).symm⟩
        · obtain ⟨m, same⟩ := ih (n - (k + 1)) (by omega) lands s
          refine ⟨m + (otherK + 1), ?_⟩
          have whole : n - (k + 1) + (k + 1) = n := by omega
          rw [List.nil_append, List.nil_append, otherGlides.trace_add, same,
            ← glides.trace_add, whole]

/-- An exchange that decides alike changes nothing that can be seen. -/
theorem Agrees.shows_iff (agrees : e.Agrees w shown)
    (s : State) (events : List Event) :
    Shows w e.source shown s events ↔ Shows w e.result shown s events := by
  constructor
  · rintro ⟨n, rfl⟩
    exact agrees.trace_beside n (.above e.above (List.suffix_refl _)) s
  · rintro ⟨n, rfl⟩
    exact agrees.back.trace_beside n (.above (e := e.back) e.above (List.suffix_refl _)) s

end Exchange

open Cpu (Mnemonic)

variable {lines rest : List Line} {i : Instruction}

namespace Test

theorem isBranch_branch (test : Test) (signed : Bool) : (test.branch signed).isBranch = true := by
  cases test <;> cases signed <;> rfl

theorem branch_of_ofBranch? {m : Mnemonic} {test : Test} {signed : Bool}
    (found : ofBranch? m = some (test, signed)) : m = test.branch signed := by
  cases m <;> cases found <;> rfl

theorem takes_negate (s : State) (test : Test) (signed : Bool) :
    s.takes (test.negate.branch signed) = !s.takes (test.branch signed) := by
  cases test <;> cases signed <;> simp [negate, branch, State.takes]

end Test

namespace Glides

variable {w : Surroundings} {lines rest : List Line} {shown : List String} {s : State}
variable {i : Instruction} {m : Mnemonic} {found : List Line} {label : String}

section

variable (op : i.op = .known m) (branches : m.isBranch = true)

include op branches

theorem isSeen_branch : (Line.instruction i).isSeen shown = false := by
  simp [Line.isSeen, Instruction.steers, op, Operation.entry?, branches]

theorem taken (takes : s.takes m = true) (target : fromLabel? i.operand lines = some found) :
    Glides w lines shown 1 ⟨.instruction i :: rest, s⟩ ⟨found, s⟩ :=
  jump (isSeen_branch op branches) (Line.flow_taken op branches takes) target

theorem passed (stays : s.takes m = false) :
    Glides w lines shown 1 ⟨.instruction i :: rest, s⟩ ⟨rest, s⟩ :=
  pass (isSeen_branch op branches) (Line.flow_passed op branches stays)

end

theorem jumped (target : fromLabel? label lines = some found) :
    Glides w lines shown 1 ⟨.instruction (.jump label) :: rest, s⟩ ⟨found, s⟩ :=
  jump rfl rfl target

theorem unlabelled (hidden : label ∉ shown) :
    Glides w lines shown 1 ⟨.label label :: rest, s⟩ ⟨rest, s⟩ :=
  pass (by simp [Line.isSeen, hidden]) rfl

end Glides

theorem nearest?_eq_some {line : Line}
    (found : nearest? lines = some (line, rest)) :
    ∃ gap, (∀ line ∈ gap, line.isSilent = true) ∧ lines = gap ++ line :: rest := by
  induction lines with
  | nil => cases found
  | cons first lines ih =>
    rw [nearest?] at found
    split at found
    · next silent =>
      obtain ⟨gap, quiet, same⟩ := ih found
      refine ⟨first :: gap, ?_, by rw [same, List.cons_append]⟩
      intro line inside
      rcases List.mem_cons.mp inside with rfl | inside
      · exact silent
      · exact quiet line inside
    · cases found
      exact ⟨[], by simp, rfl⟩

theorem nearestInstruction?_eq_some
    (found : nearestInstruction? lines = some (i, rest)) :
    ∃ gap, (∀ line ∈ gap, line.isSilent = true) ∧ lines = gap ++ .instruction i :: rest := by
  unfold nearestInstruction? at found
  split at found
  · next found' =>
    cases found
    exact nearest?_eq_some found'
  · cases found

theorem labelNames_of_silent {gap : List Line} (quiet : ∀ line ∈ gap, line.isSilent = true) :
    labelNames gap = [] := by
  refine List.filterMap_eq_nil_iff.mpr fun line inside => ?_
  have silent := quiet line inside
  cases line <;> first | rfl | cases silent

theorem Instruction.op_of_mnemonic? {m : Mnemonic}
    (found : i.mnemonic? = some m) : i.op = .known m := by
  unfold mnemonic? at found
  split at found
  · next same => rw [same, Option.some.inj found]
  · cases found

def Decision.holds (s : State) (signed : Bool) : Decision → Bool
  | .single test => s.takes (test.branch signed)
  | .atMost => s.takes (Test.less.branch signed) || s.zero
  | .above => s.takes (Test.notLess.branch signed) && !s.zero

namespace Site

variable {site : Site} {landing old : List Line}
variable {spot : Spot} {signed : Bool}

/--
These lines, with those of the site after them, make its decision. Where it does not lead to the
target, control gets to `landing`, over nothing but silent lines.
-/
inductive Made (site : Site) (landing : List Line) : List Line → Prop where
  | single (test : Test) (i : Instruction) (decision : site.decision = .single test)
      (op : i.op = .known (test.branch site.signed)) (target : i.operand = site.target)
      (after : site.after = landing) : Made site landing [.instruction i]
  | atMost (less equal : Instruction) (gap : List Line) (decision : site.decision = .atMost)
      (lessOp : less.op = .known (Test.less.branch site.signed))
      (lessTarget : less.operand = site.target) (quiet : ∀ line ∈ gap, line.isSilent = true)
      (equalOp : equal.op = .known .beq) (equalTarget : equal.operand = site.target)
      (after : site.after = landing) :
      Made site landing (.instruction less :: (gap ++ [.instruction equal]))
  | above (equal notLess : Instruction) (gap below rest : List Line)
      (decision : site.decision = .above) (equalOp : equal.op = .known .beq)
      (quiet : ∀ line ∈ gap, line.isSilent = true)
      (notLessOp : notLess.op = .known (Test.notLess.branch site.signed))
      (notLessTarget : notLess.operand = site.target)
      (after : site.after = below ++ landing) (belowQuiet : ∀ line ∈ below, line.isSilent = true)
      (past : landing = .label equal.operand :: rest) :
      Made site landing (.instruction equal :: (gap ++ [.instruction notLess]))

/-- The lines that a decision takes in besides the branch at which it is found. -/
inductive Covers (spot : Spot) (site : Site) : Prop where
  | alone (test : Test) (decision : site.decision = .single test)
      (before : site.before = spot.before) (after : site.after = spot.after)
  | below (gap : List Line) (i : Instruction) (decision : site.decision = .atMost)
      (quiet : ∀ line ∈ gap, line.isSilent = true) (op : i.op = .known .beq)
      (before : site.before = spot.before)
      (after : spot.after = gap ++ .instruction i :: site.after)
  | above (gap : List Line) (i : Instruction)
      (decision : site.decision = .atMost ∨ site.decision = .above)
      (quiet : ∀ line ∈ gap, line.isSilent = true) (branches : i.op.isBranch = true)
      (before : spot.before = gap ++ .instruction i :: site.before)
      (after : site.after = spot.after)

/-- The decision that is found at a branch is made by the lines between those of the site. -/
def FoundAt (site : Site) (spot : Spot) : Prop :=
  ∃ old landing, site.Made landing old ∧
    spot.lines = site.before.reverse ++ (old ++ site.after) ∧ site.Covers spot

/-- A decision is made by nothing but branches, with silent lines between them. -/
theorem Made.line_cases (made : site.Made landing old)
    {line : Line} (inside : line ∈ old) : line.isSilent = true ∨
      ∃ i m, line = .instruction i ∧ i.op = .known m ∧ m.isBranch = true := by
  have branch {i : Instruction} {test : Test} (op : i.op = .known (test.branch site.signed)) :
      ∃ j m, Line.instruction i = .instruction j ∧ j.op = .known m ∧ m.isBranch = true :=
    ⟨i, _, rfl, op, test.isBranch_branch _⟩
  cases made with
  | single test i decision op =>
    rw [List.mem_singleton.mp inside]
    exact .inr (branch op)
  | atMost less equal gap decision lessOp lessTarget quiet equalOp =>
    rcases List.mem_cons.mp inside with rfl | later
    · exact .inr (branch lessOp)
    · rcases List.mem_append.mp later with silent | last
      · exact .inl (quiet line silent)
      · rw [List.mem_singleton.mp last]
        exact .inr ⟨equal, _, rfl, equalOp, rfl⟩
  | above equal notLess gap below rest decision equalOp quiet notLessOp =>
    rcases List.mem_cons.mp inside with rfl | later
    · exact .inr ⟨equal, _, rfl, equalOp, rfl⟩
    · rcases List.mem_append.mp later with silent | last
      · exact .inl (quiet line silent)
      · rw [List.mem_singleton.mp last]
        exact .inr (branch notLessOp)

theorem foundAt_ofSpot {test : Test} (op : spot.instruction.op = .known (test.branch signed)) :
    (ofSpot spot test signed).FoundAt spot :=
  ⟨_, _, .single test spot.instruction rfl op rfl rfl, rfl, .alone test rfl rfl rfl⟩

theorem foundAt_withEqualAfter (op : spot.instruction.op = .known (Test.less.branch signed)) :
    (ofSpot spot .less signed).withEqualAfter.FoundAt spot := by
  unfold withEqualAfter
  split
  · next next rest found =>
    split
    · next joins =>
      obtain ⟨gap, quiet, below⟩ := nearestInstruction?_eq_some found
      obtain ⟨isEqual, sameTarget⟩ := Bool.and_eq_true_iff.mp joins
      refine ⟨_, _, .atMost spot.instruction next gap rfl op rfl quiet
        (eq_of_beq isEqual) (eq_of_beq sameTarget) rfl, ?_,
        .below gap next rfl quiet (eq_of_beq isEqual) rfl below⟩
      change spot.after = _ at below
      rw [Spot.lines, below]
      simp [ofSpot]
    · exact foundAt_ofSpot op
  · exact foundAt_ofSpot op

theorem foundAt_withLessBefore (op : spot.instruction.op = .known (Test.equal.branch signed)) :
    (ofSpot spot .equal signed).withLessBefore.FoundAt spot := by
  unfold withLessBefore
  split
  · next previous rest found =>
    split
    · next joins =>
      obtain ⟨gap, quiet, above⟩ := nearestInstruction?_eq_some found
      obtain ⟨isLess, sameTarget⟩ := Bool.and_eq_true_iff.mp joins
      have lessOp : previous.op = .known (Test.less.branch (previous.is .bmi)) := by
        rcases Bool.or_eq_true_iff.mp isLess with isMinus | isCarryClear
        · rw [isMinus]
          exact eq_of_beq isMinus
        · rw [Instruction.is, eq_of_beq isCarryClear]
          rfl
      refine ⟨_, _, .atMost previous spot.instruction gap.reverse rfl lessOp
        (eq_of_beq sameTarget) (fun line inside => quiet line (List.mem_reverse.mp inside))
        op rfl rfl, ?_, .above gap previous (.inl rfl) quiet ?_ above rfl⟩
      rotate_left
      · rw [lessOp]
        exact Test.isBranch_branch _ _
      change spot.before = _ at above
      rw [Spot.lines, above]
      simp [ofSpot]
    · exact foundAt_ofSpot op
  · exact foundAt_ofSpot op

theorem foundAt_withEqualBefore (op : spot.instruction.op = .known (Test.notLess.branch signed)) :
    (ofSpot spot .notLess signed).withEqualBefore.FoundAt spot := by
  unfold withEqualBefore
  split
  · next previous rest past others found foundPast =>
    split
    · next joins =>
      obtain ⟨gap, quiet, above⟩ := nearestInstruction?_eq_some found
      obtain ⟨below, belowQuiet, after⟩ := nearest?_eq_some foundPast
      obtain ⟨isEqual, goesPast⟩ := Bool.and_eq_true_iff.mp joins
      refine ⟨_, _, .above previous spot.instruction gap.reverse below others rfl
        (eq_of_beq isEqual) (fun line inside => quiet line (List.mem_reverse.mp inside)) op rfl
        after belowQuiet (by rw [eq_of_beq goesPast]), ?_,
        .above gap previous (.inr rfl) quiet (by rw [eq_of_beq isEqual]; rfl) above rfl⟩
      change spot.before = _ at above
      rw [Spot.lines, above]
      simp [ofSpot]
    · exact foundAt_ofSpot op
  · exact foundAt_ofSpot op

theorem foundAt_of_ofBranch? (found : ofBranch? spot = some site) : site.FoundAt spot := by
  unfold ofBranch? at found
  cases mnemonic : spot.instruction.mnemonic? with
  | none => simp only [mnemonic, reduceCtorEq] at found
  | some m =>
    simp only [mnemonic] at found
    cases decoded : Test.ofBranch? m with
    | none => simp only [decoded, reduceCtorEq] at found
    | some pair =>
      obtain ⟨test, signed⟩ := pair
      have op : spot.instruction.op = .known (test.branch signed) := by
        rw [← Test.branch_of_ofBranch? decoded]
        exact Instruction.op_of_mnemonic? mnemonic
      simp only [decoded] at found
      cases test with
      | less =>
        cases found
        exact foundAt_withEqualAfter op
      | equal =>
        cases found
        exact foundAt_withLessBefore op
      | notLess =>
        cases found
        exact foundAt_withEqualBefore op
      | notEqual | overflow | noOverflow =>
        cases found
        exact foundAt_ofSpot op

/-- Every conditional branch takes part in a decision. -/
theorem ofBranch?_isSome (branches : spot.instruction.op.isBranch = true) :
    (ofBranch? spot).isSome = true := by
  unfold ofBranch? Instruction.mnemonic?
  cases op : spot.instruction.op with
  | spelled text =>
    rw [op] at branches
    cases branches
  | known m =>
    rw [op] at branches
    cases m <;> first | rfl | cases branches

section Run

variable {w : Surroundings} {all : List Line} {shown : List String} {s : State}
variable {found : List Line} {number : Nat}

section

variable (made : site.Made landing old)

include made

/-- Before the repair, control gets to the target where the decision holds. -/
theorem Made.glides_target (holds : site.decision.holds s site.signed = true)
    (target : fromLabel? site.target all = some found) :
    ∃ n, Glides w all shown (n + 1) ⟨old ++ site.after, s⟩ ⟨found, s⟩ := by
  cases made with
  | single test i decision op sameTarget after =>
    rw [decision] at holds
    rw [← sameTarget] at target
    exact ⟨0, .taken op (Test.isBranch_branch test site.signed) holds target⟩
  | atMost less equal gap decision lessOp lessTarget quiet equalOp equalTarget after =>
    rw [decision] at holds
    have branches := Test.isBranch_branch .less site.signed
    cases takes : s.takes (Test.less.branch site.signed) with
    | true =>
      rw [← lessTarget] at target
      exact ⟨0, .taken lessOp branches takes target⟩
    | false =>
      have zero : s.zero = true := by simpa [Decision.holds, takes] using holds
      rw [← equalTarget] at target
      rw [List.cons_append, List.append_assoc]
      exact ⟨_, (Glides.passed lessOp branches takes).trans
        ((Glides.silent quiet).trans (.taken equalOp rfl zero target))⟩
  | above equal notLess gap below rest decision equalOp quiet notLessOp notLessTarget =>
    rw [decision] at holds
    obtain ⟨takes, notZero⟩ : s.takes (Test.notLess.branch site.signed) = true ∧
        s.zero = false := by simpa [Decision.holds] using holds
    rw [← notLessTarget] at target
    rw [List.cons_append, List.append_assoc]
    exact ⟨_, (Glides.passed equalOp rfl notZero).trans ((Glides.silent quiet).trans
      (.taken notLessOp (Test.isBranch_branch .notLess site.signed) takes target))⟩

/-- Before the repair, control gets to the landing where the decision does not hold. -/
theorem Made.glides_landing (fails : site.decision.holds s site.signed = false)
    (lands : ∀ past rest, landing = .label past :: rest → fromLabel? past all = some landing) :
    ∃ n, Glides w all shown (n + 1) ⟨old ++ site.after, s⟩ ⟨landing, s⟩ := by
  cases made with
  | single test i decision op sameTarget after =>
    rw [decision] at fails
    rw [after]
    exact ⟨0, .passed op (Test.isBranch_branch test site.signed) fails⟩
  | atMost less equal gap decision lessOp lessTarget quiet equalOp equalTarget after =>
    rw [decision] at fails
    obtain ⟨stays, notZero⟩ : s.takes (Test.less.branch site.signed) = false ∧
        s.zero = false := by simpa [Decision.holds] using fails
    rw [List.cons_append, List.append_assoc, after]
    exact ⟨_, (Glides.passed lessOp (Test.isBranch_branch .less site.signed) stays).trans
      ((Glides.silent quiet).trans (.passed equalOp rfl notZero))⟩
  | above equal notLess gap below rest decision equalOp quiet notLessOp notLessTarget after
      belowQuiet past =>
      rw [decision] at fails
      cases zero : s.zero with
      | true => exact ⟨0, .taken equalOp rfl zero (lands _ rest past)⟩
      | false =>
        have stays : s.takes (Test.notLess.branch site.signed) = false := by
          simpa [Decision.holds, zero] using fails
        rw [List.cons_append, List.append_assoc, after]
        exact ⟨_, (Glides.passed equalOp rfl zero).trans ((Glides.silent quiet).trans
          ((Glides.passed notLessOp (Test.isBranch_branch .notLess site.signed) stays).trans
            (.silent belowQuiet)))⟩

theorem Made.after_eq :
    ∃ below, site.after = below ++ landing ∧ ∀ line ∈ below, line.isSilent = true := by
  cases made with
  | single test i decision op sameTarget after => exact ⟨[], after, by simp⟩
  | atMost less equal gap decision lessOp lessTarget quiet equalOp equalTarget after =>
    exact ⟨[], after, by simp⟩
  | above equal notLess gap below rest decision equalOp quiet notLessOp notLessTarget after
      belowQuiet past => exact ⟨below, after, belowQuiet⟩

end

/-- The labels of a repair stand where their branches look for them. -/
structure Placed (site : Site) (number : Nat) (all : List Line) : Prop where
  past : fromLabel? (pastLabel number) all = some (.label (pastLabel number) :: site.after)
  jump : site.decision = .atMost → fromLabel? (jumpLabel number) all =
    some (.label (jumpLabel number) :: .instruction (.jump site.target) ::
      .label (pastLabel number) :: site.after)

theorem lines_glides_target (placed : site.Placed number all) (hidden : jumpLabel number ∉ shown)
    (holds : site.decision.holds s site.signed = true)
    (target : fromLabel? site.target all = some found) :
    ∃ n, Glides w all shown (n + 1) ⟨site.lines number ++ site.after, s⟩ ⟨found, s⟩ := by
  unfold lines
  cases decision : site.decision with
  | single test =>
    rw [decision] at holds
    have stays : s.takes (test.negate.branch site.signed) = false := by
      rw [Test.takes_negate]
      simpa [Decision.holds] using holds
    exact ⟨_, (Glides.passed rfl (Test.isBranch_branch _ _) stays).trans (.jumped target)⟩
  | atMost =>
    rw [decision] at holds
    have toJump : Glides w all shown 2 ⟨.label (jumpLabel number) ::
        .instruction (.jump site.target) :: .label (pastLabel number) :: site.after, s⟩
        ⟨found, s⟩ := (Glides.unlabelled hidden).trans (.jumped target)
    cases zero : s.zero with
    | true => exact ⟨_, (Glides.taken (m := .beq) rfl rfl zero (placed.jump decision)).trans toJump⟩
    | false =>
      have less : s.takes (Test.less.branch site.signed) = true := by
        simpa [Decision.holds, zero] using holds
      have stays : s.takes (Test.notLess.branch site.signed) = false := by
        rw [← Test.negate, Test.takes_negate, less]
        rfl
      exact ⟨_, (Glides.passed (m := .beq) rfl rfl zero).trans
        ((Glides.passed rfl (Test.isBranch_branch _ _) stays).trans toJump)⟩
  | above =>
    rw [decision] at holds
    obtain ⟨notLess, notZero⟩ : s.takes (Test.notLess.branch site.signed) = true ∧
        s.zero = false := by simpa [Decision.holds] using holds
    have stays : s.takes (Test.less.branch site.signed) = false := by
      rw [← Test.negate, Test.takes_negate, notLess]
      rfl
    exact ⟨_, (Glides.passed rfl (Test.isBranch_branch _ _) stays).trans
      ((Glides.passed (m := .beq) rfl rfl notZero).trans (.jumped target))⟩

/-- After the repair, control gets past it where the decision does not hold. -/
theorem lines_glides_after (placed : site.Placed number all) (hidden : pastLabel number ∉ shown)
    (fails : site.decision.holds s site.signed = false) :
    ∃ n, Glides w all shown (n + 1) ⟨site.lines number ++ site.after, s⟩ ⟨site.after, s⟩ := by
  have past : Glides w all shown 1 ⟨.label (pastLabel number) :: site.after, s⟩ ⟨site.after, s⟩ :=
    .unlabelled hidden
  unfold lines
  cases decision : site.decision with
  | single test =>
    rw [decision] at fails
    have takes : s.takes (test.negate.branch site.signed) = true := by
      rw [Test.takes_negate]
      simpa [Decision.holds] using fails
    exact ⟨_, (Glides.taken rfl (Test.isBranch_branch _ _) takes placed.past).trans past⟩
  | atMost =>
    rw [decision] at fails
    obtain ⟨notLess, notZero⟩ : s.takes (Test.less.branch site.signed) = false ∧
        s.zero = false := by simpa [Decision.holds] using fails
    have takes : s.takes (Test.notLess.branch site.signed) = true := by
      rw [← Test.negate, Test.takes_negate, notLess]
      rfl
    exact ⟨_, (Glides.passed (m := .beq) rfl rfl notZero).trans
      ((Glides.taken rfl (Test.isBranch_branch _ _) takes placed.past).trans past)⟩
  | above =>
    rw [decision] at fails
    cases less : s.takes (Test.less.branch site.signed) with
    | true => exact ⟨_, (Glides.taken rfl (Test.isBranch_branch _ _) less placed.past).trans past⟩
    | false =>
      have notLess : s.takes (Test.notLess.branch site.signed) = true := by
        rw [← Test.negate, Test.takes_negate, less]
        rfl
      have zero : s.zero = true := by simpa [Decision.holds, notLess] using fails
      exact ⟨_, (Glides.passed rfl (Test.isBranch_branch _ _) less).trans
        ((Glides.taken (m := .beq) rfl rfl zero placed.past).trans past)⟩

end Run

end Site

end Backend6502.Code
