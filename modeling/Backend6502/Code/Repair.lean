import Backend6502.Code.Jump
import Backend6502.Code.Reach

/-!
# Repair of branches out of reach

A conditional branch whose target is too far away becomes the opposite branch over a jump. Two
branches that decide one comparison are repaired together. A repair makes the stream longer, so
the search starts over after each one.
-/

namespace Backend6502.Code

open Cpu (Mnemonic)

inductive Test where
  | equal | notEqual | less | notLess | overflow | noOverflow
  deriving DecidableEq, Repr

namespace Test

def negate : Test → Test
  | .equal => .notEqual
  | .notEqual => .equal
  | .less => .notLess
  | .notLess => .less
  | .overflow => .noOverflow
  | .noOverflow => .overflow

/-- The branch that decides it; signed comparisons use the sign, unsigned ones the carry. -/
def branch (signed : Bool) : Test → Mnemonic
  | .equal => .beq
  | .notEqual => .bne
  | .less => if signed then .bmi else .bcc
  | .notLess => if signed then .bpl else .bcs
  | .overflow => .bvs
  | .noOverflow => .bvc

/-- What a branch decides, and whether by the sign. -/
def ofBranch? : Mnemonic → Option (Test × Bool)
  | .beq => some (.equal, false)
  | .bne => some (.notEqual, false)
  | .bcc => some (.less, false)
  | .bcs => some (.notLess, false)
  | .bmi => some (.less, true)
  | .bpl => some (.notLess, true)
  | .bvs => some (.overflow, false)
  | .bvc => some (.noOverflow, false)
  | _ => none

end Test

/-- What a branch, or two of them together, decide. -/
inductive Decision where
  | single (test : Test)
  | atMost
  /-- A branch past the next one if equal, which then decides: not less, and not equal. -/
  | above
  deriving DecidableEq, Repr

/-- The nearest line that is neither a comment nor a removed one, and the lines beyond it. -/
def nearest? : List Line → Option (Line × List Line)
  | [] => none
  | line :: rest => if line.isSilent then nearest? rest else some (line, rest)

def nearestInstruction? (lines : List Line) : Option (Instruction × List Line) :=
  match nearest? lines with
  | some (.instruction i, rest) => some (i, rest)
  | _ => none

/-- A decision with the lines around the instructions that make it, and the label they go to. -/
structure Site where
  before : List Line
  decision : Decision
  signed : Bool
  target : String
  after : List Line

namespace Site

def ofSpot (spot : Spot) (test : Test) (signed : Bool) : Site where
  before := spot.before
  decision := .single test
  signed := signed
  target := spot.instruction.operand
  after := spot.after

/-- Joins a branch if less with a branch if equal to the same label after it. -/
def withEqualAfter (site : Site) : Site :=
  match nearestInstruction? site.after with
  | some (next, rest) =>
    if next.is .beq && next.operand == site.target then
      { site with decision := .atMost, after := rest }
    else site
  | none => site

/-- Joins a branch if equal with a branch if less to the same label before it. -/
def withLessBefore (site : Site) : Site :=
  match nearestInstruction? site.before with
  | some (previous, rest) =>
    if (previous.is .bmi || previous.is .bcc) && previous.operand == site.target then
      { site with decision := .atMost, signed := previous.is .bmi, before := rest }
    else site
  | none => site

/-- Joins a branch if not less with a branch if equal before it that goes past it. -/
def withEqualBefore (site : Site) : Site :=
  match nearestInstruction? site.before, nearest? site.after with
  | some (previous, rest), some (.label past, _) =>
    if previous.is .beq && previous.operand == past then
      { site with decision := .above, before := rest }
    else site
  | _, _ => site

/-- The whole decision that the branch at a spot takes part in. -/
def ofBranch? (spot : Spot) : Option Site :=
  match spot.instruction.mnemonic? with
  | none => none
  | some m =>
    match Test.ofBranch? m with
    | none => none
    | some (test, signed) =>
      let site := ofSpot spot test signed
      match test with
      | .less => some site.withEqualAfter
      | .equal => some site.withLessBefore
      | .notLess => some site.withEqualBefore
      | _ => some site

def guarded (m : Mnemonic) (target : String) : Line :=
  .instruction { Instruction.branch m target with isProtected := true }

def pastLabel (number : Nat) : String :=
  ".fix" ++ toString number

def jumpLabel (number : Nat) : String :=
  ".fixup" ++ toString number

/-- The lines that make a decision by a jump; `number` keeps their labels apart. -/
def lines (site : Site) (number : Nat) : List Line :=
  let past := pastLabel number
  let jump := Line.instruction (.jump site.target)
  match site.decision with
  | .single test => [guarded (test.negate.branch site.signed) past, jump, .label past]
  | .atMost =>
    [guarded .beq (jumpLabel number), guarded (Test.notLess.branch site.signed) past,
     .label (jumpLabel number), jump, .label past]
  | .above =>
    [guarded (Test.less.branch site.signed) past, guarded .beq past, jump, .label past]

end Site

/-- The first branch of a list of lines that cannot reach its label. -/
def firstFar? (name : String) : (before after : List Line) → Except Defect (Option Spot)
  | _, [] => .ok none
  | before, line :: after =>
    match line with
    | .instruction i =>
      if i.op.isBranch then
        match Spot.distance? ⟨before, i, after⟩ with
        | none => .error (.noTarget name i)
        | some distance =>
          if inRange distance then firstFar? name (line :: before) after
          else .ok (some ⟨before, i, after⟩)
      else firstFar? name (line :: before) after
    | _ => firstFar? name (line :: before) after

namespace Stream

def repairSite (s : Stream) (site : Site) : Stream :=
  { s with
    lines := site.before.reverse ++ site.lines (s.fixes + 1) ++ site.after
    fixes := s.fixes + 1 }

/-- At most `bound` repairs. A branch without a target ends them. -/
def repairUpTo : (bound : Nat) → Stream → Stream × Option Defect
  | 0, s => (s, none)
  | bound + 1, s =>
    match firstFar? s.name [] s.lines with
    | .error defect => (s, some defect)
    | .ok none => (s, none)
    | .ok (some spot) =>
      match Site.ofBranch? spot with
      | none => (s, some (.notABranch spot.instruction.op))
      | some site => repairUpTo bound (s.repairSite site)

def branchCount (s : Stream) : Nat :=
  s.instructions.countP (·.op.isBranch)

/--
Repairs every branch out of reach. A branch of the stream is repaired at most once, and of the
branches that a repair brings in at most one is ever repaired again.
-/
def repair (s : Stream) : Stream × Option Defect :=
  s.repairUpTo (2 * s.branchCount + 1)

end Stream

end Backend6502.Code
