import Backend6502.Proofs.Numerals
import Backend6502.Proofs.Placement

/-!
# Repairs keep the meaning of a stream

A repair exchanges the lines of one decision for others that decide alike. The labels that it brings
in are new, so the next repair finds the stream in the same good order (`Repairable`), and any
number of repairs shows the same runs as the stream itself.
-/

namespace Backend6502.Code

open Cpu (Mnemonic State)

namespace Line

def mentions (label : String) (line : Line) : Bool :=
  line.isLabel label || line.goesTo label

theorem mentions_eq_false {lines : List Line} {label : String} (absent : label ∉ labelNames lines)
    (elsewhere : ∀ i, .instruction i ∈ lines → i.steers = true → i.operand ≠ label) {line : Line}
    (inside : line ∈ lines) : line.mentions label = false := by
  rw [Bool.eq_false_iff]
  intro mentioned
  cases line with
  | instruction i =>
    simp only [mentions, isLabel, goesTo, Bool.false_or, Bool.and_eq_true, beq_iff_eq] at mentioned
    exact elsewhere i inside mentioned.1 mentioned.2
  | label text =>
    simp only [mentions, isLabel, goesTo, Bool.or_false, beq_iff_eq] at mentioned
    exact absent (mentioned ▸ mem_labelNames.mpr inside)
  | _ => cases mentioned

end Line

namespace Site

variable {m n number : Nat}

theorem pastLabel_injective (same : pastLabel m = pastLabel n) : m = n :=
  Text.toString_injective ((String.append_right_inj _).mp same)

theorem jumpLabel_injective (same : jumpLabel m = jumpLabel n) : m = n :=
  Text.toString_injective ((String.append_right_inj _).mp same)

theorem pastLabel_ne_jumpLabel (m n : Nat) : pastLabel m ≠ jumpLabel n := by
  intro same
  have texts := congrArg String.toList same
  rw [pastLabel, jumpLabel, String.toList_append, String.toList_append] at texts
  have tail : (toString m).toList = 'u' :: 'p' :: (toString n).toList := by simpa using texts
  exact Text.toString_ne_of_head rfl m tail

theorem labelNames_lines {site : Site} {label : String}
    (inside : label ∈ labelNames (site.lines number)) :
    label = pastLabel number ∨ label = jumpLabel number ∧ site.decision = .atMost := by
  unfold lines at inside
  cases decision : site.decision <;> simp [decision, guarded] at inside
  · exact .inl inside
  · exact inside.symm.imp_right fun same => ⟨same, rfl⟩
  · exact .inl inside

theorem nodup_labelNames_lines (site : Site) (number : Nat) :
    (labelNames (site.lines number)).Nodup := by
  unfold lines
  cases site.decision with
  | atMost => simp [guarded, (pastLabel_ne_jumpLabel number number).symm]
  | single test | above => simp [guarded]

/-- One of the lines that make a decision is a conditional branch to its target. -/
theorem Made.exists_branch {site : Site} {landing old : List Line} (made : site.Made landing old) :
    ∃ i, .instruction i ∈ old ∧ i.isConditional = true ∧ i.operand = site.target := by
  have conditional {i : Instruction} {m : Mnemonic} (op : i.op = .known m)
      (branches : m.isBranch = true) : i.isConditional = true := by
    rw [Instruction.isConditional, op]
    exact branches
  cases made with
  | single test i decision op target =>
    exact ⟨i, by simp, conditional op (Test.isBranch_branch _ _), target⟩
  | atMost less equal gap decision lessOp lessTarget quiet equalOp equalTarget =>
    exact ⟨equal, by simp, conditional equalOp rfl, equalTarget⟩
  | above equal notLess gap below rest decision equalOp quiet notLessOp notLessTarget =>
    exact ⟨notLess, by simp, conditional notLessOp (Test.isBranch_branch _ _), notLessTarget⟩

/-- The labels of a repair are found where it puts them, if they are not below it as well. -/
theorem placed_lines {site : Site} (above : List Line)
    (past : pastLabel number ∉ labelNames site.after)
    (jump : jumpLabel number ∉ labelNames site.after) :
    site.Placed number (above ++ (site.lines number ++ site.after)) where
  past := by
    obtain ⟨first, shape⟩ : ∃ first, site.lines number = first ++ [.label (pastLabel number)] := by
      unfold lines
      cases site.decision with
      | single test => exact ⟨[_, _], rfl⟩
      | atMost => exact ⟨[_, _, _, _], rfl⟩
      | above => exact ⟨[_, _, _], rfl⟩
    have last := fromLabel?_of_last _ (above ++ first) site.after past
    rw [shape]
    simpa using last
  jump := by
    intro decision
    have last := fromLabel?_of_last (jumpLabel number)
      (above ++ [guarded .beq (jumpLabel number),
        guarded (Test.notLess.branch site.signed) (pastLabel number)])
      (.instruction (.jump site.target) :: .label (pastLabel number) :: site.after)
      (by simp [(pastLabel_ne_jumpLabel number number).symm, jump])
    simpa [lines, decision] using last

/-- A repair mentions its target and its own labels, and no labels of other repairs. -/
theorem mentions_lines {site : Site} {line : Line} (inside : line ∈ site.lines number)
    (targetPast : site.target ≠ pastLabel n) (targetJump : site.target ≠ jumpLabel n)
    (differs : number ≠ n) :
    line.mentions (pastLabel n) = false ∧ line.mentions (jumpLabel n) = false := by
  have past : pastLabel number ≠ pastLabel n := fun same => differs (pastLabel_injective same)
  have jump : jumpLabel number ≠ jumpLabel n := fun same => differs (jumpLabel_injective same)
  have pastJump := pastLabel_ne_jumpLabel number n
  have jumpPast := (pastLabel_ne_jumpLabel n number).symm
  unfold lines at inside
  cases decision : site.decision <;>
    simp only [decision, List.mem_cons, List.not_mem_nil, or_false] at inside
  · rcases inside with rfl | rfl | rfl <;>
      simp [Line.mentions, Line.isLabel, Line.goesTo, guarded, Instruction.branch,
        Instruction.jump, *]
  · rcases inside with rfl | rfl | rfl | rfl | rfl <;>
      simp [Line.mentions, Line.isLabel, Line.goesTo, guarded, Instruction.branch,
        Instruction.jump, *]
  · rcases inside with rfl | rfl | rfl | rfl <;>
      simp [Line.mentions, Line.isLabel, Line.goesTo, guarded, Instruction.branch,
        Instruction.jump, *]

end Site

/-- Lines in good order for repairs whose numbers are above `fixes`. -/
structure Repairable (fixes : Nat) (lines : List Line) : Prop where
  distinct : (labelNames lines).Nodup
  targeted : Targeted lines
  fresh : ∀ n, fixes < n → ∀ line ∈ lines,
    line.mentions (Site.pastLabel n) = false ∧ line.mentions (Site.jumpLabel n) = false

namespace Repairable

variable {fixes : Nat} {lines : List Line}

theorem not_mem_labelNames (order : Repairable fixes lines) {n : Nat} (new : fixes < n) :
    Site.pastLabel n ∉ labelNames lines ∧ Site.jumpLabel n ∉ labelNames lines := by
  refine ⟨fun inside => ?_, fun inside => ?_⟩
  · have := (order.fresh n new _ (mem_labelNames.mp inside)).1
    simp [Line.mentions, Line.isLabel] at this
  · have := (order.fresh n new _ (mem_labelNames.mp inside)).2
    simp [Line.mentions, Line.isLabel] at this

variable {site : Site} {landing old : List Line}

section

variable (order : Repairable fixes (site.before.reverse ++ (old ++ site.after)))
  (made : site.Made landing old)

include order made

theorem target_mem : site.target ∈ labelNames (site.before.reverse ++ site.after) := by
  obtain ⟨i, inside, conditional, same⟩ := made.exists_branch
  have target := order.targeted i (by simp [inside]) conditional
  simpa [made.labelNames_eq_nil, same] using target

theorem agrees (w : Surroundings) {shown : List String}
    (hidden : Site.pastLabel (fixes + 1) ∉ shown ∧ Site.jumpLabel (fixes + 1) ∉ shown) :
    Exchange.Agrees ⟨site.before.reverse, old, site.lines (fixes + 1), site.after⟩ w shown where
  apart := by
    intro line outside label goes
    refine ⟨by simp [made.labelNames_eq_nil], fun inside => ?_⟩
    have member : line ∈ site.before.reverse ++ (old ++ site.after) := by
      rcases List.mem_append.mp outside with up | down
      · exact List.mem_append_left _ up
      · exact List.mem_append_right _ (List.mem_append_right _ down)
    obtain ⟨notPast, notJump⟩ := order.fresh (fixes + 1) (Nat.lt_succ_self fixes) line member
    rcases Site.labelNames_lines inside with rfl | ⟨rfl, -⟩
    · simp [Line.mentions, goes] at notPast
    · simp [Line.mentions, goes] at notJump
  meet := by
    intro s
    obtain ⟨notPast, notJump⟩ := order.not_mem_labelNames (Nat.lt_succ_self fixes)
    have target := order.target_mem made
    have placed : site.Placed (fixes + 1)
        (site.before.reverse ++ (site.lines (fixes + 1) ++ site.after)) :=
      Site.placed_lines _ (by simp_all) (by simp_all)
    cases holds : site.decision.holds s site.signed with
    | true =>
      have targetNew : site.target ∉ labelNames (site.lines (fixes + 1)) := by
        intro inside
        rcases Site.labelNames_lines inside with same | ⟨same, -⟩
        · simp_all
        · simp_all
      have targetOld : site.target ∉ labelNames old := by simp [made.labelNames_eq_nil]
      have lands := Exchange.beside_fromLabel?
        ⟨site.before.reverse, old, site.lines (fixes + 1), site.after⟩ targetOld targetNew
      rcases lands with ⟨missing, -⟩ | ⟨rest, other, found, otherFound, beside⟩
      · have outside := fromLabel?_eq_none.mp missing
        simp [Exchange.source] at outside
        simp [outside] at target
      · exact ⟨rest, other, beside, made.glides_target holds found,
          Site.lines_glides_target placed hidden.2 holds otherFound⟩
    | false =>
      obtain ⟨below, after, quiet⟩ := made.after_eq
      refine ⟨landing, landing, .below landing ⟨below, after.symm⟩, ?_, ?_⟩
      · refine made.glides_landing holds fun past rest same => ?_
        have distinct := order.distinct
        rw [after, same] at distinct
        have last := fromLabel?_of_last past (site.before.reverse ++ (old ++ below)) rest
          (by simp_all [List.nodup_append])
        rw [Exchange.source, after, same]
        simpa using last
      · obtain ⟨n, glides⟩ := Site.lines_glides_after (w := w) placed hidden.1 holds
        refine ⟨below.length + n, ?_⟩
        refine glides.trans (n := below.length) ?_
        rw [after]
        exact .silent quiet

theorem repaired : Repairable (fixes + 1)
      (site.before.reverse ++ (site.lines (fixes + 1) ++ site.after)) where
  distinct := by
    obtain ⟨notPast, notJump⟩ := order.not_mem_labelNames (Nat.lt_succ_self fixes)
    have distinct := order.distinct
    simp only [labelNames_append, made.labelNames_eq_nil, List.nil_append, List.mem_append,
      not_or] at distinct notPast notJump ⊢
    have new : ∀ label ∈ labelNames (site.lines (fixes + 1)),
        label ∉ labelNames site.before.reverse ∧ label ∉ labelNames site.after := by
      intro label inside
      rcases Site.labelNames_lines inside with rfl | ⟨rfl, -⟩
      · exact notPast
      · exact notJump
    rw [List.nodup_append] at distinct ⊢
    obtain ⟨above, below, apart⟩ := distinct
    refine ⟨above, List.nodup_append.mpr ⟨Site.nodup_labelNames_lines site _, below, ?_⟩, ?_⟩
    · rintro label inside _ down rfl
      exact (new label inside).2 down
    · rintro label up _ inside rfl
      rcases List.mem_append.mp inside with inside | down
      · exact (new label inside).1 up
      · exact apart label up label down rfl
  targeted := order.targeted.repaired made _
  fresh := by
    intro n larger line inside
    have differs : fixes + 1 ≠ n := Nat.ne_of_lt larger
    have old_fresh := order.fresh n (Nat.lt_of_succ_lt larger)
    simp only [List.mem_append] at inside
    rcases inside with up | inside | down
    · exact old_fresh line (by simp_all)
    · have target := order.target_mem made
      obtain ⟨notPast, notJump⟩ := order.not_mem_labelNames (Nat.lt_of_succ_lt larger)
      have targetPast : site.target ≠ Site.pastLabel n := by
        rintro same
        simp_all
      have targetJump : site.target ≠ Site.jumpLabel n := by
        rintro same
        simp_all
      exact Site.mentions_lines inside targetPast targetJump differs
    · exact old_fresh line (by simp_all)

end

end Repairable

namespace Stream

theorem repairUpTo_shows (bound : Nat) (s : Stream) (order : Repairable s.fixes s.lines)
    {shown : List String} (hidden : ∀ n, s.fixes < n →
      Site.pastLabel n ∉ shown ∧ Site.jumpLabel n ∉ shown) (w : Surroundings) (cpu : State)
    (events : List Event) :
    Shows w s.lines shown cpu events ↔ Shows w (s.repairUpTo bound).1.lines shown cpu events := by
  refine (repairUpTo_keeps (P := fun t => (Repairable t.fixes t.lines ∧ ∀ n, t.fixes < n →
    Site.pastLabel n ∉ shown ∧ Site.jumpLabel n ∉ shown) ∧
      (Shows w s.lines shown cpu events ↔ Shows w t.lines shown cpu events)) bound ?_
    ⟨⟨order, hidden⟩, Iff.rfl⟩).2
  rintro t site old landing made shape ⟨⟨order, hidden⟩, same⟩
  rw [shape] at order same
  rw [lines_repairSite]
  have once := (order.agrees made w (hidden _ (Nat.lt_succ_self _))).shows_iff cpu events
  exact ⟨⟨order.repaired made, fun n larger => hidden n (Nat.lt_of_succ_lt larger)⟩,
    same.trans once⟩

/--
The repair of a stream keeps its meaning: it goes through, and from every state the repaired stream
visits the labels of the stream, the assembler text and the instructions other than branches and
jumps in the same order and in the same states. Neither the labels nor the operands of jumps may
have the form of the labels that repairs bring in.
-/
theorem repair_shows_iff (s : Stream) (distinct : s.labels.Nodup)
    (targets : ∀ i ∈ s.instructions, i.isConditional = true → i.operand ∈ s.labels)
    (fresh : ∀ n, Site.pastLabel n ∉ s.labels ∧ Site.jumpLabel n ∉ s.labels)
    (jumps : ∀ i ∈ s.instructions, i.op.entry? = some .jmp → ∀ n,
      i.operand ≠ Site.pastLabel n ∧ i.operand ≠ Site.jumpLabel n) :
    s.repair.2 = none ∧ ∀ w cpu events,
      Shows w s.lines s.labels cpu events ↔ Shows w s.repair.1.lines s.labels cpu events := by
  have elsewhere (n : Nat) (i : Instruction) (inside : .instruction i ∈ s.lines)
      (steers : i.steers = true) : i.operand ≠ Site.pastLabel n ∧ i.operand ≠ Site.jumpLabel n := by
    have member : i ∈ s.instructions := List.mem_filterMap.mpr ⟨_, inside, rfl⟩
    obtain ⟨m, entry, chooses⟩ := (Option.any_eq_true _ _).mp steers
    rcases Bool.or_eq_true_iff.mp chooses with jump | branches
    · exact jumps i member (eq_of_beq jump ▸ entry) n
    · have target := targets i member ((Option.any_eq_true _ _).mpr ⟨m, entry, branches⟩)
      exact ⟨fun same => (fresh n).1 (same ▸ target), fun same => (fresh n).2 (same ▸ target)⟩
  have order : Repairable s.fixes s.lines := {
    distinct := distinct
    targeted := fun i inside => targets i (List.mem_filterMap.mpr ⟨_, inside, rfl⟩)
    fresh := fun n _ line inside =>
      ⟨Line.mentions_eq_false (fresh n).1 (fun i inside steers => (elsewhere n i inside steers).1)
          inside,
        Line.mentions_eq_false (fresh n).2 (fun i inside steers => (elsewhere n i inside steers).2)
          inside⟩ }
  exact ⟨repairUpTo_defect _ s order.targeted,
    repairUpTo_shows _ s order fun n larger => order.not_mem_labelNames larger⟩

def farBranch : Stream :=
  { name := "far", lines := .instruction (.branch .beq "L") ::
      (List.replicate 43 (.instruction (.jump "L")) ++ [.label "L"]) }

theorem farBranch_fresh (n : Nat) : Site.pastLabel n ≠ "L" ∧ Site.jumpLabel n ≠ "L" := by
  constructor <;> intro same <;>
    simpa [Site.pastLabel, Site.jumpLabel] using congrArg String.toList same

theorem farBranch_shows_iff :
    farBranch.repair.1.fixes = 1 ∧ farBranch.repair.2 = none ∧ ∀ w cpu events,
      Shows w farBranch.lines farBranch.labels cpu events ↔
        Shows w farBranch.repair.1.lines farBranch.labels cpu events := by
  have labels : farBranch.labels = ["L"] := by decide
  have operands : ∀ i ∈ farBranch.instructions, i.operand = "L" := by decide
  refine ⟨by decide, repair_shows_iff farBranch (by decide) (by decide) ?_ ?_⟩
  · intro n
    simp [labels, farBranch_fresh n]
  · intro i inside _ n
    rw [operands i inside]
    exact ⟨(farBranch_fresh n).1.symm, (farBranch_fresh n).2.symm⟩

/-- Jumps to the label that the first repair brings in. -/
def strayJump : Stream :=
  { farBranch with lines := .instruction (.jump (Site.pastLabel 1)) :: farBranch.lines }

/--
The condition on the operands of jumps is needed: a repair can define a label that was missing.
-/
theorem not_repair_shows_of_jump :
    ¬ ∀ s : Stream, Listed s.lines → s.labels.Nodup →
      (∀ i ∈ s.instructions, i.isConditional = true → i.operand ∈ s.labels) →
      (∀ n, Site.pastLabel n ∉ s.labels ∧ Site.jumpLabel n ∉ s.labels) → ∀ w cpu events,
        Shows w s.lines s.labels cpu events ↔ Shows w s.repair.1.lines s.labels cpu events := by
  intro always
  have tabled : Tabled strayJump.lines := by decide
  have labels : strayJump.labels = ["L"] := by decide
  have fresh (n : Nat) :
      Site.pastLabel n ∉ strayJump.labels ∧ Site.jumpLabel n ∉ strayJump.labels := by
    simp [labels, farBranch_fresh n]
  let w : Surroundings := ⟨fun _ => 0, fun _ _ => none, fun _ _ => none⟩
  -- The repaired stream goes on to the label `L`, the stream itself leaves at the first line.
  have arrives : Shows w strayJump.repair.1.lines strayJump.labels {} [.visit (.label "L") {}] :=
    ⟨4, rfl⟩
  obtain ⟨n, leaves⟩ :=
    (always strayJump tabled.listed (by decide) (by decide) fresh w {} _).mpr arrives
  cases n with
  | zero => cases leaves
  | succ n => cases leaves

end Stream

end Backend6502.Code
