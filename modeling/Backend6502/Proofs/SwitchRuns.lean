import Backend6502.Proofs.KnownRegisters
import Backend6502.Proofs.SafeStatements
import Backend6502.Proofs.StructuredCode

/-!
# Runs through a switch

The lines of the arms of a switch one after another (`SwitchPlan.Laid`): before the label of a body
stand the tests of its arm, and before these the jump of a body that runs into them. The tests send
control to the body of the first arm with a value that equals the selector as a byte, else to the
default arm, else behind the switch. On the way nothing changes but the flags, once the selector is
in its register. A body that runs off its end goes on with the next body, or behind the switch.

For that the labels of the switch must be placed only once. A label of the source that is spelled
like one of them takes its place.
-/

namespace Backend6502.Code

/-- Control never goes on with the line after this one. -/
def Line.Halts (line : Line) : Prop :=
  ∀ w s t, line.flow w s ≠ .next t

theorem Line.halts_jump (label : String) : (Line.instruction (.jump label)).Halts :=
  fun _ _ _ flows => by cases flows

end Backend6502.Code

namespace Backend6502.Lowering

open Code (Line Instruction)
open Source (Expr Stmt Arm)

/-- The code after the step ends in a line that never goes on with the next one. -/
abbrev Halts : Gen Unit → Prop :=
  Finishes fun _ code => ∃ above line, code = above ++ [line] ∧ line.Halts

namespace Halts

theorem emitJump (label : String) : Halts (emitJump label) := by
  intro scope c d ok
  cases emitJump_eq_ok ok
  exact ⟨c.code, _, rfl, Line.halts_jump label⟩

theorem emitReturn : Halts emitReturn := by
  intro scope c d ok
  obtain ⟨_, _, ⟨⟩, ok⟩ := bind_inv ok
  cases interrupt : scope.function.interrupt with
  | true | false =>
    rw [interrupt] at ok
    cases ok
    exact ⟨c.code, _, rfl, fun _ _ _ flows => by cases flows⟩

end Halts

mutual

/-- Control never runs past the end of a statement that jumps. -/
theorem halts_stmt : ∀ s : Stmt, s.jumps = true → Halts (stmt s)
  | .leave loc, _ | .next loc, _ => by
      rw [stmt]
      exact .bind fun _ => .bind fun _ => Halts.emitJump _
  | .ret loc value, _ => by
      rw [stmt]
      exact .bind fun _ => .returnStmt Halts.emitReturn value
  | .goto loc name, _ => by
      rw [stmt]
      exact .bind fun _ => Halts.emitJump _
  | .block loc body, jumps => by
      rw [stmt]
      rw [Stmt.jumps] at jumps
      exact .bind fun _ => halts_stmts body jumps

theorem halts_stmts : ∀ body : List Stmt, Stmt.lastJumps body = true → Halts (stmts body)
  | [s], jumps => by
      rw [stmts, stmts]
      rw [Stmt.lastJumps] at jumps
      exact .last (halts_stmt s jumps)
  | s :: next :: rest, jumps => by
      rw [stmts]
      rw [Stmt.lastJumps] at jumps
      exact .bind fun _ => halts_stmts (next :: rest) jumps

end

namespace SwitchPlan

variable {plan : SwitchPlan} {scope : Scope} {c d : Context} {u : Unit}
variable {k : Nat} {runsIn : Bool} {arm : ArmCode} {arms : List ArmCode}

def IsTest (plan : SwitchPlan) (value : Int64) (i : Instruction) : Prop :=
  Instruction.find? (.known plan.compare) .immediate (byteOperand (lowByte value)) = some i

/-- The lines that test for the values of an arm. -/
inductive TestLines (plan : SwitchPlan) (body fail : String) : List Int64 → List Line → Prop where
  | last {value : Int64} {i : Instruction} (test : plan.IsTest value i) :
      TestLines plan body fail [value] [.instruction i, .instruction (.branch .bne fail)]
  | more {value : Int64} {i : Instruction} {rest : List Int64} {lines : List Line}
      (test : plan.IsTest value i) (others : TestLines plan body fail rest lines) :
      TestLines plan body fail (value :: rest)
        (.instruction i :: .instruction (.branch .beq body) :: lines)

theorem emitByte_eq_ok {m : Cpu.Mnemonic} {b : UInt8} (ok : emitByte m b scope c = .ok u d) :
    ∃ i, Instruction.find? (.known m) .immediate (byteOperand b) = some i ∧
      d = { c with code := c.code ++ [.instruction i], flags := c.flags.after m .nothing } := by
  obtain ⟨_, between, added, ok⟩ := bind_inv ok
  obtain ⟨i, found, rfl⟩ := addFixed_eq_ok added
  cases ok
  exact ⟨i, found, rfl⟩

theorem testLines_of_tests {body fail : String} {values : List Int64} (some : values ≠ [])
    (ok : plan.tests body fail values scope c = .ok u d) :
    ∃ lines, d.code = c.code ++ lines ∧ TestLines plan body fail values lines := by
  induction values generalizing c with
  | nil => exact absurd rfl some
  | cons value rest ih =>
    cases rest with
    | nil =>
      obtain ⟨_, compared, first, ok⟩ := bind_inv ok
      obtain ⟨i, test, rfl⟩ := emitByte_eq_ok first
      cases emitBranch_eq_ok rfl ok
      exact ⟨_, List.append_assoc .., .last test⟩
    | cons other rest =>
      obtain ⟨_, compared, first, ok⟩ := bind_inv ok
      obtain ⟨i, test, rfl⟩ := emitByte_eq_ok first
      obtain ⟨_, branched, second, ok⟩ := bind_inv ok
      cases emitBranch_eq_ok rfl second
      obtain ⟨lines, code, others⟩ := ih (List.cons_ne_nil _ _) ok
      refine ⟨_, ?_, .more test others⟩
      rw [code, Context.steered]
      simp

/-- The lines of an arm before the label of its body. -/
inductive HeadLines (plan : SwitchPlan) (k : Nat) (runsIn : Bool) (arm : ArmCode)
    (rest : List ArmCode) : List Line → Prop where
  | default (isDefault : arm.isDefault = true) : HeadLines plan k runsIn arm rest []
  | first {tests : List Line} (tested : arm.isDefault = false) (start : k = 0)
      (lines : TestLines plan (plan.body k) (plan.firstTest (k + 1) rest) arm.values tests) :
      HeadLines plan k runsIn arm rest tests
  | further {tests : List Line} (tested : arm.isDefault = false) (later : k ≠ 0)
      (lines : TestLines plan (plan.body k) (plan.firstTest (k + 1) rest) arm.values tests) :
      HeadLines plan k runsIn arm rest
        ((if runsIn then [.instruction (.jump (plan.body k))] else []) ++
          .label (plan.next k) :: tests)

/-- The lines of the arms from `k` on, behind some code. -/
inductive Laid (plan : SwitchPlan) (scope : Scope) :
    List Line → Nat → Bool → List ArmCode → List Line → Prop where
  | nil (code : List Line) (k : Nat) (runsIn : Bool) : Laid plan scope code k runsIn [] []
  | cons {code head body lines : List Line} {k : Nat} {runsIn : Bool} {arm : ArmCode}
      {rest : List ArmCode} {c d : Context} (heads : HeadLines plan k runsIn arm rest head)
      (begins : c.code = code ++ (head ++ [.label (plan.body k)]))
      (ran : arm.body scope c = .ok () d) (ends : d.code = c.code ++ body)
      (others : Laid plan scope d.code (k + 1) arm.fallsThrough rest lines) :
      Laid plan scope code k runsIn (arm :: rest) (head ++ .label (plan.body k) :: (body ++ lines))

/-- Does the code of the bodies go behind the code that is there? -/
def Appends (scope : Scope) (arms : List ArmCode) : Prop :=
  ∀ arm ∈ arms, ∀ c d, arm.body scope c = .ok () d → c.code <+: d.code

theorem headLines_of_arm {rest : List ArmCode} (ok : plan.arm k runsIn arm rest scope c = .ok u d) :
    ∃ head e, HeadLines plan k runsIn arm rest head ∧
      e.code = c.code ++ (head ++ [.label (plan.body k)]) ∧ arm.body scope e = .ok () d := by
  unfold SwitchPlan.arm at ok
  -- What is left after the tests is the label and the body.
  have finish {e : Context} {head : List Line} (heads : HeadLines plan k runsIn arm rest head)
      (code : e.code = c.code ++ head)
      (ok : (do
        putLabel (plan.body k)
        arm.body : Gen Unit) scope e = .ok u d) :
      ∃ head e, HeadLines plan k runsIn arm rest head ∧
        e.code = c.code ++ (head ++ [.label (plan.body k)]) ∧ arm.body scope e = .ok () d := by
    obtain ⟨_, labelled, placed, ok⟩ := bind_inv ok
    cases putLabel_eq_ok placed
    refine ⟨head, _, heads, ?_, ok⟩
    rw [Context.labelled, code, List.append_assoc]
  cases tested : arm.isDefault with
  | true =>
    rw [tested] at ok
    exact finish (.default tested) (List.append_nil _).symm ok
  | false =>
    have some : arm.values ≠ [] := by
      rw [ArmCode.isDefault] at tested
      exact fun none => by simp [none] at tested
    rw [tested] at ok
    simp only [Bool.not_false, if_true] at ok
    by_cases start : k = 0
    · rw [if_neg (not_not_intro start)] at ok
      obtain ⟨_, e, tests, ok⟩ := bind_inv ok
      obtain ⟨lines, code, laid⟩ := testLines_of_tests some tests
      exact finish (.first tested start laid) code ok
    · rw [if_pos start] at ok
      -- Before the label of the tests there may be the jump of the body above.
      have further {e : Context}
          (code : e.code = c.code ++ if runsIn then [.instruction (.jump (plan.body k))] else [])
          (ok : (do
            putLabel (plan.next k)
            plan.tests (plan.body k) (plan.firstTest (k + 1) rest) arm.values
            putLabel (plan.body k)
            arm.body : Gen Unit) scope e = .ok u d) :
          ∃ head e, HeadLines plan k runsIn arm rest head ∧
            e.code = c.code ++ (head ++ [.label (plan.body k)]) ∧ arm.body scope e = .ok () d := by
        obtain ⟨_, e, placed, ok⟩ := bind_inv ok
        cases putLabel_eq_ok placed
        obtain ⟨_, e, tests, ok⟩ := bind_inv ok
        obtain ⟨lines, added, laid⟩ := testLines_of_tests some tests
        refine finish (.further tested start laid) ?_ ok
        rw [added, Context.labelled, code]
        simp
      cases runsIn with
      | true =>
        obtain ⟨_, e, jumps, ok⟩ := bind_inv ok
        cases emitJump_eq_ok jumps
        exact further rfl ok
      | false => exact further (List.append_nil _).symm ok

theorem laid_of_arms (appends : Appends scope arms)
    (ok : plan.arms k runsIn arms scope c = .ok u d) :
    ∃ lines, d.code = c.code ++ lines ∧ Laid plan scope c.code k runsIn arms lines := by
  induction arms generalizing k runsIn c with
  | nil =>
    cases ok
    exact ⟨[], (List.append_nil _).symm, .nil _ _ _⟩
  | cons arm rest ih =>
    obtain ⟨_, between, first, ok⟩ := bind_inv ok
    obtain ⟨head, e, heads, begins, ran⟩ := headLines_of_arm first
    obtain ⟨body, ends⟩ := appends arm List.mem_cons_self e between ran
    obtain ⟨lines, code, others⟩ :=
      ih (fun arm inside => appends arm (List.mem_cons_of_mem _ inside)) ok
    refine ⟨_, ?_, .cons heads begins ran ends.symm others⟩
    rw [code, ← ends, begins]
    simp

/-- Where an arm stands among the others. -/
theorem Laid.split {code lines : List Line} (laid : Laid plan scope code k runsIn arms lines)
    {j : Nat} (found : arms[j]? = some arm) :
    ∃ upper body lower c d, lines = upper ++ .label (plan.body (k + j)) :: (body ++ lower) ∧
      c.code = code ++ (upper ++ [.label (plan.body (k + j))]) ∧ arm.body scope c = .ok () d ∧
      d.code = c.code ++ body ∧
      Laid plan scope d.code (k + j + 1) arm.fallsThrough (arms.drop (j + 1)) lower := by
  induction laid generalizing j with
  | nil => cases found
  | @cons code head body others k runsIn first rest c d heads begins ran ends laid ih =>
    cases j with
    | zero =>
      cases found
      exact ⟨head, body, others, c, d, rfl, begins, ran, ends, laid⟩
    | succ j =>
      obtain ⟨upper, inner, lower, e, f, whole, below, runs, grown, further⟩ := ih found
      have same : k + 1 + j = k + (j + 1) := by omega
      rw [same] at whole below further
      refine ⟨head ++ .label (plan.body k) :: (body ++ upper), inner, lower, e, f, ?_, ?_, runs,
        grown, further⟩
      · rw [whole]
        simp
      · rw [below, ends, begins]
        simp

theorem enter_eq_ok (ok : plan.enter arms scope c = .ok u d) :
    (d = c.steered (.jump (plan.firstTest 0 arms)) ∧
        ∀ rest, indicesFrom (!·.isDefault) 0 arms ≠ 0 :: rest) ∨
      d = c ∧ ((∃ rest, indicesFrom (!·.isDefault) 0 arms = 0 :: rest) ∨
        indicesFrom (!·.isDefault) 0 arms = [] ∧ ∀ k, plan.default? ≠ some (k + 1)) := by
  unfold enter at ok
  cases found : indicesFrom (!·.isDefault) 0 arms with
  | cons first rest =>
    rw [found] at ok
    cases first with
    | zero =>
      cases ok
      exact .inr ⟨rfl, .inl ⟨rest, rfl⟩⟩
    | succ first =>
      cases emitJump_eq_ok ok
      rw [firstTest, found]
      exact .inl ⟨rfl, fun _ same => by cases same⟩
  | nil =>
    rw [found] at ok
    cases isDefault : plan.default? with
    | none =>
      rw [isDefault] at ok
      cases ok
      exact .inr ⟨rfl, .inr ⟨rfl, fun _ same => by cases same⟩⟩
    | some k =>
      rw [isDefault] at ok
      cases k with
      | zero =>
        cases ok
        exact .inr ⟨rfl, .inr ⟨rfl, fun _ same => by cases same⟩⟩
      | succ k =>
        cases emitJump_eq_ok ok
        rw [firstTest, found, otherwise, isDefault]
        exact .inl ⟨rfl, fun _ same => by cases same⟩

theorem enter_grows (ok : plan.enter arms scope c = .ok u d) :
    ∃ entry, d.code = c.code ++ entry := by
  rcases enter_eq_ok ok with ⟨rfl, -⟩ | ⟨rfl, -⟩
  · exact ⟨_, rfl⟩
  · exact ⟨[], (List.append_nil _).symm⟩

theorem code_eq_ok (ok : plan.code arms scope c = .ok u d) :
    ∃ before entered after, plan.enter arms scope before = .ok () entered ∧
      plan.arms 0 false arms scope entered = .ok () after ∧ before.code = c.code ∧
      d.code = after.code ++ [.label plan.stop] := by
  obtain ⟨_, _, ⟨⟩, ok⟩ := bind_inv ok
  obtain ⟨_, closed, inside, ok⟩ := bind_inv ok
  cases putLabel_eq_ok ok
  obtain ⟨after, ran, rfl⟩ := withExits_eq_ok inside
  obtain ⟨_, entered, enters, lays⟩ := bind_inv ran
  exact ⟨_, entered, after, enters, lays, rfl, rfl⟩

end SwitchPlan

theorem findDefault_eq_ok {arms : List ArmCode} {scope : Scope} {c d : Context}
    {default? : Option Nat} (ok : findDefault arms scope c = .ok default? d) :
    d = c ∧ indicesFrom (·.isDefault) 0 arms = default?.toList := by
  unfold findDefault at ok
  cases found : indicesFrom (·.isDefault) 0 arms with
  | nil =>
    rw [found] at ok
    cases ok
    exact ⟨rfl, rfl⟩
  | cons k rest =>
    rw [found] at ok
    cases rest with
    | nil =>
      cases ok
      exact ⟨rfl, rfl⟩
    | cons => cases ok

section Arms

variable {scope : Scope}

theorem armCodes_eq_map (arms : List (Arm Stmt)) : armCodes arms = arms.map armCode := by
  induction arms with
  | nil => rw [armCodes, List.map_nil]
  | cons arm rest ih => rw [armCodes, ih, List.map_cons]

theorem appends_armCodes (arms : List (Arm Stmt)) : SwitchPlan.Appends scope (armCodes arms) := by
  intro code inside c d ran
  rw [armCodes_eq_map] at inside
  obtain ⟨arm, -, rfl⟩ := List.mem_map.mp inside
  have built : Built ⟨fun _ => True, True⟩ false _ (fun _ => True) (armCode arm).body :=
    built_armCode arm (fun _ _ => trivial) fun _ _ => trivial
  exact ((built.places scope c fun _ _ => ⟨trivial, fun _ _ => trivial⟩).of_ok ran).labelled.grows

theorem body_armCode (arm : Arm Stmt) : (armCode arm).body = stmts arm.body := by
  obtain ⟨values, isDefault, body⟩ := arm
  rw [armCode]

theorem halts_armCode {arm : Arm Stmt} (stays : (armCode arm).fallsThrough = false) :
    Halts (armCode arm).body := by
  obtain ⟨values, isDefault, body⟩ := arm
  rw [armCode] at stays ⊢
  exact halts_stmts body (by simpa using stays)

end Arms

end Backend6502.Lowering

namespace Backend6502.Code

/-- Control runs past the last of some lines, in this state. -/
def RunsOff (w : Surroundings) (lines : List Line) (t : Cpu.State) : Prop :=
  lines = [] ∨ ∃ above line s, lines = above ++ [line] ∧ line.flow w s = .next t

end Backend6502.Code

namespace Backend6502.Lowering

open Code (Line Instruction Surroundings Point Along RunsOff fromLabel? labelNames)
open Cpu (State)

/-- Is one of the values of the arm this byte? -/
def ArmCode.takes (arm : ArmCode) (b : UInt8) : Bool :=
  arm.values.any fun value => lowByte value == b

/-- Is it the label of a body of a switch, or the one behind the switch? -/
def Label.IsLanding (n : Nat) (l : Label) : Prop :=
  l = .switchEnd n ∨ ∃ k, l = .switchBody n k

/-- The point of a run is no place that the tests of a switch send control to. -/
def Short (n : Nat) (p : Point) : Prop :=
  ∀ l : Label, l.IsLanding n → p.rest.head? ≠ some (.label l.text)

theorem short_instruction {n : Nat} (i : Instruction) (rest : List Line) (s : State) :
    Short n ⟨.instruction i :: rest, s⟩ :=
  fun _ _ same => by cases same

namespace SwitchPlan

variable {plan : SwitchPlan} {scope : Scope} {w : Surroundings} {lines : List Line} {s t : State}

/-- What is in the register that the selector is compared in. -/
def held (plan : SwitchPlan) (s : State) : UInt8 :=
  (s.compared plan.compare).getD 0

def IsCompare (plan : SwitchPlan) : Prop :=
  plan.compare = .cmp ∨ plan.compare = .cpx ∨ plan.compare = .cpy

/-- The label that the tests of the arms from `k` on send a selector to. -/
def chosen (plan : SwitchPlan) (b : UInt8) : (k : Nat) → List ArmCode → String
  | _, [] => plan.otherwise
  | k, arm :: rest => if arm.takes b then plan.body k else plan.chosen b (k + 1) rest

theorem short_next (k : Nat) (rest : List Line) (s : State) :
    Short plan.number ⟨.label (plan.next k) :: rest, s⟩ := by
  intro l landing same
  have same : plan.next k = l.text := by simpa using same
  rcases landing with rfl | ⟨i, rfl⟩
  · cases Label.text_injective (l := .switchNext _ k) rfl rfl same
  · cases Label.text_injective (l := .switchNext _ k) rfl rfl same

/-- Only the flags differ. -/
structure Tested (s t : State) : Prop extends s.Alike t where
  a : t.a = s.a

theorem Tested.refl (s : State) : Tested s s :=
  ⟨.refl s, rfl⟩

theorem Tested.trans {u : State} (first : Tested s t) (second : Tested t u) : Tested s u :=
  ⟨first.toAlike.trans second.toAlike, second.a.trans first.a⟩

theorem Tested.held (tested : Tested s t) (plan : SwitchPlan) : plan.held t = plan.held s := by
  unfold SwitchPlan.held State.compared
  split
  · exact tested.a
  · exact tested.x
  · exact tested.y
  · rfl

def Testing (plan : SwitchPlan) (s : State) (p : Point) : Prop :=
  Tested s p.cpu ∧ Short plan.number p

theorem Testing.after (tested : Tested s t) {p : Point} (testing : plan.Testing t p) :
    plan.Testing s p :=
  ⟨tested.trans testing.1, testing.2⟩

theorem IsTest.flow {value : Int64} {i : Instruction} (test : plan.IsTest value i)
    (compares : plan.IsCompare) (w : Surroundings) (s : State) :
    i.flow w s = .next (s.compareWith (plan.held s) (lowByte value)) := by
  obtain ⟨row, listed, rfl⟩ := Option.map_eq_some_iff.mp test
  have straight : plan.compare.isStraight = true := by
    rcases compares with same | same | same <;> rw [same] <;> rfl
  have mode := @mode_of_find? _ .immediate _ straight nofun nofun listed
  have byte :
      (Instruction.ofRow (.known plan.compare) (byteOperand (lowByte value)) row).immediate? =
      some (lowByte value) := Instruction.immediate?_byteOperand mode rfl
  rw [Instruction.flow_known rfl]
  rcases compares with same | same | same
  all_goals
    rw [same] at byte
    simp only [SwitchPlan.held, State.compared, same, Instruction.flowAs]
    rw [Surroundings.access_of_immediate? byte]
    rfl

theorem tested_compareWith (s : State) (l r : UInt8) : Tested s (s.compareWith l r) :=
  ⟨⟨rfl, rfl, rfl, rfl, rfl⟩, rfl⟩

theorem zero_compareWith (s : State) (l r : UInt8) : (s.compareWith l r).zero = (l == r) :=
  Cpu.sub_beq_zero l r

/-- The tests of an arm go to its body if one of its values is the selector, and else on. -/
theorem TestLines.run {body fail : String} {values : List Int64} {tests onBody onFail : List Line}
    (laid : TestLines plan body fail values tests) (compares : plan.IsCompare)
    (toBody : fromLabel? body lines = some onBody) (toFail : fromLabel? fail lines = some onFail)
    (s : State) :
    ∃ t, Tested s t ∧ Along w lines (plan.Testing s) ⟨tests ++ onBody, s⟩
      ⟨if values.any (fun value => lowByte value == plan.held s) then onBody else onFail, t⟩ := by
  induction laid generalizing s with
  | @last value i test =>
    let t := s.compareWith (plan.held s) (lowByte value)
    have tested : Tested s t := tested_compareWith _ _ _
    have zero : t.zero = (plan.held s == lowByte value) := zero_compareWith _ _ _
    have first : (⟨.instruction i :: .instruction (.branch .bne fail) :: onBody, s⟩ : Point).step? w
        lines = some ⟨.instruction (.branch .bne fail) :: onBody, t⟩ :=
      Point.step?_of_next (test.flow compares w s)
    refine ⟨t, tested, .head ⟨.refl s, short_instruction _ _ _⟩ first ?_⟩
    refine .single ⟨tested, short_instruction _ _ _⟩ ?_
    rw [List.any_cons, List.any_nil, Bool.or_false, Bool.beq_comm, ← zero]
    cases shown : t.zero with
    | true =>
      exact Point.step?_of_next (Line.flow_passed rfl rfl (by rw [State.takes, shown]; rfl))
    | false =>
      exact Point.step?_of_jump (Line.flow_taken rfl rfl (by rw [State.takes, shown]; rfl)) toFail
  | @more value i rest others test further ih =>
    let t := s.compareWith (plan.held s) (lowByte value)
    have tested : Tested s t := tested_compareWith _ _ _
    have zero : t.zero = (plan.held s == lowByte value) := zero_compareWith _ _ _
    have first : (⟨.instruction i :: .instruction (.branch .beq body) :: (others ++ onBody), s⟩ :
        Point).step? w lines =
          some ⟨.instruction (.branch .beq body) :: (others ++ onBody), t⟩ :=
      Point.step?_of_next (test.flow compares w s)
    have here := short_instruction (n := plan.number) (.branch .beq body) (others ++ onBody) t
    rw [List.any_cons, Bool.beq_comm, ← zero]
    cases shown : t.zero with
    | true =>
      refine ⟨t, tested, .head ⟨.refl s, short_instruction _ _ _⟩ first ?_⟩
      exact .single ⟨tested, here⟩ (Point.step?_of_jump (Line.flow_taken rfl rfl shown) toBody)
    | false =>
      obtain ⟨u, same, along⟩ := ih t
      rw [tested.held] at along
      refine ⟨u, tested.trans same, .head ⟨.refl s, short_instruction _ _ _⟩ first ?_⟩
      exact .head ⟨tested, here⟩ (Point.step?_of_next (Line.flow_passed rfl rfl shown))
        (along.mono fun _ => Testing.after tested)

/-- No label of the switch is placed twice. -/
structure Once (plan : SwitchPlan) (lines : List Line) : Prop where
  body : ∀ k, (labelNames lines).count (plan.body k) ≤ 1
  next : ∀ k, (labelNames lines).count (plan.next k) ≤ 1
  stop : (labelNames lines).count plan.stop ≤ 1

/-- Control goes from some line to the label that the tests from `k` on send the selector to. -/
def Sends (plan : SwitchPlan) (w : Surroundings) (lines : List Line) (k : Nat) (arms : List ArmCode)
    (start : List Line) : Prop :=
  ∀ s, ∃ rest t, Tested s t ∧ fromLabel? (plan.chosen (plan.held s) k arms) lines = some rest ∧
    Along w lines (plan.Testing s) ⟨start, s⟩ ⟨rest, t⟩

theorem takes_default {arm : ArmCode} (isDefault : arm.isDefault = true) (b : UInt8) :
    arm.takes b = false := by
  rw [ArmCode.takes, List.isEmpty_iff.mp isDefault, List.any_nil]

/-- Behind the tests of an arm comes its body, and control goes there or to the tests behind it. -/
theorem Sends.tests {k : Nat} {arm : ArmCode} {rest : List ArmCode}
    {tests onBody onFail : List Line}
    (laid : TestLines plan (plan.body k) (plan.firstTest (k + 1) rest) arm.values tests)
    (compares : plan.IsCompare) (toBody : fromLabel? (plan.body k) lines = some onBody)
    (toFail : fromLabel? (plan.firstTest (k + 1) rest) lines = some onFail)
    (others : plan.Sends w lines (k + 1) rest onFail) :
    plan.Sends w lines k (arm :: rest) (tests ++ onBody) := by
  intro s
  obtain ⟨t, tested, along⟩ := laid.run compares (w := w) toBody toFail s
  rw [chosen, ArmCode.takes]
  cases takes : arm.values.any fun value => lowByte value == plan.held s with
  | true =>
    rw [takes] at along
    exact ⟨onBody, t, tested, toBody, along⟩
  | false =>
    rw [takes] at along
    obtain ⟨last, u, further, there, onward⟩ := others t
    rw [tested.held] at there
    exact ⟨last, u, tested.trans further, there,
      along.trans (onward.mono fun _ => Testing.after tested)⟩

theorem indicesFrom_succ_ne {α : Type} {p : α → Bool} {k : Nat} {items : List α} (rest : List Nat) :
    indicesFrom p (k + 1) items ≠ 0 :: rest := by
  intro same
  have bounds := mem_indicesFrom (same ▸ List.mem_cons_self)
  omega

/-- The tests of the arms from `k` on, where the first of them has a label. -/
theorem Laid.sends {code body : List Line} {k : Nat} {runsIn : Bool} {arms : List ArmCode}
    (laid : Laid plan scope code k runsIn arms body) (compares : plan.IsCompare)
    (once : plan.Once lines) (fallback : plan.otherwise ∈ labelNames lines)
    (above below : List Line) (split : lines = above ++ (body ++ below))
    (later : ∀ rest, indicesFrom (!·.isDefault) k arms ≠ 0 :: rest) :
    ∃ found, fromLabel? (plan.firstTest k arms) lines = some found ∧
      plan.Sends w lines k arms found := by
  induction laid generalizing above with
  | nil =>
    obtain ⟨rest, found⟩ := Code.exists_fromLabel? fallback
    exact ⟨_, found, fun s => ⟨_, s, .refl s, found, .refl _⟩⟩
  | @cons code head body others k runsIn arm rest c d heads begins ran ends laid ih =>
    have toBody : fromLabel? (plan.body k) lines =
        some (.label (plan.body k) :: (body ++ (others ++ below))) := by
      apply Code.fromLabel?_of_once (once.body k) (above ++ head)
      rw [split]
      simp
    obtain ⟨found, toFail, sends⟩ :=
      ih (above ++ (head ++ .label (plan.body k) :: body)) (by rw [split]; simp) indicesFrom_succ_ne
    cases heads with
    | default isDefault =>
      have untested : (!arm.isDefault) = false := by
        rw [isDefault]
        rfl
      refine ⟨found, ?_, fun s => ?_⟩
      · rw [firstTest, indicesFrom, untested]
        exact toFail
      · rw [chosen, takes_default isDefault]
        exact sends s
    | first tested start tests =>
      refine absurd ?_ (later (indicesFrom (!·.isDefault) (k + 1) rest))
      rw [indicesFrom, tested, start]
      rfl
    | @further lines' tested _ tests =>
      have toNext : fromLabel? (plan.next k) lines =
          some (.label (plan.next k) ::
            (lines' ++ .label (plan.body k) :: (body ++ (others ++ below)))) := by
        apply Code.fromLabel?_of_once (once.next k)
          (above ++ if runsIn then [.instruction (.jump (plan.body k))] else [])
        rw [split]
        simp
      have here : plan.firstTest k (arm :: rest) = plan.next k := by
        rw [firstTest, indicesFrom, tested]
        rfl
      rw [here]
      refine ⟨_, toNext, fun s => ?_⟩
      obtain ⟨last, t, same, there, along⟩ := Sends.tests tests compares toBody toFail sends s
      refine ⟨last, t, same, there, .head ⟨.refl s, short_next k _ s⟩ ?_ along⟩
      exact Point.step?_of_next rfl

/-- Without tests, there is nothing to choose from. -/
theorem chosen_of_untested {k : Nat} {arms : List ArmCode}
    (untested : indicesFrom (!·.isDefault) k arms = []) (b : UInt8) :
    plan.chosen b k arms = plan.otherwise := by
  induction arms generalizing k with
  | nil => rfl
  | cons arm rest ih =>
    rw [indicesFrom] at untested
    split at untested
    · cases untested
    · next isDefault =>
      rw [chosen, takes_default (by simpa using isDefault)]
      exact ih untested

/-- From the start of the switch, with the selector in its register. -/
theorem Laid.sends_enter {before entered : Context} {u : Unit} {entry body : List Line}
    {arms : List ArmCode} (entering : plan.enter arms scope before = .ok u entered)
    (grown : entered.code = before.code ++ entry)
    (laid : Laid plan scope entered.code 0 false arms body) (compares : plan.IsCompare)
    (defaults : indicesFrom (·.isDefault) 0 arms = plan.default?.toList)
    (once : plan.Once lines) (fallback : plan.otherwise ∈ labelNames lines)
    (above below : List Line)
    (split : lines = above ++ (entry ++ (body ++ .label plan.stop :: below))) :
    plan.Sends w lines 0 arms (entry ++ (body ++ .label plan.stop :: below)) := by
  have entry_nil (same : entered = before) : entry = [] := by
    rw [same] at grown
    simpa using grown
  rcases enter_eq_ok entering with
    ⟨steered, later⟩ | ⟨same, ⟨rest, firstTested⟩ | ⟨untested, notLater⟩⟩
  · -- The first test has a label, and there is a jump to it.
    have jump : entry = [.instruction (.jump (plan.firstTest 0 arms))] := by
      rw [steered, Context.steered] at grown
      exact (List.append_cancel_left grown).symm
    subst jump
    obtain ⟨found, toTests, sends⟩ := laid.sends (w := w) compares once fallback
      (above ++ [.instruction (.jump (plan.firstTest 0 arms))]) (.label plan.stop :: below)
      (by rw [split, List.append_assoc]) later
    intro s
    obtain ⟨last, t, tested, there, along⟩ := sends s
    exact ⟨last, t, tested, there,
      .head ⟨.refl s, short_instruction _ _ s⟩ (Point.step?_of_jump rfl toTests) along⟩
  · -- The first arm is tested first, and control runs into its tests.
    cases entry_nil same
    cases laid with
    | nil => cases firstTested
    | @cons _ head bodyLines others _ _ arm further _ d heads begins ran ends laid =>
      have toBody : fromLabel? (plan.body 0) lines = some (.label (plan.body 0) ::
          (bodyLines ++ (others ++ .label plan.stop :: below))) := by
        apply Code.fromLabel?_of_once (once.body 0) (above ++ head)
        rw [split]
        simp
      obtain ⟨found, toFail, sends⟩ := laid.sends (w := w) compares once fallback
        (above ++ (head ++ .label (plan.body 0) :: bodyLines)) (.label plan.stop :: below)
        (by rw [split]; simp) indicesFrom_succ_ne
      cases heads with
      | default isDefault =>
        rw [indicesFrom, isDefault] at firstTested
        exact absurd firstTested (indicesFrom_succ_ne _)
      | first _ _ tests =>
        have sends := Sends.tests tests compares toBody toFail sends
        simpa using sends
      | further _ later => exact absurd rfl later
  · -- There is nothing to test, and the default arm comes first if there is one.
    cases entry_nil same
    intro s
    rw [chosen_of_untested untested]
    cases laid with
    | nil =>
      have none : plan.default? = none := by
        cases isDefault : plan.default? with
        | none => rfl
        | some k =>
          rw [isDefault] at defaults
          cases defaults
      rw [otherwise, none]
      exact ⟨_, s, .refl s, Code.fromLabel?_of_once once.stop above split, .refl _⟩
    | @cons _ head bodyLines others _ _ arm further _ d heads begins ran ends laid =>
      have isDefault : arm.isDefault = true := by
        rw [indicesFrom] at untested
        split at untested
        · cases untested
        · next isDefault => simpa using isDefault
      rw [indicesFrom, isDefault] at defaults
      cases heads with
      | default =>
        cases found : plan.default? with
        | none =>
          rw [found] at defaults
          cases defaults
        | some k =>
          rw [found] at defaults
          cases (List.cons.inj defaults).1
          rw [otherwise, found]
          exact ⟨_, s, .refl s, Code.fromLabel?_of_once (once.body 0) above split, .refl _⟩
      | first tested => cases tested.symm.trans isDefault
      | further tested => cases tested.symm.trans isDefault

/-- The label of the first of the arms from `k` on, or the one behind the switch. -/
def ahead (plan : SwitchPlan) (k : Nat) (arms : List ArmCode) : String :=
  if arms.isEmpty then plan.stop else plan.body k

/-- Control goes from some lines to a label and does nothing on the way but jump there. -/
def Skips (w : Surroundings) (lines : List Line) (name : String) (t : State) (start : List Line) :
    Prop :=
  ∃ rest, Along w lines (fun p => p.cpu = t ∧ p.rest.head? = some (.instruction (.jump name)))
    ⟨start, t⟩ ⟨.label name :: rest, t⟩

/-- A body that runs into the arms from `k` on goes past the tests of the first one. -/
theorem Laid.skips {code body : List Line} {k : Nat} {arms : List ArmCode}
    (laid : Laid plan scope code k true arms body) (later : k ≠ 0) (once : plan.Once lines)
    {above below : List Line} (split : lines = above ++ (body ++ .label plan.stop :: below))
    (t : State) : Skips w lines (plan.ahead k arms) t (body ++ .label plan.stop :: below) := by
  cases laid with
  | nil => exact ⟨below, .refl _⟩
  | @cons _ head body others _ _ arm rest c d heads =>
    cases heads with
    | default => exact ⟨_, .refl _⟩
    | first _ start => exact absurd start later
    | @further tests =>
      have toBody : fromLabel? (plan.body k) lines = some (.label (plan.body k) ::
          (body ++ (others ++ .label plan.stop :: below))) := by
        apply Code.fromLabel?_of_once (once.body k)
          (above ++ (.instruction (.jump (plan.body k)) :: .label (plan.next k) :: tests))
        rw [split]
        simp
      exact ⟨_, .single ⟨rfl, rfl⟩ (Point.step?_of_jump rfl toBody)⟩

theorem not_runsOff {m : Gen Unit} (halts : Halts m) {c d : Context} {name : String}
    {above body : List Line} (begins : c.code = above ++ [.label name])
    (ran : m scope c = .ok () d) (ends : d.code = c.code ++ body) (t : State) :
    ¬RunsOff w body t := by
  obtain ⟨upper, line, code, stays⟩ := halts scope c d ran
  rintro (none | ⟨_, last, s, rfl, goes⟩)
  · rw [none, List.append_nil, code, begins] at ends
    obtain ⟨-, same⟩ := List.append_inj' ends rfl
    cases same
    exact stays w t t rfl
  · rw [code, ← List.append_assoc] at ends
    obtain ⟨-, same⟩ := List.append_inj' ends rfl
    cases same
    exact stays w s t goes

/-- Control that runs off the end of a body goes on with the next one, or behind the switch. -/
theorem Laid.runsOn {above body lower below : List Line} {k : Nat} {arm : ArmCode}
    {rest : List ArmCode} {c d : Context} {name : String}
    (laid : Laid plan scope d.code (k + 1) arm.fallsThrough rest lower)
    (begins : c.code = above ++ [.label name]) (ran : arm.body scope c = .ok () d)
    (ends : d.code = c.code ++ body) (halts : arm.fallsThrough = false → Halts arm.body)
    (once : plan.Once lines) (upper : List Line)
    (split : lines = upper ++ (lower ++ .label plan.stop :: below)) {t : State}
    (off : RunsOff w body t) :
    Skips w lines (plan.ahead (k + 1) rest) t (lower ++ .label plan.stop :: below) := by
  cases falls : arm.fallsThrough with
  | true =>
    rw [falls] at laid
    exact laid.skips (Nat.succ_ne_zero k) once split t
  | false => exact absurd off (not_runsOff (halts falls) begins ran ends t)

end SwitchPlan

end Backend6502.Lowering
