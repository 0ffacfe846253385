import Backend6502.Lowering.Stmt
import Backend6502.Lowering.Switch
import Backend6502.Proofs.SafeExpressions

/-!
# Statements are safe

The tests of a switch branch to the bodies and tests of its arms and behind the switch, all of which
are labels that the switch places itself. Every statement is safe once the labels of the source that
its `goto`s name are among the targets, except that it also places the labels of the source that it
carries, each as often as it carries it (`places_stmt`). So a function whose `goto`s name labels of
its own leaves no branch without a target. It calls no other functions than those that its
expressions name (`composed_function`).
-/

namespace Backend6502.Lowering

open Cpu (Mnemonic)

variable {α : Type} {p : α → Bool} {items : List α}

theorem exists_of_mem_indicesFrom {k i : Nat} (inside : i ∈ indicesFrom p k items) :
    ∃ j item, items[j]? = some item ∧ k + j = i ∧ p item := by
  induction items generalizing k with
  | nil => cases inside
  | cons item rest ih =>
    have either : (p item ∧ i = k) ∨ i ∈ indicesFrom p (k + 1) rest := by
      rw [indicesFrom] at inside
      split at inside <;> simp_all
    rcases either with ⟨holds, rfl⟩ | later
    · exact ⟨0, item, rfl, rfl, holds⟩
    · obtain ⟨j, found, there, same, holds⟩ := ih later
      exact ⟨j + 1, found, there, by omega, holds⟩

theorem mem_indicesFrom {k i : Nat} (inside : i ∈ indicesFrom p k items) :
    k ≤ i ∧ i < k + items.length := by
  obtain ⟨j, item, found, rfl, -⟩ := exists_of_mem_indicesFrom inside
  have := (List.getElem?_eq_some_iff.mp found).1
  omega

section Exits

variable {may : Licence} {own : List String} {targets : String → Prop}
variable {exits : Exits} {step : Gen Unit}

section

variable (leave : targets exits.leave) (next : ∀ label, exits.next = some label → targets label)

include leave next

theorem Places.withExits (places : Places own targets step) :
    Places own targets (withExits exits step) := by
  intro scope c leads
  simp only [Lowering.withExits, ensures_bind, ensures_get, ensures_modify]
  have inner : Leads targets (exits :: c.exits) := by
    intro exit inside
    rcases List.mem_cons.mp inside with rfl | outer
    · exact ⟨leave, next⟩
    · exact leads exit outer
  refine (places scope { c with exits := exits :: c.exits } inner).mono fun _ after grows => ?_
  exact ⟨grows.code, rfl, grows.low, grows.labelled.congr ⟨rfl, rfl, rfl, rfl⟩ ⟨rfl, rfl, rfl, rfl⟩,
    grows.listed⟩

theorem Built.withExits (built : Built may false own targets step) :
    Built may false own targets (withExits exits step) := by
  refine ⟨.withExits leave next built.places, .look (fun _ _ => rfl) fun _ => ?_, nofun⟩
  exact .seq (.modify fun _ _ => rfl) <| .bind built.composed fun _ => .modify fun _ _ => rfl

end

/--
The exits that a step reads lead to targets. What the step is composed of does not depend on the
targets: any exits lead to all labels.
-/
theorem Built.look_exits {β : Type} {f : Context → Gen β} (blind : ∀ c b, f (c.against b) = f c)
    (built : ∀ {wider : String → Prop}, (∀ label, targets label → wider label) →
      ∀ c, Leads wider c.exits → Built may false own wider (f c)) :
    Built may false own targets (get >>= f) where
  places scope c leads := by
    rw [ensures_bind, ensures_get]
    exact (built (fun _ => id) c leads).places scope c leads
  composed := .look blind fun c =>
    (built (fun _ _ => trivial) c fun _ _ => ⟨trivial, fun _ _ => trivial⟩ :
      Built may false own (fun _ => True) (f c)).composed
  adds := nofun

end Exits

namespace SwitchPlan

variable {owns : List (List String)}

def Compares (plan : SwitchPlan) : Prop :=
  (Cpu.Encoding.find? plan.compare .immediate).isSome = true ∧
    (plan.compare == .jmp || plan.compare.isBranch) = false

/-- The labels of an arm: its tests have one, unless they come first. -/
def armLabels (n k : Nat) (arm : ArmCode) : List Label :=
  if arm.isDefault || k == 0 then [.switchBody n k] else [.switchNext n k, .switchBody n k]

def labels (n : Nat) : (k : Nat) → List ArmCode → List Label
  | _, [] => []
  | k, arm :: rest => armLabels n k arm ++ labels n (k + 1) rest

section Labels

variable {n k i : Nat} {arm : ArmCode} {arms : List ArmCode} {l : Label}

theorem mem_armLabels : l ∈ armLabels n k arm ↔
    l = .switchBody n k ∨ arm.isDefault = false ∧ k ≠ 0 ∧ l = .switchNext n k := by
  unfold armLabels
  cases arm.isDefault <;> cases k <;> simp [or_comm]

theorem cases_of_mem_labels (inside : l ∈ labels n k arms) :
    ∃ i, k ≤ i ∧ (l = .switchBody n i ∨ l = .switchNext n i) := by
  induction arms generalizing k with
  | nil => cases inside
  | cons arm rest ih =>
    rcases List.mem_append.mp inside with here | later
    · rcases mem_armLabels.mp here with body | ⟨-, -, next⟩
      · exact ⟨k, Nat.le_refl k, .inl body⟩
      · exact ⟨k, Nat.le_refl k, .inr next⟩
    · obtain ⟨i, above, same⟩ := ih later
      exact ⟨i, by omega, same⟩

theorem nodup_labels : (labels n k arms).Nodup := by
  induction arms generalizing k with
  | nil => exact List.nodup_nil
  | cons arm rest ih =>
    refine List.nodup_append.mpr ⟨?_, ih, ?_⟩
    · unfold armLabels
      split <;> simp
    · rintro l here _ later rfl
      obtain ⟨i, above, same⟩ := cases_of_mem_labels later
      rcases mem_armLabels.mp here with rfl | ⟨-, -, rfl⟩ <;> simp at same <;> omega

theorem body_mem_labels (low : k ≤ i) (high : i < k + arms.length) :
    .switchBody n i ∈ labels n k arms := by
  induction arms generalizing k with
  | nil => simp at high; omega
  | cons arm rest ih =>
    refine List.mem_append.mpr ?_
    rcases Nat.eq_or_lt_of_le low with rfl | further
    · exact .inl (mem_armLabels.mpr (.inl rfl))
    · rw [List.length_cons] at high
      exact .inr (ih further (by omega))

theorem next_mem_labels (tested : i ∈ indicesFrom (!·.isDefault) k arms) (further : i ≠ 0) :
    .switchNext n i ∈ labels n k arms := by
  induction arms generalizing k with
  | nil => cases tested
  | cons arm rest ih =>
    refine List.mem_append.mpr ?_
    rw [indicesFrom] at tested
    split at tested
    · next here =>
      rcases List.mem_cons.mp tested with rfl | later
      · exact .inl (mem_armLabels.mpr (.inr ⟨by simpa using here, further, rfl⟩))
      · exact .inr (ih later)
    · exact .inr (ih tested)

end Labels

variable {may : Licence} {targets : String → Prop} {plan : SwitchPlan}

theorem built_tests (compares : plan.Compares) {body fail : String} (toBody : targets body)
    (toFail : targets fail) (values : List Int64) :
    Loud may targets (plan.tests body fail values) := by
  have compare (value : Int64) : Loud may targets (emitByte plan.compare (lowByte value)) :=
    .emitByte compares.1 compares.2 _
  induction values with
  | nil => exact .pure _
  | cons value rest ih =>
    cases rest with
    | nil => exact .bind (compare value) fun _ => .emitBranch rfl toFail
    | cons other rest =>
      exact .bind (compare value) fun _ => .seq (.emitBranch rfl toBody) ih

/-- Where a failed test goes is the tests of a later arm, or where nothing is left to test. -/
theorem firstTest_cases (plan : SwitchPlan) (k : Nat) (arms : List ArmCode) :
    plan.firstTest k arms = plan.otherwise ∨
      ∃ i ∈ indicesFrom (!·.isDefault) k arms, plan.firstTest k arms = plan.next i := by
  unfold firstTest
  split
  · next first rest found => exact .inr ⟨first, found ▸ List.mem_cons_self, rfl⟩
  · exact .inl rfl

theorem built_arm (compares : plan.Compares) {k : Nat} {arm : ArmCode} {rest : List ArmCode}
    {own : List String} (built : Built may false own targets arm.body)
    (toBody : targets (plan.body k)) (toFail : targets (plan.firstTest (k + 1) rest))
    (runsIn : Bool) :
    Built may false ((armLabels plan.number k arm).map Label.text ++ own) targets
      (plan.arm k runsIn arm rest) := by
  have body : Built may false (plan.body k :: own) targets (do
      putLabel (plan.body k)
      arm.body) :=
    .labelled _ fun _ => built
  have tests : Built may false (plan.body k :: own) targets (do
      plan.tests (plan.body k) (plan.firstTest (k + 1) rest) arm.values
      putLabel (plan.body k)
      arm.body) :=
    .bind (built_tests compares toBody toFail _) fun _ => body
  have labelled : Built may false (plan.next k :: plan.body k :: own) targets (do
      putLabel (plan.next k)
      plan.tests (plan.body k) (plan.firstTest (k + 1) rest) arm.values
      putLabel (plan.body k)
      arm.body) :=
    .labelled _ fun _ => tests
  unfold SwitchPlan.arm armLabels
  cases tested : arm.isDefault with
  | true => exact body
  | false =>
    cases k with
    | zero => exact tests
    | succ k =>
      refine iteInduction (motive := Built may false _ targets) (fun _ => ?_) (absurd rfl)
      refine iteInduction (motive := Built may false _ targets) (fun _ => ?_)
        (absurd (Nat.succ_ne_zero k))
      exact .ite (.seq (.emitJump toBody) labelled) labelled

theorem perm_parts (a b c d : List String) :
    ((a ++ b) ++ (c ++ d)).Perm ((a ++ c) ++ (b ++ d)) := by
  rw [List.perm_iff_count]
  intro name
  simp only [List.count_append]
  omega

theorem built_arms (compares : plan.Compares) {k : Nat} {arms : List ArmCode}
    (built : List.Forall₂ (fun arm own => Built may false own targets arm.body) arms owns)
    (toBodies : ∀ i, k ≤ i → i < k + arms.length → targets (plan.body i))
    (toTests : ∀ i ∈ indicesFrom (!·.isDefault) k arms, i ≠ 0 → targets (plan.next i))
    (toOtherwise : targets plan.otherwise) (runsIn : Bool) :
    Built may false ((labels plan.number k arms).map Label.text ++ owns.flatten) targets
      (plan.arms k runsIn arms) := by
  induction built generalizing k runsIn with
  | nil => exact .pure ()
  | @cons arm own rest owns here others ih =>
    have later (i : Nat) (inside : i ∈ indicesFrom (!·.isDefault) (k + 1) rest) :
        targets (plan.next i) := by
      refine toTests i ?_ (by have := mem_indicesFrom inside; omega)
      rw [indicesFrom]
      split
      · exact List.mem_cons_of_mem _ inside
      · exact inside
    have toFail : targets (plan.firstTest (k + 1) rest) := by
      rcases plan.firstTest_cases (k + 1) rest with same | ⟨i, inside, same⟩
      · exact same ▸ toOtherwise
      · exact same ▸ later i inside
    have first := built_arm compares here (toBodies k (Nat.le_refl k) (by simp)) toFail runsIn
    have further := ih (k := k + 1) (fun i low high =>
      toBodies i (by omega) (by rw [List.length_cons]; omega)) (fun i inside _ => later i inside)
      arm.fallsThrough
    rw [labels, List.map_append, List.flatten_cons]
    exact (first.join fun _ => further).perm (perm_parts _ _ _ _)

theorem built_enter {arms : List ArmCode}
    (toTests : ∀ i ∈ indicesFrom (!·.isDefault) 0 arms, i ≠ 0 → targets (plan.next i))
    (toOtherwise : targets plan.otherwise) : Loud may targets (plan.enter arms) := by
  unfold enter
  split
  · exact .pure _
  · next first rest further found =>
    exact .emitJump (toTests first (found ▸ List.mem_cons_self) further)
  · next k _ found =>
    rw [otherwise, found] at toOtherwise
    exact .emitJump toOtherwise
  · exact .pure _

def code (plan : SwitchPlan) (arms : List ArmCode) : Gen Unit := do
  let outer := (← get).exits.head?
  withExits { next := outer.bind (·.next), leave := plan.stop } do
    plan.enter arms
    plan.arms 0 false arms
  putLabel plan.stop

theorem built_rounds (compares : plan.Compares) {arms : List ArmCode}
    (inRange : ∀ k, plan.default? = some k → k < arms.length)
    (mine : ∀ l ∈ Label.switchEnd plan.number :: labels plan.number 0 arms, targets l.text)
    (built : List.Forall₂ (fun arm own => Built may false own targets arm.body) arms owns) :
    Built may false ((labels plan.number 0 arms).map Label.text ++ owns.flatten) targets (do
      plan.enter arms
      plan.arms 0 false arms) := by
  have toBodies (i : Nat) (high : i < arms.length) : targets (plan.body i) :=
    mine _ (List.mem_cons_of_mem _ (body_mem_labels (Nat.zero_le i) (by omega)))
  have toTests (i : Nat) (tested : i ∈ indicesFrom (!·.isDefault) 0 arms) (further : i ≠ 0) :
      targets (plan.next i) :=
    mine _ (List.mem_cons_of_mem _ (next_mem_labels tested further))
  have toOtherwise : targets plan.otherwise := by
    unfold otherwise
    split
    · next k found => exact toBodies k (inRange k found)
    · exact mine _ List.mem_cons_self
  exact .bind (built_enter toTests toOtherwise) fun _ =>
    built_arms compares built (fun i _ high => toBodies i (by omega)) toTests toOtherwise false

theorem built_code (compares : plan.Compares) {arms : List ArmCode}
    (inRange : ∀ k, plan.default? = some k → k < arms.length)
    (mine : ∀ l ∈ Label.switchEnd plan.number :: labels plan.number 0 arms, targets l.text)
    (built : ∀ {wider : String → Prop}, (∀ label, targets label → wider label) →
      List.Forall₂ (fun arm own => Built may false own wider arm.body) arms owns) :
    Built may false
      ((Label.switchEnd plan.number :: labels plan.number 0 arms).map Label.text ++ owns.flatten)
      targets (plan.code arms) := by
  have whole : Built may false
      (((labels plan.number 0 arms).map Label.text ++ owns.flatten) ++ [plan.stop]) targets
      (plan.code arms) := by
    refine .look_exits (fun _ _ => rfl) fun more c leads => .join (.withExits ?_ ?_ ?_) fun _ =>
      .putLabel _
    · exact more _ (mine _ List.mem_cons_self)
    · intro label next
      obtain ⟨exit, first, same⟩ := Option.bind_eq_some_iff.mp next
      exact (leads exit (List.mem_of_head? first)).2 label same
    · exact built_rounds compares inRange (fun l inside => more _ (mine l inside)) (built more)
  exact whole.perm (List.perm_append_singleton _ _)

end SwitchPlan

theorem compares_of_compareOf? {place : Place} {m : Mnemonic} (found : compareOf? place = some m) :
    (Cpu.Encoding.find? m .immediate).isSome = true ∧ (m == .jmp || m.isBranch) = false := by
  cases place <;> cases found <;> exact ⟨rfl, rfl⟩

theorem yields_loadSelector (selector : Lowered) :
    Yields (fun place => (compareOf? place).isSome = true) (loadSelector selector) := by
  refine .bind fun place => .bind fun _ =>
    .ite_of (fun _ => .bind fun _ => .pure rfl) fun register => ?_
  refine .ite (.bind fun _ => .pure rfl) (.pure ?_)
  cases place <;> first | rfl | exact absurd rfl register

theorem yields_findDefault (arms : List ArmCode) :
    Yields (fun default? => ∀ k, default? = some k → k < arms.length) (findDefault arms) := by
  unfold findDefault
  split
  · refine .pure ?_
    rintro k ⟨⟩
  · next k found =>
    refine .pure ?_
    rintro _ ⟨⟩
    have bounds := mem_indicesFrom (found ▸ List.mem_singleton_self k)
    omega
  · exact .fail _

namespace Built

variable {may : Licence} {quiet : Bool} {targets : String → Prop}

theorem loadSelector {selector : Lowered} (built : selector.IsBuilt may) :
    Loud may targets (loadSelector selector) := by
  refine .bind built.value fun place => .look (fun _ _ => rfl) fun _ => .ite ?_ ?_
  · exact .seq (.loadA place) (.pure _)
  · exact .ite (.seq (.loadA place) (.pure _)) (.pure _)

theorem findDefault (arms : List ArmCode) : Built may quiet [] targets (findDefault arms) := by
  unfold Lowering.findDefault
  split
  · exact .pure _
  · exact .pure _
  · exact .fail _

end Built

theorem Built.switch {may : Licence} {targets : String → Prop} {selector : Lowered}
    (fine : selector.IsBuilt may) {arms : List ArmCode} {owns : List (List String)}
    (built : ∀ {wider : String → Prop}, (∀ label, targets label → wider label) →
      List.Forall₂ (fun arm own => Built may false own wider arm.body) arms owns) :
    Built may false owns.flatten targets (switch selector arms) := by
  refine .bind (.isWide _) fun _ => .check ?_
  refine .bind_of (yields_loadSelector selector) (.loadSelector fine) fun place register => ?_
  refine .seq (.setAccInUse _) <| .seq .flush <| .seq (.setAccInUse _) ?_
  refine .openingWith (fun n => .switchEnd n :: SwitchPlan.labels n 0 arms) (takes_nextIf ?_)
    .nextIf ?_
    fun n => ?_
  · intro c l inside
    have numbered : c.ifCount < c.ifCount + 1 ∧ c.ifCount + 1 ≤ c.countIf.ifCount :=
      ⟨Nat.lt_succ_self _, Nat.le_refl _⟩
    rcases List.mem_cons.mp inside with rfl | arm
    · exact numbered
    · obtain ⟨i, -, rfl | rfl⟩ := SwitchPlan.cases_of_mem_labels arm <;> exact numbered
  · intro n
    refine List.nodup_cons.mpr ⟨fun inside => ?_, SwitchPlan.nodup_labels⟩
    obtain ⟨i, -, same | same⟩ := SwitchPlan.cases_of_mem_labels inside <;> cases same
  · refine .bind_of (yields_findDefault arms) (.findDefault arms) fun default? inRange => ?_
    split
    · next unknown =>
      rw [unknown] at register
      cases register
    · next compare found =>
      have compares : SwitchPlan.Compares ⟨n, compare, default?⟩ := compares_of_compareOf? found
      exact SwitchPlan.built_code compares inRange
        (fun l inside => .inl (List.mem_map_of_mem inside)) fun more =>
          built fun _ target => more _ (.inr target)

end Backend6502.Lowering

namespace Backend6502.Source

namespace Stmt

mutual

/-- What `f` gives for a statement and for all statements inside it. -/
def collect {α : Type} (f : Stmt → List α) : Stmt → List α
  | .block loc body => f (.block loc body) ++ collectAll f body
  | .forLoop loc init cond update body => f (.forLoop loc init cond update body) ++ collect f body
  | .whileLoop loc cond body => f (.whileLoop loc cond body) ++ collect f body
  | .doWhile loc body cond => f (.doWhile loc body cond) ++ collect f body
  | .ifElse loc cond thenBody none => f (.ifElse loc cond thenBody none) ++ collect f thenBody
  | .ifElse loc cond thenBody (some elseBody) =>
    f (.ifElse loc cond thenBody (some elseBody)) ++ collect f thenBody ++ collect f elseBody
  | .switch loc selector arms => f (.switch loc selector arms) ++ collectArms f arms
  | .expr loc e => f (.expr loc e)
  | .leave loc => f (.leave loc)
  | .next loc => f (.next loc)
  | .ret loc value => f (.ret loc value)
  | .asm loc text => f (.asm loc text)
  | .strobe loc target => f (.strobe loc target)
  | .goto loc target => f (.goto loc target)

/-- What `f` gives for all statements of a list and inside them. -/
def collectAll {α : Type} (f : Stmt → List α) : List Stmt → List α
  | [] => []
  | s :: rest => collect f s ++ collectAll f rest

/-- What `f` gives for all statements of some arms. -/
def collectArms {α : Type} (f : Stmt → List α) : List (Arm Stmt) → List α
  | [] => []
  | arm :: rest => collectArm f arm ++ collectArms f rest

def collectArm {α : Type} (f : Stmt → List α) : Arm Stmt → List α
  | ⟨_, _, body⟩ => collectAll f body

end

/-- The label that a statement carries. -/
def ownLabels (s : Stmt) : List String :=
  if s.loc.label.isEmpty then [] else [s.loc.label]

/-- The label that a statement goes to by its name. -/
def ownGotos : Stmt → List String
  | .goto _ target => [target]
  | _ => []

/-- The labels of the source that a statement and those inside it carry. -/
def labels (s : Stmt) : List String :=
  s.collect ownLabels

/-- The labels of the source that a statement and those inside it name. -/
def gotos (s : Stmt) : List String :=
  s.collect ownGotos

end Stmt

end Backend6502.Source

namespace Backend6502.Lowering

open Source (Expr Loc Arm Stmt)
open Symbols (Function)

/-- A step that is built with these targets and with any that are added. -/
def BuiltFrom {α : Type} (may : Licence) (own : List String) (targets : String → Prop)
    (m : Gen α) : Prop :=
  ∀ {wider : String → Prop}, (∀ label, targets label → wider label) →
    Built may false own wider m

/-- The label of a statement, if it has one. -/
def labelLines (loc : Loc) : List Code.Line :=
  if loc.label.isEmpty then [] else [.label (Label.source loc.label).text]

theorem enter_eq_ok {loc : Loc} {scope : Scope} {c d : Context} {u : Unit}
    (ok : enter loc scope c = .ok u d) :
    ∃ flags, d = { c with code := c.code ++ labelLines loc, pos := loc.pos, flags } := by
  obtain ⟨_, _, ⟨⟩, ok⟩ := bind_inv ok
  unfold labelLines
  cases unlabelled : loc.label.isEmpty <;> rw [unlabelled] at ok <;> cases ok
  · exact ⟨.unknown, rfl⟩
  · exact ⟨c.flags, by simp⟩

def sourceTexts (names : List String) : List String :=
  names.map fun name => (Label.source name).text

theorem sourceTexts_append (first second : List String) :
    sourceTexts (first ++ second) = sourceTexts first ++ sourceTexts second :=
  List.map_append

section Exits

variable {targets : String → Prop} {scope : Scope} {c : Context} (leads : Leads targets c.exits)

include leads

theorem ensures_leaveTarget :
    Ensures leaveTarget scope c fun label after => targets label ∧ Grows [] targets c after := by
  unfold leaveTarget
  rw [ensures_bind, ensures_get]
  cases exits : c.exits with
  | nil => exact ensures_fail
  | cons exit rest =>
    rw [exits] at leads
    exact ⟨(leads exit List.mem_cons_self).1, .refl c⟩

theorem ensures_nextTarget :
    Ensures nextTarget scope c fun label after => targets label ∧ Grows [] targets c after := by
  unfold nextTarget
  rw [ensures_bind, ensures_get]
  split
  · exact ensures_fail
  · next label found =>
    obtain ⟨exit, first, next⟩ := Option.bind_eq_some_iff.mp found
    exact ⟨(leads exit (List.mem_of_head? first)).2 label next, .refl c⟩

end Exits

theorem gotos_unwrapped (s : Stmt) : (unwrapped s).gotos = s.gotos := by
  unfold unwrapped
  split
  · next loc inner =>
    split
    · simp [Stmt.gotos, Stmt.collect, Stmt.collectAll, Stmt.ownGotos]
    · rfl
  · rfl

theorem labels_unwrapped (s : Stmt) : (unwrapped s).labels = s.labels := by
  unfold unwrapped
  split
  · next loc inner =>
    split
    · next unlabelled =>
      simp [Stmt.labels, Stmt.collect, Stmt.collectAll, Stmt.ownLabels, Stmt.loc, unlabelled]
    · rfl
  · rfl

/-- Where a statement only goes to is a target, and such a statement carries no label. -/
theorem ensures_jumpTarget {targets : String → Prop} {s : Stmt}
    (gotos : ∀ name ∈ s.gotos, targets (Label.source name).text) (scope : Scope) {c : Context}
    (leads : Leads targets c.exits) :
    Ensures (jumpTarget s) scope c fun label? after =>
      (∀ label, label? = some label → targets label ∧ s.labels = []) ∧
        Grows [] targets c after := by
  unfold jumpTarget
  rw [← gotos_unwrapped] at gotos
  rw [← labels_unwrapped]
  generalize unwrapped s = s at gotos
  rw [ensures_ite]
  refine ⟨fun _ => ⟨nofun, .refl c⟩, fun labelled => ?_⟩
  have unlabelled : s.ownLabels = [] := by
    unfold Stmt.ownLabels
    rw [if_pos (by simpa using labelled)]
  split
  · rw [ensures_bind]
    refine (ensures_leaveTarget leads).mono fun label after step => ⟨?_, step.2⟩
    rintro _ ⟨⟩
    exact ⟨step.1, unlabelled⟩
  · rw [ensures_bind]
    refine (ensures_nextTarget leads).mono fun label after step => ⟨?_, step.2⟩
    rintro _ ⟨⟩
    exact ⟨step.1, unlabelled⟩
  · refine ⟨?_, .refl c⟩
    rintro _ ⟨⟩
    exact ⟨gotos _ List.mem_cons_self, unlabelled⟩
  · exact ⟨nofun, .refl c⟩

section Composition

variable {may : Licence}

theorem composed_emitJump (label : String) : Composed may (emitJump label) :=
  (Built.emitJump trivial : Built may false [] (fun _ => True) _).composed

theorem composed_leaveTarget : Composed may leaveTarget := by
  refine .look (fun _ _ => rfl) fun _ => ?_
  split
  · exact .fail _
  · exact .pure _

theorem composed_nextTarget : Composed may nextTarget := by
  refine .look (fun _ _ => rfl) fun _ => ?_
  split
  · exact .fail _
  · exact .pure _

theorem composed_jumpTarget (s : Stmt) : Composed may (jumpTarget s) := by
  refine .ite (.pure _) ?_
  split
  · exact .bind composed_leaveTarget fun _ => .pure _
  · exact .bind composed_nextTarget fun _ => .pure _
  · exact .pure _
  · exact .pure _

end Composition

namespace Built

variable {may : Licence} {own others : List String} {targets : String → Prop}
variable {init : Expr} {cond : Lowered} {thenBody body : Gen Unit}

theorem exprStmt {e : Expr} (named : ∀ name ∈ e.calls, may.calls name) :
    Loud may targets (exprStmt e) :=
  .ite (.bind (isBuilt_lower e named).value fun _ => .endStatement) .endStatement

theorem leave : Loud may targets (leaveTarget >>= Lowering.emitJump) where
  places := Places.bind_ensured (fun _ _ leads => ensures_leaveTarget leads) fun _ target =>
    Safe.of_built (.emitJump target)
  composed := .bind composed_leaveTarget fun _ => composed_emitJump _
  adds := nofun

theorem next : Loud may targets (nextTarget >>= Lowering.emitJump) where
  places := Places.bind_ensured (fun _ _ leads => ensures_nextTarget leads) fun _ target =>
    Safe.of_built (.emitJump target)
  composed := .bind composed_nextTarget fun _ => composed_emitJump _
  adds := nofun

theorem forInit (named : ∀ name ∈ init.calls, may.calls name) :
    Loud may targets (forInit init) :=
  .ite (.exprStmt named) (.pure _)

theorem forFirst {cond : Expr} (named : ∀ name ∈ cond.calls, may.calls name) {stop : String}
    (target : targets stop) : Loud may targets (forFirst cond stop) :=
  .ite ((isBuilt_lower cond named).test target _) (.pure _)

theorem forAgain {cond : Expr} (named : ∀ name ∈ cond.calls, may.calls name) {start : String}
    (target : targets start) : Loud may targets (forAgain cond start) :=
  .ite (.emitJump target) <| (isBuilt_lower cond named).test target _

theorem returnStmt {value : Expr} (named : ∀ name ∈ value.calls, may.calls name) :
    Loud may targets (returnStmt value) := by
  have finish : Loud may targets (do
      Lowering.endStatement
      Lowering.emitReturn) :=
    .seq .endStatement .emitReturn
  refine .ite (.ask (fun _ => rfl) fun _ => .check ?_) finish
  refine .bind (isBuilt_lower value named).value fun _ => .seq (.loadA _) ?_
  exact .seq (.setAccInUse _) finish

theorem asmStmt (text : String) : Loud may targets (asmStmt text) := by
  refine .bind ⟨Safe.addLines (fun i inside => ?_) rfl fun i inside => ?_, .addLines ?_, nofun⟩
    fun _ => .setFlags _
  · simp at inside
  · simp at inside
  · intro line inside
    rw [List.mem_singleton.mp inside]
    rfl

theorem enter {calls : String → Prop} (s : Stmt) :
    Built ⟨calls, True⟩ false (sourceTexts s.ownLabels) targets (enter s.loc) := by
  refine .bind ⟨Safe.modify (fun _ => rfl) (fun _ => rfl) (fun _ => id) fun _ => .of_eq rfl rfl rfl,
    .moveTo trivial _, nofun⟩ fun _ => ?_
  unfold Stmt.ownLabels
  cases s.loc.label.isEmpty with
  | true => exact .pure ()
  | false => exact .putLabel _

theorem jumpTarget {s : Stmt} (gotos : ∀ name ∈ s.gotos, targets (Label.source name).text)
    {f : Option String → Gen Unit}
    (places : ∀ label?, (∀ label, label? = some label → targets label ∧ s.labels = []) →
      Places own targets (f label?)) (composed : ∀ label?, Composed may (f label?)) :
    Built may false own targets (jumpTarget s >>= f) where
  places := Places.bind_ensured (fun scope _ leads => ensures_jumpTarget gotos scope leads) places
  composed := .bind (composed_jumpTarget s) composed
  adds := nofun

theorem ifThen (tests : cond.IsBuilt may) (built : BuiltFrom may own targets thenBody) :
    Built may false own targets (ifThen cond thenBody) := by
  refine .openingWith (fun n => [.ifEnd n])
    (takes_nextIf fun c => by simp [Label.Within, Context.countIf]) .nextIf (by simp) fun n => ?_
  refine .bind (tests.test (.inl (by simp)) _) fun _ => ?_
  exact (join (built fun _ => .inr) fun _ => .putLabel _).perm List.perm_append_comm

theorem ifThenElse (tests : cond.IsBuilt may) (jumps : Bool) {elseBody : Gen Unit}
    (first : BuiltFrom may own targets thenBody)
    (second : BuiltFrom may others targets elseBody) :
    Built may false (own ++ others) targets (ifThenElse cond jumps thenBody elseBody) := by
  refine .openingWith (fun n => [.otherwise n, .ifEnd n])
    (takes_nextIf fun c => by simp [Label.Within, Context.countIf]) .nextIf (by simp) fun n => ?_
  have alternative : Built may false
      ((Label.otherwise n).text :: (others ++ [(Label.ifEnd n).text]))
      (fun label => label ∈ [Label.otherwise n, .ifEnd n].map Label.text ∨ targets label) (do
        Lowering.putLabel (Label.otherwise n).text
        elseBody
        Lowering.putLabel (Label.ifEnd n).text) :=
    .labelled _ fun _ => join (second fun _ => .inr) fun _ => .putLabel _
  refine .bind (tests.test (.inl (by simp)) _) fun _ => .perm (join (first fun _ => .inr) fun _ =>
    .ite (.seq (.emitJump (.inl (by simp))) alternative) alternative) ?_
  rw [List.perm_iff_count]
  intro name
  simp only [List.map_cons, List.map_nil, List.count_append, List.count_cons, List.count_nil]
  omega

theorem whileLoop (tests : cond.IsBuilt may) (built : BuiltFrom may own targets body) :
    Built may false own targets (whileLoop cond body) := by
  refine .openingWith (fun n => [.whileStart n, .whileEnd n])
    (takes_nextWhile fun c => by simp [Label.Within, Context.countWhile]) .nextWhile (by simp)
    fun n => ?_
  refine .labelled _ fun _ => .bind (tests.test (.inl (by simp)) _) fun _ => ?_
  refine (join (.withExits (.inl (by simp)) ?_ (built fun _ => .inr)) fun _ => .seq
    (.emitJump (.inl (by simp))) (.putLabel _)).perm List.perm_append_comm
  rintro label ⟨⟩
  exact .inl (by simp)

theorem perm_loop (start next stop : String) (own : List String) :
    (start :: (own ++ [next, stop])).Perm ([start, next, stop] ++ own) :=
  List.Perm.cons start List.perm_append_comm

theorem doWhile (tests : cond.IsBuilt may) (built : BuiltFrom may own targets body) :
    Built may false own targets (doWhile body cond) := by
  refine .openingWith (fun n => [.doStart n, .doCond n, .doEnd n])
    (takes_nextWhile fun c => by simp [Label.Within, Context.countWhile]) .nextWhile (by simp)
    fun n => ?_
  refine (labelled _ fun _ => join (.withExits (.inl (by simp)) ?_ (built fun _ => .inr)) fun _ =>
    .labelled _ fun _ => .bind (tests.test (.inl (by simp)) _) fun _ => .putLabel _).perm
      (perm_loop _ _ _ _)
  rintro label ⟨⟩
  exact .inl (by simp)

theorem forLoop {cond update : Expr} (starts : ∀ name ∈ init.calls, may.calls name)
    (tests : ∀ name ∈ cond.calls, may.calls name) (updates : ∀ name ∈ update.calls, may.calls name)
    (built : BuiltFrom may own targets body) :
    Built may false own targets (forLoop init cond update body) := by
  refine .seq (.forInit starts) <|
    .openingWith (fun n => [.forStart n, .forUpdate n, .forEnd n])
      (takes_nextFor fun c => by simp [Label.Within, Context.countFor]) .nextFor (by simp)
      fun n => ?_
  refine .seq (.forFirst tests (.inl (by simp))) ?_
  refine (labelled _ fun _ => join (.withExits (.inl (by simp)) ?_ (built fun _ => .inr)) fun _ =>
    .labelled _ fun _ => .seq (.exprStmt updates) <|
      .seq (.forAgain tests (.inl (by simp))) (.putLabel _)).perm (perm_loop _ _ _ _)
  rintro label ⟨⟩
  exact .inl (by simp)

end Built

theorem flatten_armTexts (arms : List (Arm Stmt)) :
    (arms.map fun arm => sourceTexts (Stmt.collectArm Stmt.ownLabels arm)).flatten =
      sourceTexts (Stmt.collectArms Stmt.ownLabels arms) := by
  induction arms with
  | nil => rfl
  | cons arm rest ih =>
    rw [List.map_cons, List.flatten_cons, ih, Stmt.collectArms, sourceTexts_append]

mutual

/--
A statement places the labels of the source that it and those inside it carry. It is safe otherwise
if the labels that it goes to by name are among the targets, and it calls the functions that it
names.
-/
theorem built_stmt {calls targets : String → Prop} : ∀ s : Stmt,
    (∀ name ∈ s.gotos, targets (Label.source name).text) → (∀ name ∈ s.calls, calls name) →
    Built ⟨calls, True⟩ false (sourceTexts s.labels) targets (stmt s)
  | .block loc body, gotos, named => by
    rw [stmt, Stmt.labels, Stmt.collect, sourceTexts_append]
    exact .join (.enter (.block loc body)) fun _ => built_stmts body gotos named
  | .expr loc e, _, named => by
    rw [stmt]
    exact .first (.enter (.expr loc e)) fun _ => .exprStmt named
  | .forLoop loc init cond update body, gotos, named => by
    simp only [Stmt.calls, List.forall_mem_append] at named
    obtain ⟨⟨⟨starts, tests⟩, updates⟩, others⟩ := named
    rw [stmt, Stmt.labels, Stmt.collect, sourceTexts_append]
    exact .join (.enter (.forLoop loc init cond update body)) fun _ => .forLoop starts tests updates
      fun more => built_stmt body (fun name inside => more _ (gotos name inside)) others
  | .whileLoop loc cond body, gotos, named => by
    obtain ⟨tests, others⟩ := List.forall_mem_append.mp named
    rw [stmt, Stmt.labels, Stmt.collect, sourceTexts_append]
    exact .join (.enter (.whileLoop loc cond body)) fun _ => .whileLoop (isBuilt_lower cond tests)
      fun more => built_stmt body (fun name inside => more _ (gotos name inside)) others
  | .doWhile loc body cond, gotos, named => by
    obtain ⟨others, tests⟩ := List.forall_mem_append.mp named
    rw [stmt, Stmt.labels, Stmt.collect, sourceTexts_append]
    exact .join (.enter (.doWhile loc body cond)) fun _ => .doWhile (isBuilt_lower cond tests)
      fun more => built_stmt body (fun name inside => more _ (gotos name inside)) others
  | .ifElse loc cond thenBody none, gotos, named => by
    obtain ⟨tests, others⟩ := List.forall_mem_append.mp named
    have inner : ∀ name ∈ thenBody.gotos, targets (Label.source name).text := gotos
    have condition : (lower cond).IsBuilt ⟨calls, True⟩ := isBuilt_lower cond tests
    have whole : Built ⟨calls, True⟩ false (sourceTexts thenBody.labels) targets
        (ifThen (lower cond) (stmt thenBody)) := .ifThen condition fun more =>
      built_stmt thenBody (fun name inside => more _ (inner name inside)) others
    rw [stmt, Stmt.labels, Stmt.collect, sourceTexts_append]
    refine .join (.enter (.ifElse loc cond thenBody none)) fun _ => .jumpTarget inner
      (fun label? targeted => ?_) fun label? => ?_
    -- The body is left out only if it carries no label.
    · cases label? with
      | some label =>
        obtain ⟨target, unlabelled⟩ := targeted label rfl
        change Places (sourceTexts thenBody.labels) targets _
        rw [unlabelled]
        exact (condition.test target false).places
      | none => exact whole.places
    · cases label? with
      | some label =>
        exact (condition.test trivial false : Built ⟨calls, True⟩ false [] (fun _ => True)
          _).composed
      | none => exact whole.composed
  | .ifElse loc cond thenBody (some elseBody), gotos, named => by
    simp only [Stmt.calls, List.forall_mem_append] at named
    obtain ⟨⟨tests, first⟩, second⟩ := named
    obtain ⟨toFirst, toSecond⟩ := List.forall_mem_append.mp gotos
    rw [stmt, Stmt.labels, Stmt.collect, List.append_assoc, sourceTexts_append, sourceTexts_append]
    refine .join (.enter (.ifElse loc cond thenBody (some elseBody))) fun _ =>
      .ifThenElse (isBuilt_lower cond tests) _ (fun more => ?_) fun more => ?_
    · exact built_stmt thenBody (fun name inside => more _ (toFirst name inside)) first
    · exact built_stmt elseBody (fun name inside => more _ (toSecond name inside)) second
  | .switch loc selector arms, gotos, named => by
    obtain ⟨selects, others⟩ := List.forall_mem_append.mp named
    rw [stmt, Stmt.labels, Stmt.collect, sourceTexts_append, ← flatten_armTexts]
    exact .join (.enter (.switch loc selector arms)) fun _ =>
      .switch (isBuilt_lower selector selects)
      fun more => built_armCodes arms (fun name inside => more _ (gotos name inside)) others
  | .leave loc, _, _ => by
    rw [stmt]
    exact .first (.enter (.leave loc)) fun _ => .leave
  | .next loc, _, _ => by
    rw [stmt]
    exact .first (.enter (.next loc)) fun _ => .next
  | .ret loc value, _, named => by
    rw [stmt]
    exact .first (.enter (.ret loc value)) fun _ => .returnStmt named
  | .asm loc text, _, _ => by
    rw [stmt]
    exact .first (.enter (.asm loc text)) fun _ => .asmStmt text
  | .strobe loc e, _, _ => by
    rw [stmt]
    exact .first (.enter (.strobe loc e)) fun _ => .strobe e
  | .goto loc name, gotos, _ => by
    rw [stmt]
    exact .first (.enter (.goto loc name)) fun _ => .emitJump (gotos name List.mem_cons_self)

theorem built_stmts {calls targets : String → Prop} : ∀ body : List Stmt,
    (∀ name ∈ Stmt.collectAll Stmt.ownGotos body, targets (Label.source name).text) →
    (∀ name ∈ Stmt.callsAll body, calls name) →
    Built ⟨calls, True⟩ false (sourceTexts (Stmt.collectAll Stmt.ownLabels body)) targets
      (stmts body)
  | [], _, _ => by
    rw [stmts]
    exact .pure ()
  | s :: rest, gotos, named => by
    obtain ⟨toFirst, toOthers⟩ := List.forall_mem_append.mp gotos
    obtain ⟨first, others⟩ := List.forall_mem_append.mp named
    rw [stmts, Stmt.collectAll, sourceTexts_append]
    exact .join (built_stmt s toFirst first) fun _ => built_stmts rest toOthers others

theorem built_armCodes {calls targets : String → Prop} : ∀ arms : List (Arm Stmt),
    (∀ name ∈ Stmt.collectArms Stmt.ownGotos arms, targets (Label.source name).text) →
    (∀ name ∈ Stmt.callsArms arms, calls name) →
    List.Forall₂ (fun arm own => Built ⟨calls, True⟩ false own targets arm.body) (armCodes arms)
      (arms.map fun arm => sourceTexts (Stmt.collectArm Stmt.ownLabels arm))
  | [], _, _ => by
    rw [armCodes]
    exact .nil
  | arm :: rest, gotos, named => by
    obtain ⟨toFirst, toOthers⟩ := List.forall_mem_append.mp gotos
    obtain ⟨first, others⟩ := List.forall_mem_append.mp named
    rw [armCodes, List.map_cons]
    exact .cons (built_armCode arm toFirst first) (built_armCodes rest toOthers others)

theorem built_armCode {calls targets : String → Prop} : ∀ arm : Arm Stmt,
    (∀ name ∈ Stmt.collectArm Stmt.ownGotos arm, targets (Label.source name).text) →
    (∀ name ∈ Stmt.callsArm arm, calls name) →
    Built ⟨calls, True⟩ false (sourceTexts (Stmt.collectArm Stmt.ownLabels arm)) targets
      (armCode arm).body
  | ⟨_, _, body⟩, gotos, named => by
    rw [armCode]
    exact built_stmts body gotos named

end

/-- A statement is safe besides the labels of the source that it carries. -/
theorem places_stmt {targets : String → Prop} (s : Stmt)
    (gotos : ∀ name ∈ s.gotos, targets (Label.source name).text) :
    Places (sourceTexts s.labels) targets (stmt s) :=
  (built_stmt s gotos fun _ _ => trivial : Built ⟨fun _ => True, True⟩ false _ targets
    (stmt s)).places

/-- Of an expression as a statement everything is ensured that holds where it goes through. -/
theorem ensures_stmt {loc : Loc} {e : Expr} {scope : Scope} {c : Context}
    {Q : Unit → Context → Prop}
    (holds : ∀ u after, stmt (.expr loc e) scope c = .ok u after → Q u after) :
    Ensures (stmt (.expr loc e)) scope c Q := by
  have safe : Places _ (fun _ => True) (stmt (.expr loc e)) := places_stmt _ nofun
  exact (safe scope c fun _ _ => ⟨trivial, fun _ _ => trivial⟩).imp_of_ok fun u after ok _ =>
    holds u after ok

/-- The code after the step has the property, whatever it was before. -/
def Finishes (P : Scope → List Code.Line → Prop) (m : Gen Unit) : Prop :=
  ∀ scope c d, m scope c = .ok () d → P scope d.code

namespace Finishes

variable {P : Scope → List Code.Line → Prop}

theorem bind {α : Type} {m : Gen α} {f : α → Gen Unit} (last : ∀ a, Finishes P (f a)) :
    Finishes P (m >>= f) := by
  intro scope c d ok
  obtain ⟨a, between, -, ends⟩ := bind_inv ok
  exact last a scope between d ends

theorem last {m : Gen Unit} (finishes : Finishes P m) : Finishes P (m >>= fun _ => pure ()) := by
  intro scope c d ok
  obtain ⟨_, between, runs, ⟨⟩⟩ := bind_inv ok
  exact finishes scope c _ runs

theorem returnStmt (returns : Finishes P emitReturn) (value : Expr) :
    Finishes P (returnStmt value) := by
  have finish : Finishes P (do
      endStatement
      emitReturn) := bind fun _ => returns
  unfold Lowering.returnStmt
  split
  · have loads : Finishes P (do
        loadA (← (lower value).value)
        setAccInUse true
        endStatement
        emitReturn) := bind fun _ => bind fun _ => bind fun _ => finish
    exact bind fun _ => iteInduction (fun _ => bind fun _ => loads) fun _ => loads
  · exact finish

end Finishes

theorem safe_exprStmt {targets : String → Prop} (e : Expr) : Safe targets (exprStmt e) :=
  (Built.exprStmt fun _ _ => trivial : Built ⟨fun _ => True, True⟩ false [] targets _).places

def callsOf (f : Function) : List String :=
  match f.body with
  | none => []
  | some block => block.calls

theorem composed_function (f : Function) : Composed ⟨(· ∈ callsOf f), True⟩ (function f) := by
  have label {may : Licence} : Composed may (putLabel f.name) :=
    (Built.putLabel _ : Built _ false _ (fun _ => True) _).composed
  have returns {may : Licence} : Composed may emitReturn :=
    (Built.emitReturn : Built _ false _ (fun _ => True) _).composed
  unfold callsOf Lowering.function
  cases f.body with
  | none => exact .bind label fun _ => returns
  | some block =>
    have body : Composed ⟨(· ∈ block.calls), True⟩ (stmt block.toStmt) :=
      (built_stmt block.toStmt (fun _ _ => trivial) fun _ inside => inside :
        Built _ false _ (fun _ => True) _).composed
    exact .bind label fun _ => .bind body fun _ => .ite returns (.pure _)

end Backend6502.Lowering
